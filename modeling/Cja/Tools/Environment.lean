import Cja.Assets.Watch
import Cja.Tools.Cache

/-!
# The environment of a build

A build captures some variables and finds its tools by them: by an override, which may be
a command on the `PATH`, or else in the cache of the user. Cargo runs the build again when
one of the variables it was told about has changed. Values are UTF-8, and a file is its
permission bits.
-/
namespace Cja.ToolCache
open FileTree Cja.Assets Cja.Watch

abbrev Env := String → Option String

/-- `ToolEnv`, whole. -/
structure Captured extends ToolEnv where
  manifestDir : Path
  path : Option String
  host : String

/-- `PathBuf::from` -/
def pathOf (text : String) : Path :=
  (if text.toList.head? = some '/' then ["/"] else []) ++ normal (components text)

/-- `ToolEnv::capture`, on a host. -/
def Captured.capture (manifestDir : Path) (host : String) (env : Env) : Captured where
  tscOverride := env "TSC"
  tailwindOverride := env "TAILWIND_CLI"
  xdgCacheHome := (env "XDG_CACHE_HOME").map pathOf
  home := (env "HOME").map pathOf
  offline := env "CARGO_NET_OFFLINE" == some "true"
  manifestDir
  path := env "PATH"
  host

namespace Captured

variable (c : Captured)

def usesHomeCache (tool : Tool) : Bool :=
  (c.overrideFor tool).isNone && !c.xdgCacheHome.any isAbsolute

/-- `env::split_paths`; a build script runs in the directory of its manifest. -/
def searchPath : List Path :=
  (c.path.map fun text => (text.toList.splitOn ':').map (joinText c.manifestDir)).getD []

end Captured

def isAbsoluteText (text : String) : Bool := text.toList.head? == some '/'

/-- `Path::components` of a text, counted. -/
def componentCount (text : String) : ℕ :=
  (if isAbsoluteText text then 1 else 0) +
    (if (components text).head? = some "." then 1 else 0) + (normal (components text)).length

/-! ## The tool of a build -/

section

variable (printable : Char → Bool) (t : LinkTree.Tree ℕ) (c : Captured)

/-- The file an override names. -/
def overrideCandidate (value overrideEnv : String) : Except String Path :=
  if isAbsoluteText value then .ok (joinText [] value.toList)
  else if 1 < componentCount value then .ok (joinText c.manifestDir value.toList)
  else
    match (c.searchPath.map fun dir => joinText dir value.toList).find? t.isFile with
    | some path => .ok path
    | none => .error (overrideEnv ++ " command " ++ Tailwind.debugText printable value.toList ++
        " not found on captured PATH")

def resolveOverride (value overrideEnv : String) : Except String Path := do
  let candidate ← overrideCandidate printable t c value overrideEnv
  match t.canonicalize candidate with
  | .error e =>
      throw (overrideEnv ++ " override " ++ Path.display candidate ++ ": " ++ e.text)
  | .ok canonical =>
      match t.node canonical with
      | some (.file mode) =>
          if mode &&& 0o111 = 0 then
            throw (overrideEnv ++ " override is not executable: " ++ Path.display canonical)
          else pure canonical
      | _ => throw (overrideEnv ++ " override is not a regular file: " ++ Path.display canonical)

/-- How a tool is found: at once, or in the cache by what is done before the lock is taken
and after. -/
inductive Resolution
  | override (result : Except String Path)
  | unsupported (error : String)
  | cache (opening : Cache Path) (critical : Path → Cache Path)

def Tool.spec (host : String) : Tool → Except String ToolSpec
  | .tsc => ToolSpec.tsc host
  | .tailwind => ToolSpec.tailwind host

/-- `resolve_tsc` and `resolve_tailwind`. -/
def resolveTool (tar : Tar) (sha256 : Bytes → String) (pid : ℕ) (tool : Tool) : Resolution :=
  match c.overrideFor tool with
  | some value => .override (resolveOverride printable t c value tool.overrideEnv)
  | none =>
      match tool.spec c.host with
      | .error e => .unsupported e
      | .ok spec =>
          .cache (openCache spec c.toToolEnv) fun cacheParent =>
            resolveLocked tar sha256 spec c.toToolEnv pid (cacheParent ++ [spec.key])

end

/-! ## What Cargo is told -/

/-- Whether the build has use for a tool. -/
def uses (b : AssetsBuilder) : Tool → Bool
  | .tsc => !b.entries.isEmpty
  | .tailwind => !b.tailwinds.isEmpty

def tools : List Tool := [.tsc, .tailwind]

/-- An active tool is a command to be looked up. -/
def watchesPath (b : AssetsBuilder) (c : Captured) : Bool :=
  tools.any fun tool =>
    uses b tool && (c.overrideFor tool).any fun value => componentCount value == 1

def watchesHome (b : AssetsBuilder) (c : Captured) : Bool :=
  tools.any fun tool => uses b tool && c.usesHomeCache tool

def envWatchKeys (b : AssetsBuilder) (c : Captured) : List String :=
  ["TSC", "TAILWIND_CLI", "XDG_CACHE_HOME", "CARGO_NET_OFFLINE", "HTTPS_PROXY", "HTTP_PROXY",
      "ALL_PROXY", "NO_PROXY", "https_proxy", "http_proxy", "all_proxy", "no_proxy"] ++
    (if watchesPath b c then ["PATH"] else []) ++ (if watchesHome b c then ["HOME"] else [])

/-! ## Commands without components -/

variable {printable : Char → Bool} {t : LinkTree.Tree ℕ} {c c' : Captured}
  {value overrideEnv : String}

/-- Only the empty text has no component at all. -/
theorem eq_empty_of_componentCount (h : componentCount value = 0) : value = "" := by
  unfold componentCount at h
  have habsolute : isAbsoluteText value = false := by
    cases ha : isAbsoluteText value with
    | false => rfl
    | true =>
        rw [ha] at h
        simp at h
  cases htext : value.toList with
  | nil => exact String.toList_eq_nil_iff.mp htext
  | cons a text =>
      have ha : a ≠ '/' := by
        rintro rfl
        simp [isAbsoluteText, htext] at habsolute
      obtain ⟨word, words, hsplit⟩ := List.exists_cons_of_ne_nil (List.splitOn_ne_nil '/' text)
      have hparts : components value =
          String.ofList (a :: word) :: words.map String.ofList := by
        simp [components, htext, List.splitOn_cons_eq_if_modifyHead, ha, hsplit]
      have hne : String.ofList (a :: word) ≠ "" := by simp
      rw [hparts] at h
      generalize String.ofList (a :: word) = part at h hne
      by_cases hdot : part = "."
      · simp [hdot] at h
      · simp [Watch.normal, hdot, hne] at h

/-- No entry of the `PATH` makes a command of the empty text. -/
theorem search_empty (dirs : List Path) :
    (dirs.map fun dir => joinText dir "".toList).find? t.isFile = none := by
  rw [List.find?_eq_none, List.forall_mem_map]
  intro dir _
  have hjoin : joinText dir "".toList = dir ++ [""] := rfl
  rw [hjoin, LinkTree.not_isFile_trailing]
  exact Bool.false_ne_true

/-- The `PATH` matters to a command of one component alone. -/
theorem overrideCandidate_congr (hdir : c'.manifestDir = c.manifestDir)
    (hpath : componentCount value = 1 → c'.path = c.path) :
    overrideCandidate printable t c' value overrideEnv =
      overrideCandidate printable t c value overrideEnv := by
  unfold overrideCandidate
  split_ifs with habsolute hmany
  · rfl
  · rw [hdir]
  · by_cases hone : componentCount value = 1
    · unfold Captured.searchPath
      rw [hdir, hpath hone]
    · have hempty : value = "" := eq_empty_of_componentCount (by omega)
      rw [hempty, search_empty, search_empty]

theorem resolveOverride_congr (hdir : c'.manifestDir = c.manifestDir)
    (hpath : componentCount value = 1 → c'.path = c.path) :
    resolveOverride printable t c' value overrideEnv =
      resolveOverride printable t c value overrideEnv := by
  unfold resolveOverride
  rw [overrideCandidate_congr hdir hpath]

/-! ## What is watched suffices -/

variable {b : AssetsBuilder} {manifestDir : Path} {host : String} {env env' : Env}

/-- Two environments that Cargo would not tell apart. -/
def Agree (b : AssetsBuilder) (manifestDir : Path) (host : String) (env env' : Env) : Prop :=
  ∀ key ∈ envWatchKeys b (.capture manifestDir host env), env' key = env key

theorem Agree.fixed (h : Agree b manifestDir host env env') {key : String}
    (hkey : key ∈ ["TSC", "TAILWIND_CLI", "XDG_CACHE_HOME", "CARGO_NET_OFFLINE"]) :
    env' key = env key := by
  refine h key ?_
  simp only [List.mem_cons, List.not_mem_nil, or_false] at hkey
  rcases hkey with rfl | rfl | rfl | rfl <;> simp [envWatchKeys]

theorem mem_tools (tool : Tool) : tool ∈ tools := by
  cases tool with
  | tsc => exact List.mem_cons_self ..
  | tailwind => exact List.mem_cons_of_mem _ (List.mem_singleton.mpr rfl)

theorem Agree.path (h : Agree b manifestDir host env env') {tool : Tool}
    (huses : uses b tool = true)
    (hvalue : (Captured.capture manifestDir host env).overrideFor tool = some value)
    (hone : componentCount value = 1) : env' "PATH" = env "PATH" := by
  have hwatched : watchesPath b (.capture manifestDir host env) = true :=
    List.any_eq_true.mpr ⟨tool, mem_tools tool, by simp [huses, hvalue, hone]⟩
  exact h "PATH" (by simp [envWatchKeys, hwatched])

theorem Agree.home (h : Agree b manifestDir host env env') {tool : Tool}
    (huses : uses b tool = true)
    (hhome : (Captured.capture manifestDir host env).usesHomeCache tool = true) :
    env' "HOME" = env "HOME" := by
  have hwatched : watchesHome b (.capture manifestDir host env) = true :=
    List.any_eq_true.mpr ⟨tool, mem_tools tool, by simp [huses, hhome]⟩
  exact h "HOME" (by simp [envWatchKeys, hwatched])

theorem Agree.overrideFor (h : Agree b manifestDir host env env') (tool : Tool) :
    (Captured.capture manifestDir host env').overrideFor tool =
      (Captured.capture manifestDir host env).overrideFor tool := by
  cases tool with
  | tsc => exact h.fixed (by simp)
  | tailwind => exact h.fixed (by simp)

theorem Agree.cacheBase (h : Agree b manifestDir host env env') {tool : Tool}
    (huses : uses b tool = true)
    (hnone : (Captured.capture manifestDir host env).overrideFor tool = none) :
    (Captured.capture manifestDir host env').cacheBase =
      (Captured.capture manifestDir host env).cacheBase := by
  have hxdg : (Captured.capture manifestDir host env').xdgCacheHome =
      (Captured.capture manifestDir host env).xdgCacheHome :=
    congrArg (Option.map pathOf) (h.fixed (by simp))
  unfold ToolEnv.cacheBase
  rw [hxdg]
  cases hfilter : (Captured.capture manifestDir host env).xdgCacheHome.filter isAbsolute with
  | some base => rfl
  | none =>
      have hany : (Captured.capture manifestDir host env).xdgCacheHome.any isAbsolute = false := by
        cases hx : (Captured.capture manifestDir host env).xdgCacheHome with
        | none => rfl
        | some base =>
            rw [hx, Option.filter_eq_none_iff] at hfilter
            simpa using hfilter base rfl
      have hhome : env' "HOME" = env "HOME" :=
        h.home huses (by simp [Captured.usesHomeCache, hnone, hany])
      have hsame : (Captured.capture manifestDir host env').home =
          (Captured.capture manifestDir host env).home := congrArg (Option.map pathOf) hhome
      rw [hsame]

/-- A build that Cargo does not run again would find the same tools, in the same way, and
would tell Cargo the same. -/
theorem env_watches_suffice {tar : Tar} {sha256 : Bytes → String} {pid : ℕ}
    (h : Agree b manifestDir host env env') :
    (∀ tool, uses b tool = true →
      resolveTool printable t (.capture manifestDir host env') tar sha256 pid tool =
        resolveTool printable t (.capture manifestDir host env) tar sha256 pid tool) ∧
      envWatchKeys b (.capture manifestDir host env') =
        envWatchKeys b (.capture manifestDir host env) := by
  constructor
  · intro tool huses
    unfold resolveTool
    rw [h.overrideFor tool]
    cases hvalue : (Captured.capture manifestDir host env).overrideFor tool with
    | some value =>
        have hpath : componentCount value = 1 →
            (Captured.capture manifestDir host env').path =
              (Captured.capture manifestDir host env).path := h.path huses hvalue
        exact congrArg Resolution.override (resolveOverride_congr rfl hpath)
    | none =>
        dsimp only
        have hbase := h.cacheBase huses hvalue
        have hoffline : (Captured.capture manifestDir host env').offline =
            (Captured.capture manifestDir host env).offline :=
          congrArg (· == some "true") (h.fixed (by simp))
        have hhost : (Captured.capture manifestDir host env').host =
            (Captured.capture manifestDir host env).host := rfl
        rw [hhost]
        cases tool.spec (Captured.capture manifestDir host env).host with
        | error e => rfl
        | ok spec =>
            dsimp only
            unfold openCache resolveLocked
            rw [hbase, hoffline]
  · have hxdg : (Captured.capture manifestDir host env').xdgCacheHome =
        (Captured.capture manifestDir host env).xdgCacheHome :=
      congrArg (Option.map pathOf) (h.fixed (by simp))
    unfold envWatchKeys watchesPath watchesHome Captured.usesHomeCache
    simp only [h.overrideFor, hxdg]

/-- A build of entries with a compiler from the `PATH`: who is logged in does not matter. -/
def commandEnv (user : String) : Env
  | "TSC" => some "tsgo"
  | "PATH" => some "/usr/bin:/opt/bin"
  | "USER" => some user
  | "HOME" => some ("/home/" ++ user)
  | _ => none

def entryBuild : AssetsBuilder :=
  ⟨none, .relative ["frontend"], [⟨.relative ["main.ts"], "main.js", .esm⟩], []⟩

theorem env_watches_suffice_command :
    "PATH" ∈ envWatchKeys entryBuild (.capture ["app"] "linux-x64" (commandEnv "ada")) ∧
      ∀ t tar sha256,
        resolveTool (fun _ => true) t (.capture ["app"] "linux-x64" (commandEnv "bob")) tar
            sha256 0 .tsc =
          resolveTool (fun _ => true) t (.capture ["app"] "linux-x64" (commandEnv "ada")) tar
            sha256 0 .tsc := by
  have hkeys : envWatchKeys entryBuild (.capture ["app"] "linux-x64" (commandEnv "ada")) =
      ["TSC", "TAILWIND_CLI", "XDG_CACHE_HOME", "CARGO_NET_OFFLINE", "HTTPS_PROXY", "HTTP_PROXY",
        "ALL_PROXY", "NO_PROXY", "https_proxy", "http_proxy", "all_proxy", "no_proxy", "PATH"] := by
    decide +kernel
  have hagree : Agree entryBuild ["app"] "linux-x64" (commandEnv "ada") (commandEnv "bob") := by
    unfold Agree
    rw [hkeys]
    decide
  refine ⟨by rw [hkeys]; decide, fun t tar sha256 => ?_⟩
  exact (env_watches_suffice hagree).1 .tsc rfl

end Cja.ToolCache
