import Cja.Assets.Tailwind
import Cja.Lib.LinkTree
import Cja.Lib.Search

/-!
# What Cargo watches for a tsconfig

`watch_config` follows the `extends` links of a tsconfig over a file tree with
symbolic links. Configs are told apart by their canonical path, and the list of seen
ones is shared by the whole recursion. Only the first config, while the list holds
it alone, has its include patterns watched. JSON5 is a parameter, and so is which
characters `{:?}` prints as they are. What is printed before an error is left out.
-/
namespace Cja.Watch
open Cja.Assets LinkTree While

/-- A file has its text, or what `read_to_string` reports of it. -/
abbrev Disk := LinkTree.Tree (Except String (List Char))

/-- `serde_json::Value`, with the kinds a tsconfig is asked for. -/
inductive Json where
  | string (raw : String)
  | array (values : List Json)
  | object (fields : List (String × Json))
  | other

def Json.get (key : String) : Json → Option Json
  | .object fields => (fields.find? fun field => field.1 == key).map Prod.snd
  | .string _ | .array _ | .other => none

def Json.asArray : Json → Option (List Json)
  | .array values => some values
  | .string _ | .object _ | .other => none

def Json.asStr : Json → Option String
  | .string raw => some raw
  | .array _ | .object _ | .other => none

structure Host where
  json5 : List Char → Except String Json
  printable : Char → Bool

variable {α : Type}

def frontend (message : String) : Except BuildError α := .error (.frontend message)

/-! ## Paths -/

/-- `Path::components`: empty parts and dots are passed over. -/
def normal (path : Path) : Path := path.filter fun part => part ≠ "" && part ≠ "."

def startsWith (path base : Path) : Bool := (normal base).isPrefixOf (normal path)

/-- `Path::parent` -/
def parent (path : Path) : Option Path :=
  if normal path = [] then none else some (normal path).dropLast

/-- `Path::join` with a text. -/
def joinText (base : Path) : List Char → Path
  | '/' :: text => components (String.ofList text)
  | text => base ++ components (String.ofList text)

/-- `Path::extension`: of the last component, where it is a name. -/
def extensionOf (path : Path) : Option String :=
  match (normal path).getLast? with
  | some name => if name = ".." then none else extension name
  | none => none

/-- `OsString::push` -/
def pushText (path : Path) (text : String) : Path :=
  match path.getLast? with
  | some last => path.dropLast ++ [last ++ text]
  | none => [text]

def readToString (t : Disk) (path : Path) : Except String (List Char) :=
  match t.read path with
  | .ok content => content
  | .error e => .error e.text

/-! ## `watch_dir` -/

/-- The path Cargo is told to watch. -/
def watchDir (t : Disk) (outDir path : Path) : Except BuildError Path :=
  let out := (t.canonicalize outDir).toOption.getD outDir
  let watched := (t.canonicalize path).toOption.getD path
  if startsWith out watched || startsWith watched out then
    frontend ("refusing Cargo watch of " ++ Path.display watched ++
      " because it contains or is inside OUT_DIR " ++ Path.display out)
  else if t.isDir watched && t.isDir (watched ++ ["target"]) then
    frontend ("refusing Cargo watch of " ++ Path.display watched ++ " because it contains target/")
  else .ok watched

/-- `while !path.is_dir() { path = path.parent()? }`, over the components of a path
from the last one. -/
def climb (t : Disk) : Path → Option Path
  | [] => if t.isDir [] then some [] else none
  | part :: rest =>
      if t.isDir (part :: rest).reverse then some (part :: rest).reverse else climb t rest

/-- What stands before the first `*` or `?`. -/
def patternPrefix (pattern : String) : List Char :=
  pattern.toList.takeWhile fun c => c ≠ '*' && c ≠ '?'

def noParent : String := "tsconfig has no parent"

def watchPatternRoot (H : Host) (t : Disk) (outDir config : Path) (pattern : String) :
    Except BuildError Path :=
  match parent config with
  | none => frontend noParent
  | some base =>
      match climb t (normal (joinText base (patternPrefix pattern))).reverse with
      | none =>
          frontend ("cannot watch tsconfig pattern " ++
            Tailwind.debugText H.printable pattern.toList ++ " from " ++ Path.display config)
      | some path => watchDir t outDir path

/-! ## `watch_config` -/

def tsconfigError (path : Path) (e : String) : BuildError :=
  .frontend ("tsconfig " ++ Path.display path ++ ": " ++ e)

/-- The root of a pattern is watched for the `include` of the first config. -/
def watchEntry (H : Host) (t : Disk) (outDir path : Path) (first : Bool) (key pattern : String) :
    Except BuildError (List Path) :=
  if first && key == "include" then
    (watchPatternRoot H t outDir path pattern).map fun dir => [dir]
  else .ok []

/-- The entries of `include` or `files`. -/
def watchEntries (H : Host) (t : Disk) (outDir path : Path) (first : Bool) (key : String) :
    List Json → Except BuildError (List Path)
  | [] => .ok []
  | pattern :: patterns =>
      match pattern.asStr with
      | none => frontend ("tsconfig " ++ Path.display path ++ " has non-string " ++ key ++ " entry")
      | some pattern => do
          let dirs ← watchEntry H t outDir path first key pattern
          let rest ← watchEntries H t outDir path first key patterns
          pure (dirs ++ rest)

def watchKey (H : Host) (t : Disk) (outDir path : Path) (first : Bool) (value : Json)
    (key : String) : Except BuildError (List Path) :=
  match value.get key with
  | none => .ok []
  | some patterns =>
      match patterns.asArray with
      | none => frontend ("tsconfig " ++ Path.display path ++ " has non-array " ++ key)
      | some patterns => watchEntries H t outDir path first key patterns

def extendsEntries (path : Path) : List Json → Except BuildError (List String)
  | [] => .ok []
  | value :: values =>
      match value.asStr with
      | none => frontend ("unsupported extends in " ++ Path.display path)
      | some raw => do
          let raws ← extendsEntries path values
          pure (raw :: raws)

def extendsValues (path : Path) (value : Json) : Except BuildError (List String) :=
  match value.get "extends" with
  | none => .ok []
  | some (.string raw) => .ok [raw]
  | some (.array values) => extendsEntries path values
  | some (.object _) | some .other => frontend ("unsupported extends in " ++ Path.display path)

/-- A config that is new: what is watched for it, and what it extends. -/
def enterConfig (H : Host) (t : Disk) (outDir : Path) (first : Bool) (path : Path) :
    Except BuildError (List Path × List String) := do
  let watched ← watchDir t outDir path
  let text ← (readToString t path).mapError (tsconfigError path)
  let value ← (H.json5 text).mapError (tsconfigError path)
  let included ← watchKey H t outDir path first value "include"
  let files ← watchKey H t outDir path first value "files"
  let raws ← extendsValues path value
  pure (watched :: (included ++ files), raws)

/-- The config that an extends value names: `.json` is added where it is missing. -/
def extendsTarget (base : Path) (raw : String) : Path :=
  let target := joinText base raw.toList
  if extensionOf target == some "json" then target else pushText target ".json"

def canonicalConfig (t : Disk) (path : Path) : Except BuildError Path :=
  (t.canonicalize path).mapError fun e => tsconfigError path e.text

def followExtends (H : Host) (t : Disk) (path : Path) (raw : String) : Except BuildError Path :=
  if !Tailwind.relative raw.toList then
    frontend ("unsupported extends " ++ Tailwind.debugText H.printable raw.toList ++ " in " ++
      Path.display path ++ ": use a relative config path")
  else
    match parent path with
    | none => frontend noParent
    | some base => canonicalConfig t (extendsTarget base raw)

def configSearch (H : Host) (t : Disk) (outDir : Path) :
    DepthFirst.Search Path String Path BuildError where
  again _ _ := none
  enter := enterConfig H t outDir
  follow := followExtends H t

/-- The seen configs and the watched paths are the state. -/
def watchConfig (H : Host) (t : Disk) (outDir : Path) (fuel : ℕ) (path : Path)
    (s : DepthFirst.State Path Path) : DepthFirst.Outcome Path Path BuildError :=
  match canonicalConfig t path with
  | .error e => some (.error e)
  | .ok path => (configSearch H t outDir).visit fuel [] path s

/-! ## What a config extends -/

variable {H : Host} {t : Disk} {outDir path config base : Path} {value : Json}

/-- What a config says. -/
def Says (H : Host) (t : Disk) (config : Path) (value : Json) : Prop :=
  ∃ text, readToString t config = .ok text ∧ H.json5 text = .ok value

def links (value : Json) : List String :=
  match value.get "extends" with
  | some (.string raw) => [raw]
  | some (.array values) => values.filterMap Json.asStr
  | some (.object _) | some .other | none => []

def includePatterns (value : Json) : List String :=
  match value.get "include" with
  | some (.array patterns) => patterns.filterMap Json.asStr
  | some (.string _) | some (.object _) | some .other | none => []

/-- A link of a config leads to this canonical path. -/
def Extends (H : Host) (t : Disk) (config target : Path) : Prop :=
  ∃ value base, Says H t config value ∧ parent config = some base ∧
    ∃ raw ∈ links value, t.canonicalize (extendsTarget base raw) = .ok target

/-- The nearest directory above what a pattern of a config starts with. -/
structure PatternBase (t : Disk) (base : Path) (pattern : String) (path : Path) : Prop where
  above : path <+: normal (joinText base (patternPrefix pattern))
  isDir : t.isDir path = true
  nearest : ∀ longer, longer <+: normal (joinText base (patternPrefix pattern)) →
    path <+: longer → longer ≠ path → t.isDir longer = false

theorem Says.unique {value' : Json} (h : Says H t config value) (h' : Says H t config value') :
    value = value' := by
  obtain ⟨text, htext, hvalue⟩ := h
  obtain ⟨text', htext', hvalue'⟩ := h'
  rw [htext, Except.ok.injEq] at htext'
  rw [htext', hvalue', Except.ok.injEq] at hvalue
  exact hvalue.symm

/-- The climb ends at a directory: the root is one. -/
theorem climb_ends (t : Disk) (parts : Path) :
    ∃ path, climb t parts = some path ∧ path <+: parts.reverse ∧ t.isDir path = true ∧
      ∀ longer, longer <+: parts.reverse → path <+: longer → longer ≠ path →
        t.isDir longer = false := by
  induction parts with
  | nil =>
      refine ⟨[], ?_, List.prefix_rfl, isDir_root t, ?_⟩
      · rw [climb, if_pos (isDir_root t)]
      · intro longer hlonger _ hne
        exact absurd (List.prefix_nil.mp hlonger) hne
  | cons part rest ih =>
      cases hdir : t.isDir (part :: rest).reverse with
      | true =>
          refine ⟨(part :: rest).reverse, ?_, List.prefix_rfl, hdir, ?_⟩
          · rw [climb, if_pos hdir]
          · intro longer hlonger hpath hne
            exact absurd (hlonger.eq_of_length_le hpath.length_le) hne
      | false =>
          obtain ⟨path, hclimb, habove, hisDir, hnearest⟩ := ih
          refine ⟨path, ?_, ?_, hisDir, ?_⟩
          · rw [climb, if_neg (by rw [hdir]; simp), hclimb]
          · rw [List.reverse_cons]
            exact habove.trans (List.prefix_append ..)
          · intro longer hlonger hpath hne
            rw [List.reverse_cons] at hlonger hdir
            rcases List.prefix_concat_iff.mp hlonger with rfl | hlonger
            · exact hdir
            · exact hnearest longer hlonger hpath hne

theorem watchDir_ok {watched : Path} (h : watchDir t outDir path = .ok watched) :
    watched = (t.canonicalize path).toOption.getD path := by
  unfold watchDir at h
  dsimp only at h
  split at h
  · cases h
  · split at h
    · cases h
    · cases h
      rfl

theorem watchDir_real {watched : Path} (hreal : Real t path)
    (h : watchDir t outDir path = .ok watched) : watched = path := by
  rw [watchDir_ok h, canonicalize_self hreal]
  rfl

/-- The loop of `watch_pattern_root` always finds a directory to watch. -/
theorem watchPatternRoot_ends (outDir : Path) (pattern : String) (h : parent config = some base) :
    ∃ path, PatternBase t base pattern path ∧
      watchPatternRoot H t outDir config pattern = watchDir t outDir path := by
  obtain ⟨path, hclimb, habove, hisDir, hnearest⟩ :=
    climb_ends t (normal (joinText base (patternPrefix pattern))).reverse
  rw [List.reverse_reverse] at habove hnearest
  refine ⟨path, ⟨habove, hisDir, hnearest⟩, ?_⟩
  rw [watchPatternRoot, h]
  dsimp only
  rw [hclimb]

/-- The directory watched for a pattern of a config. -/
def WatchedFor (t : Disk) (config : Path) (pattern : String) (dir : Path) : Prop :=
  ∃ base path, parent config = some base ∧ PatternBase t base pattern path ∧
    t.canonicalize path = .ok dir ∧ t.isDir dir = true

theorem watchPatternRoot_ok {pattern : String} {dir : Path}
    (h : watchPatternRoot H t outDir config pattern = .ok dir) :
    WatchedFor t config pattern dir := by
  cases hbase : parent config with
  | none => rw [watchPatternRoot, hbase] at h; cases h
  | some base =>
      obtain ⟨path, hpath, heq⟩ := watchPatternRoot_ends (H := H) (t := t) outDir pattern hbase
      rw [heq] at h
      obtain ⟨q, hq⟩ := canonicalize_of_isDir hpath.isDir
      have hdir := watchDir_ok h
      rw [hq] at hdir
      change dir = q at hdir
      subst hdir
      exact ⟨base, path, hbase, hpath, hq, isDir_of_canonicalize hq ▸ hpath.isDir⟩

theorem watchEntries_first {patterns : List Json} {dirs : List Path}
    (h : watchEntries H t outDir path true "include" patterns = .ok dirs) :
    List.Forall₂ (WatchedFor t path) (patterns.filterMap Json.asStr) dirs := by
  induction patterns generalizing dirs with
  | nil =>
      cases h
      exact .nil
  | cons pattern patterns ih =>
      rw [watchEntries] at h
      split at h
      · cases h
      · case _ raw hraw =>
        obtain ⟨own, hown, h⟩ := bind_ok h
        obtain ⟨rest, hrest, h⟩ := bind_ok h
        cases h
        rw [watchEntry, if_pos (by rfl)] at hown
        cases hroot : watchPatternRoot H t outDir path raw with
        | error e => rw [hroot] at hown; cases hown
        | ok dir =>
            rw [hroot] at hown
            cases hown
            rw [List.filterMap_cons, hraw]
            exact .cons (watchPatternRoot_ok hroot) (ih hrest)

theorem watchEntries_other {first : Bool} {key : String} (hkey : (first && key == "include") = false)
    {patterns : List Json} {dirs : List Path}
    (h : watchEntries H t outDir path first key patterns = .ok dirs) : dirs = [] := by
  induction patterns generalizing dirs with
  | nil =>
      cases h
      rfl
  | cons pattern patterns ih =>
      rw [watchEntries] at h
      split at h
      · cases h
      · obtain ⟨own, hown, h⟩ := bind_ok h
        obtain ⟨rest, hrest, h⟩ := bind_ok h
        cases h
        rw [watchEntry, hkey] at hown
        cases hown
        rw [ih hrest]
        rfl

theorem watchKey_other {first : Bool} {key : String} (hkey : (first && key == "include") = false)
    {dirs : List Path} (h : watchKey H t outDir path first value key = .ok dirs) : dirs = [] := by
  unfold watchKey at h
  split at h
  · cases h
    rfl
  · split at h
    · cases h
    · exact watchEntries_other hkey h

theorem watchKey_first {dirs : List Path}
    (h : watchKey H t outDir path true value "include" = .ok dirs) :
    List.Forall₂ (WatchedFor t path) (includePatterns value) dirs := by
  unfold watchKey at h
  unfold includePatterns
  cases hget : value.get "include" with
  | none =>
      rw [hget] at h
      cases h
      exact .nil
  | some patterns =>
      rw [hget] at h
      cases patterns with
      | array patterns => exact watchEntries_first h
      | string | object | other => cases h

theorem extendsEntries_ok {values : List Json} {raws : List String}
    (h : extendsEntries path values = .ok raws) : raws = values.filterMap Json.asStr := by
  induction values generalizing raws with
  | nil =>
      cases h
      rfl
  | cons value values ih =>
      rw [extendsEntries] at h
      split at h
      · cases h
      · case _ raw hraw =>
        obtain ⟨rest, hrest, h⟩ := bind_ok h
        cases h
        rw [List.filterMap_cons, hraw, ih hrest]

theorem extendsValues_ok {raws : List String} (h : extendsValues path value = .ok raws) :
    raws = links value := by
  unfold extendsValues at h
  unfold links
  cases hget : value.get "extends" with
  | none => rw [hget] at h; cases h; rfl
  | some v =>
      rw [hget] at h
      cases v with
      | string raw => cases h; rfl
      | array values => exact extendsEntries_ok h
      | object | other => cases h

/-- What entering a config watches, and what it extends. -/
theorem enterConfig_ok {first : Bool} {out : List Path} {raws : List String}
    (h : enterConfig H t outDir first path = .ok (out, raws)) :
    ∃ value watched dirs, Says H t path value ∧ raws = links value ∧ out = watched :: dirs ∧
      watchDir t outDir path = .ok watched ∧ (first = false → dirs = []) ∧
      (first = true → List.Forall₂ (WatchedFor t path) (includePatterns value) dirs) := by
  obtain ⟨watched, hwatched, h⟩ := bind_ok h
  obtain ⟨text, htext, h⟩ := bind_ok h
  obtain ⟨value, hvalue, h⟩ := bind_ok h
  obtain ⟨included, hincluded, h⟩ := bind_ok h
  obtain ⟨files, hfiles, h⟩ := bind_ok h
  obtain ⟨links, hlinks, h⟩ := bind_ok h
  cases h
  have hnone := watchKey_other (by simp) hfiles
  subst hnone
  refine ⟨value, watched, included, ⟨text, ?_, ?_⟩, extendsValues_ok hlinks, ?_, hwatched, ?_, ?_⟩
  · cases hread : readToString t path with
    | error e => rw [hread] at htext; cases htext
    | ok text' => rw [hread] at htext; cases htext; rfl
  · cases hparse : H.json5 text with
    | error e => rw [hparse] at hvalue; cases hvalue
    | ok value' => rw [hparse] at hvalue; cases hvalue; rfl
  · rw [List.append_nil]
  · rintro rfl
    exact watchKey_other (by simp) hincluded
  · rintro rfl
    exact watchKey_first hincluded

theorem canonicalConfig_ok (h : canonicalConfig t path = .ok config) :
    t.canonicalize path = .ok config := by
  unfold canonicalConfig at h
  cases hpath : t.canonicalize path with
  | error e => rw [hpath] at h; cases h
  | ok p => rw [hpath] at h; cases h; rfl

theorem followExtends_ok {raw : String} {target : Path}
    (h : followExtends H t config raw = .ok target) :
    ∃ base, parent config = some base ∧ t.canonicalize (extendsTarget base raw) = .ok target := by
  unfold followExtends at h
  split at h
  · cases h
  · split at h
    · cases h
    · case _ base hbase => exact ⟨base, hbase, canonicalConfig_ok h⟩

/-! ## The chain -/

theorem edge_extends {c d : Path} (h : (configSearch H t outDir).Edge c d) : Extends H t c d := by
  obtain ⟨first, out, raws, henter, raw, hraw, hfollow⟩ := h
  obtain ⟨value, watched, dirs, hsays, rfl, -⟩ := enterConfig_ok henter
  obtain ⟨base, hbase, htarget⟩ := followExtends_ok hfollow
  exact ⟨value, base, hsays, hbase, raw, hraw, htarget⟩

/-- A config whose links all lead into a set extends only what is in it. -/
theorem extends_mem {c d : Path} {first : Bool} {out : List Path} {raws : List String}
    {all : List Path} (henter : enterConfig H t outDir first c = .ok (out, raws))
    (hall : ∀ raw ∈ raws, ∃ b, followExtends H t c raw = .ok b ∧ b ∈ all) (h : Extends H t c d) :
    d ∈ all := by
  obtain ⟨value, base, hsays, hbase, raw, hraw, htarget⟩ := h
  obtain ⟨value', watched, dirs, hsays', rfl, -⟩ := enterConfig_ok henter
  rw [hsays'.unique hsays] at hall
  obtain ⟨b, hb, hmem⟩ := hall raw hraw
  obtain ⟨base', hbase', htarget'⟩ := followExtends_ok hb
  rw [hbase, Option.some.injEq] at hbase'
  rw [← hbase', htarget, Except.ok.injEq] at htarget'
  exact htarget' ▸ hmem

/-- What `watch_config` has watched, from the root config on. -/
structure Watched (H : Host) (t : Disk) (root : Path) (s : DepthFirst.State Path Path)
    (dirs others : List Path) : Prop where
  seen : s.seen = root :: others
  log : s.log = root :: dirs ++ others
  nodup : (root :: others).Nodup
  reachable : ∀ c, c ∈ root :: others ↔ Relation.ReflTransGen (Extends H t) root c
  patterns : ∃ value, Says H t root value ∧
    List.Forall₂ (WatchedFor t root) (includePatterns value) dirs

/-- A config after the first has nothing watched but itself. -/
theorem other_out {first : Bool} {root : Path} {out : List Path} {raws : List String}
    {seen : List Path} {es : List (DepthFirst.Entry Path String Path)}
    {e : DepthFirst.Entry Path String Path}
    (henter : enterConfig H t outDir first root = .ok (out, raws))
    (hes : (configSearch H t outDir).Explored root raws seen es) (he : e ∈ es) :
    e.out = [e.node] := by
  obtain ⟨value, watched, dirs, -, -, hout, hwatch, hdirs, -⟩ := enterConfig_ok (hes.entered e he)
  obtain ⟨c, hedge⟩ := hes.edge henter (List.mem_map_of_mem he)
  obtain ⟨_, base, -, -, raw, -, htarget⟩ := edge_extends hedge
  rw [hout, hdirs rfl, watchDir_real (canonicalize_real htarget) hwatch]

theorem watched_of_visit {fuel : ℕ} {root : Path} {s : DepthFirst.State Path Path}
    (hroot : Real t root)
    (h : (configSearch H t outDir).visit fuel [] root {} = some (.ok s)) :
    ∃ dirs others, Watched H t root s dirs others := by
  obtain ⟨e, es, rfl, henter, hes, rfl⟩ := DepthFirst.Search.visit_explored h
  obtain ⟨value, watched, dirs, hsays, hlinks, hout, hwatch, -, hdirs⟩ := enterConfig_ok henter
  have hself := watchDir_real hroot hwatch
  subst hself
  have hothers : es.flatMap DepthFirst.Entry.out = DepthFirst.nodes es := by
    rw [DepthFirst.nodes, List.map_eq_flatMap]
    exact List.flatMap_congr fun d hd => other_out henter hes hd
  refine ⟨dirs, DepthFirst.nodes es, rfl, ?_, ?_, ?_, ?_⟩
  · rw [hout, hothers]
  · refine List.nodup_cons.mpr ⟨?_, hes.nodup⟩
    intro hmem
    obtain ⟨d, hd, heq⟩ := List.mem_map.mp hmem
    exact hes.fresh d hd (by simp [heq])
  · intro c
    constructor
    · intro hc
      exact Relation.ReflTransGen.mono (fun _ _ => edge_extends) _ _ (hes.reaches henter hc)
    · intro hc
      induction hc with
      | refl => exact List.mem_cons_self ..
      | tail _ hedge ih =>
          rcases List.mem_cons.mp ih with rfl | hmem
          · exact extends_mem henter hes.led hedge
          · obtain ⟨d, hd, rfl⟩ := List.mem_map.mp hmem
            exact extends_mem (hes.entered d hd) (hes.closed d hd) hedge
  · exact ⟨value, hsays, hdirs rfl⟩

/-- `watch_config` ends on every file tree. Where it succeeds it has watched what the
root config reaches through `extends`, each config once, and a directory for each
include pattern of the root config; and for every pattern of a config
`watch_pattern_root` finds a directory. -/
theorem watch_config_chain (H : Host) (t : Disk) (outDir config : Path) :
    (∃ r, (∀ fuel, t.paths.length < fuel → watchConfig H t outDir fuel config {} = some r) ∧
      ∀ s, r = .ok s → ∃ root dirs others, t.canonicalize config = .ok root ∧
        Watched H t root s dirs others) ∧
      ∀ path base pattern, parent path = some base → ∃ above, PatternBase t base pattern above ∧
        watchPatternRoot H t outDir path pattern = watchDir t outDir above := by
  refine ⟨?_, fun path base pattern hbase => watchPatternRoot_ends outDir pattern hbase⟩
  cases hroot : canonicalConfig t config with
  | error e =>
      refine ⟨.error e, ?_, ?_⟩
      · intro fuel _
        rw [watchConfig, hroot]
      · intro s hs
        cases hs
  | ok root =>
      have hcanonical := canonicalConfig_ok hroot
      have hfollow : ∀ a raw b, (configSearch H t outDir).follow a raw = .ok b → b ∈ t.paths := by
        intro a raw b h
        obtain ⟨base, -, htarget⟩ := followExtends_ok h
        exact canonicalize_mem htarget
      obtain ⟨r, hr⟩ := DepthFirst.Search.visit_ends hfollow (canonicalize_mem hcanonical) []
      refine ⟨r, ?_, ?_⟩
      · intro fuel hfuel
        rw [watchConfig, hroot]
        exact hr fuel hfuel
      · rintro s rfl
        have hrun := hr (t.paths.length + 1) (Nat.lt_succ_self _)
        obtain ⟨dirs, others, hwatched⟩ := watched_of_visit (canonicalize_real hcanonical) hrun
        exact ⟨root, dirs, others, hcanonical, hwatched⟩

/-- A cycle through an alias: the link `b` leads back to the root config. -/
def cycle : Disk where
  entries :=
    [(["app"], .dir), (["app", "src"], .dir), (["app", "tsconfig.json"], .file (.ok ['r'])),
      (["app", "base.json"], .file (.ok ['b'])), (["app", "b.json"], .link false ["tsconfig.json"])]
  maxLinks := 40
  keys := by decide
  parents := by decide

def cycleHost : Host where
  json5 text :=
    if text = ['r'] then
      .ok (.object [("include", .array [.string "src/**/*.ts"]),
        ("extends", .array [.string "./base", .string "./src/../base.json"])])
    else .ok (.object [("include", .array [.string "*.ts"]), ("extends", .string "./b.json")])
  printable _ := true

example : watchConfig cycleHost cycle ["out"] 10 ["app", ".", "tsconfig.json"] {} =
    some (.ok ⟨[["app", "tsconfig.json"], ["app", "base.json"]],
      [["app", "tsconfig.json"], ["app", "src"], ["app", "base.json"]]⟩) := by decide +kernel

end Cja.Watch
