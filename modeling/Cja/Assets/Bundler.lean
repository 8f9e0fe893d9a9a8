import Cja.Assets.Imports

/-!
# Bundling an entry

Rolldown loads the entry and what its modules import. A plugin is asked where each import
leads: it refuses what is not a static import of a file of the frontend, and follows the
links of the tree before it says so. Of the files that Rolldown writes, exactly one script
and its map are taken. Rolldown is a parameter, and so is which characters `{:?}` prints as
they are; scratch directories are left out.
-/
namespace Cja.Bundler
open Cja.Assets Cja.Watch LinkTree

/-- An `import` in a module, or a call of `import()`. -/
structure Import where
  specifier : Text
  dynamic : Bool
deriving Repr, DecidableEq

/-- A file that Rolldown emits. -/
structure Output where
  filename : String
  isChunk : Bool
  bytes : FileSystem.Bytes
deriving Repr, DecidableEq

/-- What a successful run of Rolldown comes to, with the modules it loaded. -/
structure Bundled where
  modules : List Path
  warnings : List String
  assets : List Output
  watchFiles : List Path

/-- What a module imports, how Rolldown resolves a specifier, and a run of it with the
plugin's answers. -/
structure Rolldown where
  imports : Disk → Path → List Import
  resolve : Disk → Text → Path → Except String Path
  run : Disk → (Path → Import → Except String Path) → Path → Except String Bundled

/-! ## Where an import is -/

/-- The byte position of the first occurrence. -/
def find (needle : Text) : Text → Option ℕ
  | [] => if needle = [] then some 0 else none
  | c :: text =>
      if needle.isPrefixOf (c :: text) then some 0
      else (find needle text).map (· + c.utf8Size)

/-- Lines and columns count from one. -/
def locate (find : Text → Option ℕ) (lines : List Text) : Option (ℕ × ℕ) :=
  (lines.zipIdx 1).findSome? fun line => (find line.1).map fun column => (line.2, column + 1)

def quotedSpecifier (specifier line : Text) : Option ℕ :=
  ((find (['\''] ++ specifier ++ ['\'']) line).toList ++
    (find (['"'] ++ specifier ++ ['"']) line).toList).min?

def sourceLocation (t : Disk) (importer : Path) (specifier : Text) : String :=
  let place := (readToString t importer).toOption.bind fun source =>
    (locate (quotedSpecifier specifier) (Text.lines source)).or (locate (find specifier) (Text.lines source))
  match place with
  | some (line, column) =>
      Path.display importer ++ ":" ++ toString line ++ ":" ++ toString column
  | none => Path.display importer

/-! ## The plugin -/

/-- `RelativeImports::resolve_id`, of what is not the entry. -/
def resolveId (R : Rolldown) (printable : Char → Bool) (t : Disk) (frontendRoot importer : Path)
    (i : Import) : Except String Path :=
  let specifier := Tailwind.debugText printable i.specifier
  let location := sourceLocation t importer i.specifier
  if i.dynamic then
    .error ("dynamic import " ++ specifier ++ " in " ++ location ++ " is unsupported")
  else if !Tailwind.relative i.specifier then
    .error ("non-relative import " ++ specifier ++ " in " ++ location ++
      "; use a relative import")
  else if (Tailwind.pathExtension i.specifier).any fun ext => ext.toLower = "css" then
    .error ("CSS import " ++ specifier ++ " in " ++ location ++ " is unsupported")
  else
    match R.resolve t i.specifier importer with
    | .error e => .error ("unresolved import " ++ specifier ++ " in " ++ location ++ ": " ++ e)
    | .ok id =>
        if (normal id).contains "node_modules" then
          .error ("node_modules import " ++ specifier ++ " in " ++ location ++ " is forbidden")
        else
          match t.canonicalize id with
          | .error e => .error ("resolve " ++ specifier ++ " in " ++ location ++ ": " ++ e.text)
          | .ok canonical =>
              if !Watch.startsWith canonical frontendRoot then
                .error ("import " ++ specifier ++ " in " ++ location ++
                  " escapes frontend root " ++ Path.display frontendRoot)
              else .ok id

/-! ## What is taken -/

/-- A path of one component, which is a name. -/
def isPlain (filename : String) : Bool :=
  match normal (components filename) with
  | [name] => name ≠ ".." && (components filename).head? = some name
  | _ => false

/-- The script and the map, as far as they are there. -/
abbrev Taken := Option FileSystem.Bytes × Option FileSystem.Bytes

def takeOutput (taken : Taken) (file : Output) : Except String Taken :=
  if !isPlain file.filename then
    .error ("unsafe rolldown output filename: " ++ file.filename)
  else if file.filename = "entry.js" ∧ file.isChunk then
    match taken.1 with
    | none => .ok (some file.bytes, taken.2)
    | some _ => .error "duplicate JS output"
  else if file.filename = "entry.js.map" ∧ ¬ file.isChunk then
    match taken.2 with
    | none => .ok (taken.1, some file.bytes)
    | some _ => .error "duplicate map output"
  else if file.filename = "entry.js" ∨ file.filename = "entry.js.map" then
    .error ("wrong rolldown output type: " ++ file.filename)
  else
    .error ("unexpected rolldown output: " ++ file.filename ++
      "; only one self-contained chunk is supported")

def takeOutputs (taken : Taken) : List Output → Except String Taken
  | [] => .ok taken
  | file :: files => do takeOutputs (← takeOutput taken file) files

def parseOutputs (files : List Output) : Except String (FileSystem.Bytes × FileSystem.Bytes) := do
  match ← takeOutputs (none, none) files with
  | (none, _) => throw "rolldown did not emit entry.js"
  | (some _, none) => throw "rolldown did not emit entry.js.map"
  | (some js, some map) => pure (js, map)

/-- What Rolldown's diagnostics become. -/
def diagnosed (diagnostics : String) : String :=
  if (find "MISSING_NAME_OPTION_FOR_IIFE_EXPORT".toList diagnostics.toList).isSome then
    diagnostics ++
      "\nSet EntryFormat::Iife \x7b global_name: Some(..) \x7d for an exported entry"
  else diagnostics

def escapes (entry : Text) (frontend : Path) : String :=
  "entry " ++ String.ofList entry ++ " escapes frontend root " ++ Path.display frontend

/-- `bundle_entry`, with the modules that Rolldown loaded. -/
def bundleEntry (R : Rolldown) (printable : Char → Bool) (t : Disk) (entry : Text)
    (frontend : Path) : Except String (Bundle × List Path) := do
  let frontend ← (t.canonicalize frontend).mapError IoError.text
  let source ← (t.canonicalize (joinText frontend entry)).mapError fun e =>
    "entry " ++ String.ofList entry ++ ": " ++ e.text
  if !Watch.startsWith source frontend then
    throw (escapes entry frontend)
  let output ← (R.run t (resolveId R printable t frontend) source).mapError diagnosed
  if output.warnings ≠ [] then
    throw (diagnosed ("\n".intercalate output.warnings))
  let (js, map) ← parseOutputs output.assets
  pure (⟨js, map, output.watchFiles⟩, output.modules)

/-! ## Outputs -/

/-- The files that were taken. -/
def Taken.outputs (taken : Taken) : List Output :=
  (taken.1.map fun js => ⟨"entry.js", true, js⟩).toList ++
    (taken.2.map fun map => ⟨"entry.js.map", false, map⟩).toList

variable {taken taken' : Taken} {file : Output} {files : List Output}

theorem takeOutput_ok (h : takeOutput taken file = .ok taken') :
    taken'.outputs.Perm (file :: taken.outputs) := by
  obtain ⟨js, map⟩ := taken
  obtain ⟨filename, isChunk, bytes⟩ := file
  unfold takeOutput at h
  split_ifs at h with hplain hjs hmap hwrong
  · obtain ⟨rfl, rfl⟩ := hjs
    cases js with
    | none =>
        cases h
        exact List.Perm.refl _
    | some js => cases h
  · obtain ⟨rfl, hchunk⟩ := hmap
    rw [Bool.not_eq_true] at hchunk
    cases hchunk
    cases map with
    | none =>
        cases h
        cases js with
        | none => exact List.Perm.refl _
        | some js => exact List.Perm.swap ..
    | some map => cases h

/-- What is taken in the end is what was taken before and the files. -/
theorem takeOutputs_ok (h : takeOutputs taken files = .ok taken') :
    taken'.outputs.Perm (files ++ taken.outputs) := by
  induction files generalizing taken with
  | nil =>
      cases h
      exact List.Perm.refl _
  | cons file files ih =>
      simp only [takeOutputs, bind, Except.bind] at h
      cases hfile : takeOutput taken file with
      | error e =>
          rw [hfile] at h
          cases h
      | ok next =>
          rw [hfile] at h
          calc taken'.outputs.Perm (files ++ next.outputs) := ih h
            _ |>.Perm (files ++ file :: taken.outputs) := (takeOutput_ok hfile).append_left files
            _ |>.Perm (file :: files ++ taken.outputs) := List.perm_middle

theorem perm_pair {α : Type} {xs : List α} {a b : α} (h : xs.Perm [a, b]) :
    xs = [a, b] ∨ xs = [b, a] := by
  have hmem : a ∈ xs := h.mem_iff.mpr List.mem_cons_self
  obtain ⟨before, behind, rfl⟩ := List.append_of_mem hmem
  have hrest : (before ++ behind).Perm [b] :=
    (List.perm_cons a).mp (List.perm_middle.symm.trans h)
  rcases List.append_eq_singleton_iff.mp (List.perm_singleton.mp hrest) with ⟨rfl, rfl⟩ | ⟨rfl, rfl⟩
  · exact .inl rfl
  · exact .inr rfl

/-- The outputs are taken where they are one script and one map, in either order. -/
theorem parseOutputs_ok {js map : FileSystem.Bytes} : parseOutputs files = .ok (js, map) ↔
    files.Perm [⟨"entry.js", true, js⟩, ⟨"entry.js.map", false, map⟩] := by
  constructor
  · intro h
    unfold parseOutputs at h
    cases htaken : takeOutputs (none, none) files with
    | error e =>
        rw [htaken] at h
        cases h
    | ok taken =>
        rw [htaken] at h
        obtain ⟨_ | js', _ | map'⟩ := taken
        · cases h
        · cases h
        · cases h
        · cases h
          simpa [Taken.outputs] using (takeOutputs_ok htaken).symm
  · intro h
    have hplain : isPlain "entry.js" = true ∧ isPlain "entry.js.map" = true := by decide +kernel
    rcases perm_pair h with rfl | rfl
    · simp [parseOutputs, takeOutputs, takeOutput, hplain, bind, Except.bind, pure, Except.pure]
    · simp [parseOutputs, takeOutputs, takeOutput, hplain, bind, Except.bind, pure, Except.pure]

/-! ## Modules -/

section

variable {R : Rolldown} {printable : Char → Bool} {t : Disk} {root source importer id : Path}
  {i : Import}

/-- Let in by the plugin, one import after another. -/
inductive Loaded (R : Rolldown) (t : Disk) (plugin : Path → Import → Except String Path)
    (source : Path) : Path → Prop
  | entry : Loaded R t plugin source source
  | imported {importer id : Path} {i : Import} (h : Loaded R t plugin source importer)
      (hi : i ∈ R.imports t importer) (hid : plugin importer i = .ok id) :
      Loaded R t plugin source id

/-- A run loads the entry and what its modules import, as the plugin answers, and fails
where the plugin does. -/
structure Rolldown.Lawful (R : Rolldown) : Prop where
  entry : ∀ t plugin source out, R.run t plugin source = .ok out → source ∈ out.modules
  loaded : ∀ t plugin source out, R.run t plugin source = .ok out →
    ∀ m ∈ out.modules, Loaded R t plugin source m
  closed : ∀ t plugin source out, R.run t plugin source = .ok out →
    ∀ m ∈ out.modules, ∀ i ∈ R.imports t m, ∃ id ∈ out.modules, plugin m i = .ok id

/-- The file behind a path lies in the directory, whatever links lead there. -/
def Inside (t : Disk) (root path : Path) : Prop :=
  ∃ canonical, t.canonicalize path = .ok canonical ∧ root <+: canonical

/-- An import a bundle may contain, and where it leads. -/
structure Import.Allowed (R : Rolldown) (t : Disk) (root importer : Path) (i : Import)
    (id : Path) : Prop where
  static : i.dynamic = false
  relative : Tailwind.relative i.specifier = true
  noCss : ∀ ext, Tailwind.pathExtension i.specifier = some ext → ext.toLower ≠ "css"
  resolved : R.resolve t i.specifier importer = .ok id
  noPackage : "node_modules" ∉ normal id
  inside : Inside t root id

theorem inside_of_startsWith {path canonical : Path} (hroot : Real t root)
    (hpath : t.canonicalize path = .ok canonical)
    (h : Watch.startsWith canonical root = true) : Inside t root path := by
  refine ⟨canonical, hpath, ?_⟩
  rw [Watch.startsWith, Tailwind.normal_real hroot,
    Tailwind.normal_real (canonicalize_real hpath)] at h
  exact List.isPrefixOf_iff_prefix.mp h

theorem resolveId_ok (hroot : Real t root) (h : resolveId R printable t root importer i = .ok id) :
    i.Allowed R t root importer id := by
  unfold resolveId at h
  dsimp only at h
  split_ifs at h with hdynamic hrelative hcss
  cases hresolve : R.resolve t i.specifier importer with
  | error e =>
      rw [hresolve] at h
      cases h
  | ok path =>
      rw [hresolve] at h
      dsimp only at h
      split_ifs at h with hpackage
      cases hcanonical : t.canonicalize path with
      | error e =>
          rw [hcanonical] at h
          cases h
      | ok canonical =>
          rw [hcanonical] at h
          dsimp only at h
          split_ifs at h with hinside
          cases h
          exact {
            static := by simpa using hdynamic
            relative := by simpa using hrelative
            noCss := fun ext hext heq => hcss (by
              rw [hext, Option.any_some, heq]
              rfl)
            resolved := hresolve
            noPackage := by simpa using hpackage
            inside := inside_of_startsWith hroot hcanonical (by simpa using hinside) }

theorem Loaded.inside (hroot : Real t root) (hsource : Inside t root source) {m : Path}
    (h : Loaded R t (resolveId R printable t root) source m) : Inside t root m := by
  induction h with
  | entry => exact hsource
  | imported h hi hid ih => exact (resolveId_ok hroot hid).inside

end

theorem mapError_ok {α ε δ : Type} {x : Except ε α} {f : ε → δ} {a : α} :
    x.mapError f = .ok a ↔ x = .ok a := by
  cases x with
  | error e => simp [Except.mapError]
  | ok b => simp [Except.mapError]

/-- A bundle holds the entry and all that its modules import: static relative imports, none
of styles or packages, of files that lie in the frontend behind all links. Its script and
its map are all that Rolldown emitted. -/
theorem bundleEntry_confined {R : Rolldown} {printable : Char → Bool} {t : Disk} {entry : Text}
    {frontend : Path} {bundle : Bundle} {modules : List Path} (hR : R.Lawful)
    (h : bundleEntry R printable t entry frontend = .ok (bundle, modules)) :
    ∃ root source out, t.canonicalize frontend = .ok root ∧
      t.canonicalize (joinText root entry) = .ok source ∧ source ∈ modules ∧
        (∀ m ∈ modules, Inside t root m) ∧
          (∀ m ∈ modules, ∀ i ∈ R.imports t m, ∃ id ∈ modules, i.Allowed R t root m id) ∧
            R.run t (resolveId R printable t root) source = .ok out ∧ out.warnings = [] ∧
              out.assets.Perm [⟨"entry.js", true, bundle.js⟩,
                ⟨"entry.js.map", false, bundle.map⟩] := by
  unfold bundleEntry at h
  obtain ⟨root, hroot, h⟩ := While.bind_ok h
  obtain ⟨source, hsource, h⟩ := While.bind_ok h
  have hroot : t.canonicalize frontend = .ok root := mapError_ok.mp hroot
  have hsource : t.canonicalize (joinText root entry) = .ok source := mapError_ok.mp hsource
  have hreal : Real t root := canonicalize_real hroot
  cases hinside : Watch.startsWith source root with
  | false =>
      rw [hinside] at h
      cases h
  | true =>
      rw [hinside] at h
      obtain ⟨out, hout, h⟩ := While.bind_ok h
      have hout : R.run t (resolveId R printable t root) source = .ok out := mapError_ok.mp hout
      by_cases hwarnings : out.warnings = []
      · rw [hwarnings] at h
        obtain ⟨⟨js, map⟩, hparsed, h⟩ := While.bind_ok h
        cases h
        have hentry : Inside t root source :=
          inside_of_startsWith hreal (canonicalize_self (canonicalize_real hsource)) hinside
        refine ⟨root, source, out, hroot, hsource, hR.entry _ _ _ _ hout, ?_, ?_, hout, hwarnings,
          parseOutputs_ok.mp hparsed⟩
        · exact fun m hm => (hR.loaded _ _ _ _ hout m hm).inside hreal hentry
        · intro m hm i hi
          obtain ⟨id, hid, hanswer⟩ := hR.closed _ _ _ _ hout m hm i hi
          exact ⟨id, hid, resolveId_ok hreal hanswer⟩
      · rw [if_pos hwarnings] at h
        cases h

/-! ## An entry with one import -/

/-- `main.ts` imports `util.ts`, a link to a file in a directory beside it. -/
def sampleTree : Disk where
  entries := [(["app"], .dir), (["app", "main.ts"], .file (.ok "import './util.ts';".toList)),
    (["app", "lib"], .dir), (["app", "lib", "util.ts"], .file (.ok [])),
    (["app", "util.ts"], .link false ["lib", "util.ts"])]
  maxLinks := 40
  keys := by decide
  parents := by decide

def sampleOutput (modules : List Path) : Bundled :=
  ⟨modules, [], [⟨"entry.js.map", false, [2]⟩, ⟨"entry.js", true, [1]⟩], modules⟩

/-- Rolldown on entries with one import at most, of a module without any. -/
def Rolldown.sample : Rolldown where
  imports _ m := if m = ["app", "main.ts"] then [⟨"./util.ts".toList, false⟩] else []
  resolve _ specifier importer :=
    .ok (importer.dropLast ++ normal (components (String.ofList specifier)))
  run _ plugin source :=
    if source = ["app", "main.ts"] then
      match plugin source ⟨"./util.ts".toList, false⟩ with
      | .ok id =>
          if id = ["app", "main.ts"] then .error "a module that imports itself"
          else .ok (sampleOutput [source, id])
      | .error e => .error e
    else .ok (sampleOutput [source])

theorem Rolldown.sample_run {t : Disk} {plugin : Path → Import → Except String Path}
    {source : Path} {out : Bundled} (h : sample.run t plugin source = .ok out) :
    (source ≠ ["app", "main.ts"] ∧ out.modules = [source]) ∨
      ∃ id, source = ["app", "main.ts"] ∧ id ≠ ["app", "main.ts"] ∧ out.modules = [source, id] ∧
        plugin source ⟨"./util.ts".toList, false⟩ = .ok id := by
  simp only [sample] at h
  split_ifs at h with hmain
  · cases hid : plugin source ⟨"./util.ts".toList, false⟩ with
    | error e =>
        rw [hid] at h
        cases h
    | ok id =>
        rw [hid] at h
        dsimp only at h
        split_ifs at h with hself
        cases h
        exact .inr ⟨id, hmain, hself, rfl, rfl⟩
  · cases h
    exact .inl ⟨hmain, rfl⟩

theorem Rolldown.sample_lawful : Rolldown.sample.Lawful where
  entry t plugin source out h := by
    rcases sample_run h with ⟨-, hout⟩ | ⟨id, -, -, hout, -⟩ <;> simp [hout]
  loaded t plugin source out h m hm := by
    rcases sample_run h with ⟨-, hout⟩ | ⟨id, rfl, -, hout, hid⟩
    · rw [hout, List.mem_singleton] at hm
      exact hm ▸ .entry
    · rw [hout, List.mem_cons, List.mem_singleton] at hm
      rcases hm with rfl | rfl
      · exact .entry
      · exact .imported .entry (List.mem_singleton.mpr rfl) hid
  closed t plugin source out h m hm i hi := by
    simp only [sample] at hi
    split_ifs at hi with hmain
    · rw [List.mem_singleton] at hi
      subst hi hmain
      rcases sample_run h with ⟨hsource, hout⟩ | ⟨id, rfl, hself, hout, hid⟩
      · rw [hout, List.mem_singleton] at hm
        exact absurd hm.symm hsource
      · exact ⟨id, by simp [hout], hid⟩
    · cases hi

theorem bundleEntry_confined_linked : ∃ bundle modules,
    bundleEntry Rolldown.sample (fun _ => true) sampleTree "main.ts".toList ["app"] =
      .ok (bundle, modules) ∧ ["app", "util.ts"] ∈ modules ∧
        ∃ root, ∀ m ∈ modules, Inside sampleTree root m := by
  have hbundled : (bundleEntry Rolldown.sample (fun _ => true) sampleTree "main.ts".toList
      ["app"]).toOption.any (fun r => r.2.contains ["app", "util.ts"]) = true := by
    decide +kernel
  cases h : bundleEntry Rolldown.sample (fun _ => true) sampleTree "main.ts".toList ["app"] with
  | error e =>
      rw [h] at hbundled
      cases hbundled
  | ok r =>
      rw [h] at hbundled
      obtain ⟨bundle, modules⟩ := r
      obtain ⟨root, -, -, -, -, -, hinside, -⟩ := bundleEntry_confined Rolldown.sample_lawful h
      exact ⟨bundle, modules, rfl, List.contains_iff_mem.mp hbundled, root, hinside⟩

end Cja.Bundler
