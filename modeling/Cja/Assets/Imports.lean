import Cja.Assets.Totality
import Cja.Assets.Watch
import Cja.Lib.Text

/-!
# The import graph of a Tailwind input

`validate_css` visits the input and the files that it imports, over a file tree with
symbolic links. A path is normalized lexically, each beginning of it is checked for
a link, and what it canonicalizes to must lie in the manifest directory. A file that
is met again, by a cycle, a second import or another spelling, stops the visit.

The watch list is the one `validate_css_with_watches` returns; what is printed for
Cargo is left out. Reading a directory of the tree does not fail.
-/
namespace Cja.Tailwind
open Cja.Assets Cja.Watch LinkTree

def liftBuild {α : Type} (r : Except BuildError α) : Scan α := r.mapError .error

/-! ## `confined` -/

/-- The components of a path, lexically, each beginning checked for a link. -/
def checkLinks (t : Disk) (path root : Path) : Path → Path → Scan Path
  | current, [] => .ok current
  | current, part :: rest =>
      if part = ".." then checkLinks t path root current.dropLast rest
      else if t.isSymlink (current ++ [part]) then
        fail ("symlink in CSS path " ++ Path.display path ++ " (manifest directory limit " ++
          Path.display root ++ ")")
      else checkLinks t path root (current ++ [part]) rest

/-- The canonical path of a file or a directory under `root`, which is canonical. -/
def confined (t : Disk) (path root : Path) (directory : Bool) : Scan Path := do
  let current ← checkLinks t path root [] (normal path)
  match t.canonicalize current with
  | .error e =>
      fail ("CSS path " ++ Path.display path ++ ": " ++ e.text ++ " (manifest directory limit " ++
        Path.display root ++ ")")
  | .ok canonical =>
      if !Watch.startsWith canonical root then
        fail ("CSS path " ++ Path.display path ++ " escapes manifest directory limit " ++
          Path.display root)
      else if (canonical.drop root.length).contains "target" then
        fail ("refusing Tailwind path inside target/ (reserved for Cargo output): " ++
          Path.display canonical)
      else if (directory && !t.isDir canonical) || (!directory && !t.isFile canonical) then
        fail ("CSS path " ++ Path.display canonical ++ " must be a " ++
          (if directory then "directory" else "regular file") ++ " under manifest directory " ++
          Path.display root)
      else pure canonical

/-! ## `reject_source_symlinks` -/

abbrev DiskEntry := Path × Node (Except String (List Char))

/-- A link that leads nowhere. -/
def isMissing (t : Disk) (path : Path) : Bool :=
  match t.canonicalize path with
  | .error .notFound => true
  | .error _ | .ok _ => false

/-- The entries of a directory; its own directories are put on the stack. -/
def sourceEntries (t : Disk) : List DiskEntry → List Path → Scan (List Path)
  | [], pending => .ok pending
  | (path, kind) :: entries, pending =>
      if kind.isLink then
        if isMissing t path then sourceEntries t entries pending
        else fail ("symlink in Tailwind @source directory: " ++ Path.display path)
      else if kind.isDirectory then sourceEntries t entries (path :: pending)
      else sourceEntries t entries pending

/-- Below a source directory that is in no `node_modules`, one is passed over. -/
def skipsDirectory (root dir : Path) : Bool :=
  !root.contains "node_modules" && dir ≠ root && dir.getLast? == some "node_modules"

def sourceStep (t : Disk) (root : Path) : List Path → Scan (List Path)
  | [] => .ok []
  | dir :: pending =>
      if skipsDirectory root dir then .ok pending
      else sourceEntries t (t.children dir) pending

theorem sourceEntries_ok {t : Disk} {entries : List DiskEntry} {pending pending' : List Path}
    (h : sourceEntries t entries pending = .ok pending') :
    ∃ subs, pending' = subs ++ pending ∧ subs.length ≤ entries.length ∧
      ∀ p ∈ subs, ∃ e ∈ entries, e.1 = p := by
  induction entries generalizing pending with
  | nil =>
      cases h
      exact ⟨[], rfl, le_rfl, by simp⟩
  | cons entry entries ih =>
      obtain ⟨path, kind⟩ := entry
      rw [sourceEntries] at h
      have hskip : ∀ {pending}, sourceEntries t entries pending = .ok pending' →
          ∃ subs, pending' = subs ++ pending ∧ subs.length ≤ ((path, kind) :: entries).length ∧
            ∀ p ∈ subs, ∃ e ∈ (path, kind) :: entries, e.1 = p := by
        intro pending h
        obtain ⟨subs, heq, hlength, hsubs⟩ := ih h
        refine ⟨subs, heq, ?_, ?_⟩
        · rw [List.length_cons]
          omega
        · intro p hp
          obtain ⟨e, he, hep⟩ := hsubs p hp
          exact ⟨e, List.mem_cons_of_mem _ he, hep⟩
      split at h
      · split at h
        · exact hskip h
        · cases h
      · split at h
        · obtain ⟨subs, heq, hlength, hsubs⟩ := ih h
          refine ⟨subs ++ [path], ?_, ?_, ?_⟩
          · rw [heq, List.append_assoc]
            rfl
          · rw [List.length_append, List.length_cons]
            exact Nat.succ_le_succ hlength
          · intro p hp
            rcases List.mem_append.mp hp with hp | hp
            · obtain ⟨e, he, hep⟩ := hsubs p hp
              exact ⟨e, List.mem_cons_of_mem _ he, hep⟩
            · exact ⟨(path, kind), List.mem_cons_self .., (List.mem_singleton.mp hp).symm⟩
        · exact hskip h

theorem sourceStep_lowers {t : Disk} {root dir : Path} {pending pending' : List Path}
    (h : sourceStep t root (dir :: pending) = .ok pending') :
    t.load pending' < t.load (dir :: pending) := by
  rw [sourceStep] at h
  split at h
  · cases h
    exact @load_lt _ t dir [] pending (Nat.zero_le _) (by simp)
  · obtain ⟨subs, rfl, hlength, hsubs⟩ := sourceEntries_ok h
    refine load_lt (hlength.trans (List.length_filter_le ..)) ?_
    intro p hp
    obtain ⟨e, he, rfl⟩ := hsubs p hp
    exact children_spec he

/-- `while let Some(dir) = pending.pop()` -/
def symlinkLoop (t : Disk) (root : Path) : While.Loop (List Path) Stop where
  cond pending := .ok (!pending.isEmpty)
  body := sourceStep t root
  measure := t.load
  lowers pending pending' hc hb := by
    cases pending with
    | nil => cases hc
    | cons dir pending => exact sourceStep_lowers hb

def rejectSourceSymlinks (t : Disk) (root : Path) : Scan Unit := do
  let _ ← (symlinkLoop t root).run [root]
  pure ()

/-! ## Ignore files -/

def ignoreNames : List Path := [[".gitignore"], [".ignore"], [".git", "info", "exclude"]]

def gitdirLine (text : List Char) : Option (List Char) :=
  (Text.lines text).findSome? fun line => Text.stripPrefix "gitdir: ".toList line

/-- Where the git directory keeps what its worktrees share; `none` if that is missing. -/
def commonDir (t : Disk) (gitdir : Path) : Scan (Option Path) :=
  let common := gitdir ++ ["commondir"]
  if t.isFile common then
    match readToString t common with
    | .error e => fail ("read " ++ Path.display common ++ ": " ++ e)
    | .ok relative =>
        match t.canonicalize (joinText gitdir (Text.trim relative)) with
        | .ok path => .ok (some path)
        | .error .notFound => .ok none
        | .error e => fail ("resolve " ++ Path.display common ++ ": " ++ e.text)
  else .ok (some gitdir)

def existingExclude (t : Disk) : Option Path → List Path
  | none => []
  | some base =>
      if t.isFile (base ++ ["info", "exclude"]) then [base ++ ["info", "exclude"]] else []

/-- The exclude file behind a `.git` file. -/
def gitFileExclude (t : Disk) (ancestor : Path) : Scan (List Path) :=
  let dotGit := ancestor ++ [".git"]
  match readToString t dotGit with
  | .error e => fail ("read " ++ Path.display dotGit ++ ": " ++ e)
  | .ok content =>
      match gitdirLine content with
      | none => fail ("missing gitdir: line in " ++ Path.display dotGit)
      | some gitdir =>
          match t.canonicalize (joinText ancestor gitdir) with
          | .error .notFound => .ok []
          | .error e => fail ("resolve gitdir in " ++ Path.display dotGit ++ ": " ++ e.text)
          | .ok gitdir => do
              let base ← commonDir t gitdir
              pure (existingExclude t base)

def plainIgnoreFiles (t : Disk) (ancestor : Path) : List Path :=
  (ignoreNames.map fun name => ancestor ++ name).filter fun path => t.isFile path

def ancestorExclude (t : Disk) (ancestor : Path) : Scan (List Path) :=
  if t.isFile (ancestor ++ [".git"]) then gitFileExclude t ancestor else .ok []

/-- `existing_ignore_files`, over the ancestors of a directory. -/
def existingIgnoreFiles (t : Disk) : List Path → Scan (List Path)
  | [] => .ok []
  | ancestor :: ancestors => do
      let exclude ← ancestorExclude t ancestor
      let files ← existingIgnoreFiles t ancestors
      pure (plainIgnoreFiles t ancestor ++ exclude ++ files)

/-- `Path::ancestors`, from the path itself to the root. -/
def ancestors (path : Path) : List Path := path.inits.reverse

def watchAll (t : Disk) (outDir : Path) : List Path → Scan Unit
  | [] => .ok ()
  | path :: paths => do
      let _ ← liftBuild (watchDir t outDir path)
      watchAll t outDir paths

def watchIgnoreFiles (t : Disk) (outDir root : Path) : Scan (List Path) := do
  let files ← existingIgnoreFiles t (ancestors root)
  watchAll t outDir files
  pure files

/-! ## `visit` -/

def noParentOf (file : Path) : String := "CSS file " ++ Path.display file ++ " has no parent"

/-- The source directories of the root, `seen` those before; what is watched for them. -/
def declareSources (t : Disk) (outDir root base : Path) :
    List String → List Path → Scan (List Path)
  | [], _ => .ok []
  | source :: sources, seen => do
      let directory ← confined t (joinText base source.toList) root true
      if seen.contains directory then
        fail ("duplicate @source directory " ++ Path.display directory)
      else
        let _ ← liftBuild (watchDir t outDir directory)
        rejectSourceSymlinks t directory
        let ignores ← watchIgnoreFiles t outDir directory
        let rest ← declareSources t outDir root base sources (directory :: seen)
        pure (directory :: ignores ++ rest)

/-- What a file declares; only the root file may declare sources, and must. -/
def declared (t : Disk) (outDir root : Path) (isRoot : Bool) (file base : Path)
    (rules : Directives) : Scan (List Path) :=
  if isRoot then
    if rules.tailwindImports ≠ 1 || rules.sources.isEmpty then
      fail (Path.display file ++
        " requires exactly one @import \"tailwindcss\" source(none); and at least one @source directory")
    else declareSources t outDir root base rules.sources []
  else if rules.tailwindImports ≠ 0 || !rules.sources.isEmpty then
    fail ("imported CSS " ++ Path.display file ++ " cannot declare @source or import tailwindcss")
  else .ok []

/-- A file that is new: the watches it adds, and its imports. -/
def enterFile (printable : Char → Bool) (t : Disk) (outDir root : Path) (isRoot : Bool)
    (file : Path) : Scan (List Path × List String) := do
  let _ ← liftBuild (watchDir t outDir file)
  match readToString t file with
  | .error e => fail ("read CSS " ++ Path.display file ++ ": " ++ e)
  | .ok css => do
      let rules ← directives printable css file
      match parent file with
      | none => fail (noParentOf file)
      | some base => do
          let watches ← declared t outDir root isRoot file base rules
          pure (file :: watches, rules.imports)

def importedFile (t : Disk) (root file : Path) (path : String) : Scan Path :=
  match parent file with
  | none => fail (noParentOf file)
  | some base => confined t (joinText base path.toList) root false

def cycleError (chain : List Path) (file : Path) : Stop :=
  .error (error ("CSS import cycle or duplicate: " ++
    " -> ".intercalate (chain.map Path.display) ++ " -> " ++ Path.display file))

/-- `visit`: the first file is the root. -/
def cssSearch (printable : Char → Bool) (t : Disk) (outDir root : Path) :
    DepthFirst.Search Path String Path Stop where
  again chain file := some (cycleError chain file)
  enter := enterFile printable t outDir root
  follow := importedFile t root

/-! ## `validate_css` -/

def configNames : List String :=
  ["tailwind.config.js", "tailwind.config.ts", "tailwind.config.cjs", "tailwind.config.mjs"]

/-- `Path::strip_prefix` -/
def stripPrefix (path base : Path) : Option Path :=
  if Watch.startsWith path base then some ((normal path).drop (normal base).length) else none

/-- The canonical manifest directory and input. -/
def locateInput (t : Disk) (input manifestDir : Path) : Scan (Path × Path) :=
  match t.canonicalize manifestDir with
  | .error e => fail ("manifest directory " ++ Path.display manifestDir ++ ": " ++ e.text)
  | .ok root =>
      match stripPrefix input manifestDir with
      | none =>
          fail ("CSS input " ++ Path.display input ++ " is outside manifest directory limit " ++
            Path.display manifestDir)
      | some relative => do
          let input ← confined t (root ++ relative) root false
          match parent input with
          | none => fail ("CSS input " ++ Path.display input ++ " has no parent")
          | some base =>
              match configNames.find? fun name => (t.metadata (base ++ [name])).isSome with
              | some name =>
                  fail (Path.display (base ++ [name]) ++
                    " is unsupported: Tailwind v4 uses CSS-first configuration")
              | none => pure (root, input)

/-- `validate_css_with_watches`; `validate_css` returns the input alone. -/
def validateCss (printable : Char → Bool) (t : Disk) (outDir : Path) (fuel : ℕ)
    (input manifestDir : Path) : Option (Scan (Path × List Path)) :=
  match locateInput t input manifestDir with
  | .error e => some (.error e)
  | .ok (root, input) =>
      ((cssSearch printable t outDir root).visit fuel [] input {}).map fun r =>
        r.map fun s => (input, s.log)

/-! ## Paths -/

variable {t : Disk} {path root outDir current c base : Path} {directory : Bool}

def lexStep (current : Path) (part : String) : Path :=
  if part = ".." then current.dropLast else current ++ [part]

/-- A path with its `..` taken away lexically. -/
def lexical (path : Path) : Path := (normal path).foldl lexStep []

theorem mem_normal {part : String} (h : part ∈ normal path) : part ≠ "" ∧ part ≠ "." := by
  have hpart := (List.mem_filter.mp h).2
  simpa using hpart

theorem normal_append (p q : Path) : normal (p ++ q) = normal p ++ normal q := List.filter_append ..

theorem normal_real (h : Real t path) : normal path = path := by
  refine List.filter_eq_self.mpr fun part hpart => ?_
  obtain ⟨q, rest, heq⟩ := List.append_of_mem hpart
  obtain ⟨-, ⟨hempty, hdot, -⟩, -⟩ := h q part rest heq
  simp [hempty, hdot]

/-- The last name of a path stays the last. -/
theorem lexical_last {name : String} (h : (normal path).getLast? = some name)
    (hname : name ≠ "..") : (lexical path).getLast? = some name := by
  rw [lexical, ← List.dropLast_append_getLast? name h, List.foldl_append, List.foldl_cons,
    List.foldl_nil, lexStep, if_neg hname, List.getLast?_concat]

theorem extensionOf_some {ext : String} (h : extensionOf path = some ext) :
    ∃ name, (normal path).getLast? = some name ∧ name ≠ ".." ∧ extension name = some ext := by
  unfold extensionOf at h
  split at h
  · case _ name hname =>
    split at h
    · cases h
    · case _ hdots => exact ⟨name, hname, hdots, h⟩
  · cases h

theorem extensionOf_last {name : String} (h : (normal path).getLast? = some name)
    (hname : name ≠ "..") : extensionOf path = extension name := by
  unfold extensionOf
  rw [h]
  exact if_neg hname

theorem checkLinks_ok {parts : Path} (hparts : ∀ part ∈ parts, part ≠ "" ∧ part ≠ ".")
    (hcurrent : Unlinked t current) (h : checkLinks t path root current parts = .ok c) :
    c = parts.foldl lexStep current ∧ Unlinked t c := by
  induction parts generalizing current with
  | nil =>
      cases h
      exact ⟨rfl, hcurrent⟩
  | cons part rest ih =>
      have hrest : ∀ part ∈ rest, part ≠ "" ∧ part ≠ "." :=
        fun p hp => hparts p (List.mem_cons_of_mem part hp)
      obtain ⟨hempty, hdot⟩ := hparts part (List.mem_cons_self ..)
      rw [checkLinks] at h
      rw [List.foldl_cons]
      split at h
      · case _ hdots =>
        rw [lexStep, if_pos hdots]
        exact ih hrest hcurrent.dropLast h
      · case _ hdots =>
        split at h
        · cases h
        · case _ hlink =>
          rw [lexStep, if_neg hdots]
          rw [Bool.not_eq_true] at hlink
          exact ih hrest (hcurrent.snoc ⟨⟨hempty, hdot, hdots⟩, hlink⟩) h

/-- What `confined` promises of a path. -/
structure Confined (t : Disk) (root : Path) (directory : Bool) (c : Path) : Prop where
  real : Real t c
  under : root <+: c
  target : "target" ∉ c.drop root.length
  kind : (if directory then t.isDir c else t.isFile c) = true

/-- A path leads to the place that it spells: there is no link on it. -/
structure LeadsTo (t : Disk) (path c : Path) : Prop where
  spelled : c = lexical path
  canonical : t.canonicalize (lexical path) = .ok c

theorem confined_ok (hroot : Real t root) (h : confined t path root directory = .ok c) :
    LeadsTo t path c ∧ Confined t root directory c := by
  obtain ⟨current, hcurrent, h⟩ := bind_ok h
  obtain ⟨rfl, hlinks⟩ := checkLinks_ok (fun _ hp => mem_normal hp) (along_root _) hcurrent
  cases hcanonical : t.canonicalize ((normal path).foldl lexStep []) with
  | error e => rw [hcanonical] at h; cases h
  | ok canonical =>
      rw [hcanonical] at h
      have hreal := canonicalize_real hcanonical
      have hself := canonicalize_unlinked hlinks hcanonical
      dsimp only at h
      split at h
      · cases h
      · case _ hunder =>
        split at h
        · cases h
        · case _ htarget =>
          split at h
          · cases h
          · case _ hkind =>
            cases h
            rw [Bool.not_eq_true', Bool.not_eq_false, Watch.startsWith, normal_real hroot,
              normal_real hreal] at hunder
            refine ⟨⟨hself, hcanonical⟩, hreal, List.isPrefixOf_iff_prefix.mp hunder, ?_, ?_⟩
            · simpa using htarget
            · cases directory
              · simpa using hkind
              · simpa using hkind

/-! ## What is watched -/

theorem extensionOf_name (p : Path) {name : String} (h : IsName name) :
    extensionOf (p ++ [name]) = extension name := by
  refine extensionOf_last ?_ h.2.2
  rw [normal_append, show normal [name] = [name] by simp [normal, h.1, h.2.1],
    List.getLast?_concat]

/-- A file, and not one of CSS. -/
structure IgnoreFile (t : Disk) (path : Path) : Prop where
  file : t.isFile path = true
  other : extensionOf path ≠ some "css"

theorem existingExclude_ignores {base : Option Path} (h : path ∈ existingExclude t base) :
    IgnoreFile t path := by
  unfold existingExclude at h
  split at h
  · cases h
  · case _ base =>
    split at h
    · case _ hfile =>
      rw [List.mem_singleton] at h
      subst h
      refine ⟨hfile, ?_⟩
      rw [show base ++ ["info", "exclude"] = (base ++ ["info"]) ++ ["exclude"] by simp,
        extensionOf_name _ (by decide)]
      decide
    · cases h

theorem ancestorExclude_ignores {ancestor : Path} {files : List Path}
    (h : ancestorExclude t ancestor = .ok files) : ∀ path ∈ files, IgnoreFile t path := by
  unfold ancestorExclude gitFileExclude at h
  dsimp only at h
  split at h
  · split at h
    · cases h
    · split at h
      · cases h
      · split at h
        · cases h
          simp
        · cases h
        · obtain ⟨base, -, h⟩ := bind_ok h
          cases h
          exact fun path hpath => existingExclude_ignores hpath
  · cases h
    simp

theorem plainIgnoreFiles_ignores {ancestor : Path} (h : path ∈ plainIgnoreFiles t ancestor) :
    IgnoreFile t path := by
  obtain ⟨hmem, hfile⟩ := List.mem_filter.mp h
  obtain ⟨name, hname, rfl⟩ := List.mem_map.mp hmem
  refine ⟨hfile, ?_⟩
  simp only [ignoreNames, List.mem_cons, List.not_mem_nil, or_false] at hname
  rcases hname with rfl | rfl | rfl
  · rw [extensionOf_name _ (by decide)]
    decide
  · rw [extensionOf_name _ (by decide)]
    decide
  · rw [show ancestor ++ [".git", "info", "exclude"] =
      (ancestor ++ [".git", "info"]) ++ ["exclude"] by simp, extensionOf_name _ (by decide)]
    decide

theorem existingIgnoreFiles_ignores {above files : List Path}
    (h : existingIgnoreFiles t above = .ok files) : ∀ path ∈ files, IgnoreFile t path := by
  induction above generalizing files with
  | nil =>
      cases h
      simp
  | cons ancestor above ih =>
      obtain ⟨exclude, hexclude, h⟩ := bind_ok h
      obtain ⟨rest, hrest, h⟩ := bind_ok h
      cases h
      intro path hpath
      rcases List.mem_append.mp hpath with hpath | hpath
      · rcases List.mem_append.mp hpath with hpath | hpath
        · exact plainIgnoreFiles_ignores hpath
        · exact ancestorExclude_ignores hexclude path hpath
      · exact ih hrest path hpath

theorem watchIgnoreFiles_ignores {files : List Path}
    (h : watchIgnoreFiles t outDir root = .ok files) : ∀ path ∈ files, IgnoreFile t path := by
  obtain ⟨existing, hexisting, h⟩ := bind_ok h
  obtain ⟨u, -, h⟩ := bind_ok h
  cases h
  exact existingIgnoreFiles_ignores hexisting

/-- A text in a file of `base` names a path. -/
def NamedAt (t : Disk) (base : Path) (text : String) (path : Path) : Prop :=
  LeadsTo t (joinText base text.toList) path

/-- The watches of the source directories: each once, and ignore files. -/
theorem declareSources_ok {sources : List String} {seen watches : List Path} (hroot : Real t root)
    (h : declareSources t outDir root base sources seen = .ok watches) :
    ∃ dirs ignores, List.Forall₂ (NamedAt t base) sources dirs ∧ dirs.Nodup ∧
      (∀ d ∈ dirs, d ∉ seen ∧ Confined t root true d) ∧ watches.Perm (dirs ++ ignores) ∧
      ∀ path ∈ ignores, IgnoreFile t path := by
  induction sources generalizing seen watches with
  | nil =>
      cases h
      exact ⟨[], [], .nil, List.nodup_nil, by simp, .refl [], by simp⟩
  | cons source sources ih =>
      obtain ⟨dir, hdir, h⟩ := bind_ok h
      obtain ⟨hleads, hconfined⟩ := confined_ok hroot hdir
      split at h
      · cases h
      · case _ hseen =>
        obtain ⟨watched, -, h⟩ := bind_ok h
        obtain ⟨u, -, h⟩ := bind_ok h
        obtain ⟨own, hown, h⟩ := bind_ok h
        obtain ⟨rest, hrest, h⟩ := bind_ok h
        cases h
        obtain ⟨dirs, ignores, hat, hnodup, hdirs, hperm, hignores⟩ := ih hrest
        refine ⟨dir :: dirs, own ++ ignores, .cons hleads hat, ?_, ?_, ?_, ?_⟩
        · refine List.nodup_cons.mpr ⟨fun hmem => ?_, hnodup⟩
          exact (hdirs dir hmem).1 (List.mem_cons_self ..)
        · intro d hd
          rcases List.mem_cons.mp hd with rfl | hd
          · exact ⟨by simpa using hseen, hconfined⟩
          · exact ⟨fun hmem => (hdirs d hd).1 (List.mem_cons_of_mem _ hmem), (hdirs d hd).2⟩
        · rw [List.cons_append, List.cons_append]
          refine .cons dir ?_
          calc (own ++ rest).Perm (own ++ (dirs ++ ignores)) := hperm.append_left own
            _ |>.Perm (dirs ++ (own ++ ignores)) := by
                rw [← List.append_assoc, ← List.append_assoc]
                exact List.perm_append_comm.append_right ignores
        · intro path hpath
          rcases List.mem_append.mp hpath with hpath | hpath
          · exact watchIgnoreFiles_ignores hown path hpath
          · exact hignores path hpath

/-! ## What a file says -/

variable {printable : Char → Bool} {file : Path}

def rulesOf (printable : Char → Bool) (t : Disk) (file : Path) : Option Directives :=
  match readToString t file with
  | .ok css => (directives printable css file).toOption
  | .error _ => none

/-- Where the imports of a file lead. -/
def importTargets (printable : Char → Bool) (t : Disk) (file : Path) : List Path :=
  match rulesOf printable t file, parent file with
  | some rules, some base =>
      rules.imports.filterMap fun path =>
        (t.canonicalize (lexical (joinText base path.toList))).toOption
  | _, _ => []

theorem enterFile_ok {isRoot : Bool} {out : List Path} {imports : List String}
    (h : enterFile printable t outDir root isRoot file = .ok (out, imports)) :
    ∃ css rules base watches, readToString t file = .ok css ∧
      directives printable css file = .ok rules ∧ parent file = some base ∧
      imports = rules.imports ∧ out = file :: watches ∧
      declared t outDir root isRoot file base rules = .ok watches := by
  obtain ⟨watched, -, h⟩ := bind_ok h
  split at h
  · cases h
  · case _ css hread =>
    obtain ⟨rules, hrules, h⟩ := bind_ok h
    split at h
    · cases h
    · case _ base hbase =>
      obtain ⟨watches, hwatches, h⟩ := bind_ok h
      cases h
      exact ⟨css, rules, base, watches, hread, hrules, hbase, rfl, rfl, hwatches⟩

theorem rulesOf_some {css : List Char} {rules : Directives} (hread : readToString t file = .ok css)
    (hrules : directives printable css file = .ok rules) :
    rulesOf printable t file = some rules := by
  rw [rulesOf, hread]
  dsimp only
  rw [hrules]
  rfl

/-- A rule that is read adds an import of a CSS file, or none. -/
theorem record_imports {s : Scanner} {name : String} {stop cursor : ℕ} {argument css : Text}
    {result : Directives} (h : record printable css file s name stop cursor argument = .ok result)
    (hs : ∀ path ∈ s.result.imports, relativeCss path.toList = true) :
    ∀ path ∈ result.imports, relativeCss path.toList = true := by
  unfold record at h
  split at h
  · unfold recordImport at h
    split at h
    · split at h
      · cases h
      · cases h
        exact hs
    · obtain ⟨u, -, h⟩ := bind_ok h
      obtain ⟨v, -, h⟩ := bind_ok h
      replace h := bind_ok h
      obtain ⟨quoted, -, h⟩ := h
      split at h
      · cases h
      · case _ text =>
        split at h
        · case _ hcss =>
          cases h
          intro path hpath
          rcases List.mem_append.mp hpath with hpath | hpath
          · exact hs path hpath
          · rw [List.mem_singleton] at hpath
            rw [hpath, String.toList_ofList]
            exact hcss
        · cases h
  · unfold recordSource at h
    obtain ⟨u, -, h⟩ := bind_ok h
    split at h
    · cases h
    · replace h := bind_ok h
      obtain ⟨path, -, h⟩ := h
      cases h
      exact hs

/-- The imports that the scanner records are paths of CSS files. -/
theorem directives_imports {css : Text} {rules : Directives}
    (h : directives printable css file = .ok rules) :
    ∀ path ∈ rules.imports, relativeCss path.toList = true := by
  obtain ⟨s, hrun, hfinish⟩ := bind_ok h
  have hscan : ∀ path ∈ s.result.imports, relativeCss path.toList = true := by
    refine ((scanLoop printable css file).run_keeps
      (I := fun s => ∀ path ∈ s.result.imports, relativeCss path.toList = true) ?_ ?_ hrun).1
    · intro s s' hs _ hb
      cases step_passed hb with
      | graph hv hc hrecorded =>
          rw [hrecorded.next]
          exact record_imports hrecorded.recorded hs
      | _ => exact hs
    · intro path hpath
      cases hpath
  unfold finish at hfinish
  split at hfinish
  · cases hfinish
  · split at hfinish
    · cases hfinish
    · split at hfinish
      · obtain ⟨place, -, hfinish⟩ := bind_ok hfinish
        cases hfinish
      · cases hfinish
        exact hscan

/-! ## CSS files -/

theorem extensionOf_append (p : Path) {q : Path} {ext : String} (h : extensionOf q = some ext) :
    extensionOf (p ++ q) = some ext := by
  obtain ⟨name, hlast, hname, hext⟩ := extensionOf_some h
  rw [extensionOf_last _ hname, hext]
  rw [normal_append, List.getLast?_append, hlast]
  rfl

theorem extensionOf_lexical {ext : String} (h : extensionOf path = some ext)
    (hreal : Real t (lexical path)) : extensionOf (lexical path) = some ext := by
  obtain ⟨name, hlast, hname, hext⟩ := extensionOf_some h
  rw [extensionOf_last _ hname, hext]
  rw [normal_real hreal]
  exact lexical_last hlast hname

theorem extensionOf_import {text : Text} (base : Path) (h : relativeCss text = true) :
    extensionOf (joinText base text) = some "css" := by
  rw [relativeCss, Bool.and_eq_true, beq_iff_eq] at h
  obtain ⟨hrelative, hext⟩ := h
  have hjoin : joinText base text = base ++ components (String.ofList text) := by
    cases text with
    | nil => rfl
    | cons ch text =>
        have hdot : ch = '.' := by
          simp only [relative, Bool.or_eq_true, List.isPrefixOf_iff_prefix] at hrelative
          rcases hrelative with h | h
          · exact (List.cons_prefix_cons.mp h).1.symm
          · exact (List.cons_prefix_cons.mp h).1.symm
        subst hdot
        rfl
  rw [hjoin]
  exact extensionOf_append base hext

theorem importedFile_ok {text : String} (hroot : Real t root)
    (h : importedFile t root file text = .ok c) :
    ∃ base, parent file = some base ∧ NamedAt t base text c ∧ Confined t root false c := by
  unfold importedFile at h
  split at h
  · cases h
  · case _ base hbase =>
    exact ⟨base, hbase, confined_ok hroot h⟩

/-! ## The tree of files -/

theorem cssSearch_strict : (cssSearch printable t outDir root).Strict := fun _ _ => rfl

/-- The targets of a file whose imports were all followed. -/
theorem heads_eq {isRoot : Bool} {out : List Path} {imports : List String} {all : List Path}
    (hroot : Real t root) (h : enterFile printable t outDir root isRoot file = .ok (out, imports))
    (hled : ∀ i ∈ imports, ∃ b, importedFile t root file i = .ok b ∧ b ∈ all) :
    (cssSearch printable t outDir root).heads file imports = importTargets printable t file := by
  obtain ⟨css, rules, base, watches, hread, hrules, hbase, rfl, -, -⟩ := enterFile_ok h
  rw [importTargets, rulesOf_some hread hrules, hbase]
  refine List.filterMap_congr fun i hi => ?_
  obtain ⟨b, hb, -⟩ := hled i hi
  obtain ⟨base', hbase', hnamed, -⟩ := importedFile_ok hroot hb
  rw [hbase, Option.some.injEq] at hbase'
  subst hbase'
  change (importedFile t root file i).toOption = _
  rw [hb, hnamed.canonical]
  rfl

/-- A relation between the items and what a total choice makes of them. -/
theorem forall₂_filterMap {α β : Type} {P : α → β → Prop} {f : α → Option β} {xs : List α}
    (h : ∀ x ∈ xs, ∃ y, f x = some y ∧ P x y) : List.Forall₂ P xs (xs.filterMap f) := by
  induction xs with
  | nil => exact .nil
  | cons x xs ih =>
      obtain ⟨y, hy, hP⟩ := h x (List.mem_cons_self ..)
      rw [List.filterMap_cons_some hy]
      exact .cons hP (ih fun x' hx' => h x' (List.mem_cons_of_mem x hx'))

/-- Each import of a file leads to its target, where all of them were followed. -/
theorem imports_named {isRoot : Bool} {out : List Path} {imports : List String} {all : List Path}
    (hroot : Real t root) (h : enterFile printable t outDir root isRoot file = .ok (out, imports))
    (hled : ∀ i ∈ imports, ∃ b, importedFile t root file i = .ok b ∧ b ∈ all) :
    ∃ rules base, rulesOf printable t file = some rules ∧ parent file = some base ∧
      List.Forall₂ (NamedAt t base) rules.imports (importTargets printable t file) := by
  obtain ⟨css, rules, base, watches, hread, hrules, hbase, rfl, -, -⟩ := enterFile_ok h
  refine ⟨rules, base, rulesOf_some hread hrules, hbase, ?_⟩
  rw [importTargets, rulesOf_some hread hrules, hbase]
  apply forall₂_filterMap
  intro i hi
  obtain ⟨b, hb, -⟩ := hled i hi
  obtain ⟨base', hbase', hnamed, -⟩ := importedFile_ok hroot hb
  rw [hbase, Option.some.injEq] at hbase'
  subst hbase'
  exact ⟨b, by rw [hnamed.canonical]; rfl, hnamed⟩

theorem mem_importTargets {isRoot : Bool} {out : List Path} {imports : List String}
    {all : List Path} (hroot : Real t root)
    (h : enterFile printable t outDir root isRoot file = .ok (out, imports))
    (hled : ∀ i ∈ imports, ∃ b, importedFile t root file i = .ok b ∧ b ∈ all)
    (hc : c ∈ importTargets printable t file) : c ∈ all := by
  rw [← heads_eq hroot h hled] at hc
  obtain ⟨i, hi, htarget⟩ := List.mem_filterMap.mp hc
  obtain ⟨b, hb, hmem⟩ := hled i hi
  change (importedFile t root file i).toOption = some c at htarget
  rw [hb] at htarget
  cases htarget
  exact hmem

/-- What an accepted input, the files it imports and its source directories are. -/
structure AcceptedInput (printable : Char → Bool) (t : Disk) (limit file : Path)
    (others sources watches : List Path) : Prop where
  nodup : (file :: others).Nodup
  reachable : ∀ f, f ∈ file :: others ↔
    Relation.ReflTransGen (fun f g => g ∈ importTargets printable t f) file f
  /-- The imports of all files lead to each other file once, and never to the root. -/
  once : ((file :: others).flatMap (importTargets printable t)).Perm others
  /-- No import of a file is left out, and none leads over a link. -/
  named : ∀ f ∈ file :: others, ∃ rules base, rulesOf printable t f = some rules ∧
    parent f = some base ∧ List.Forall₂ (NamedAt t base) rules.imports (importTargets printable t f)
  root : ∃ rules base, rulesOf printable t file = some rules ∧ parent file = some base ∧
    rules.tailwindImports = 1 ∧ List.Forall₂ (NamedAt t base) rules.sources sources
  rest : ∀ f ∈ others, ∃ rules, rulesOf printable t f = some rules ∧
    rules.tailwindImports = 0 ∧ rules.sources = []
  distinct : sources.Nodup
  files : ∀ f ∈ file :: others, Confined t limit false f
  dirs : ∀ d ∈ sources, Confined t limit true d
  watched : ∀ p ∈ file :: others ++ sources, watches.count p = 1

theorem declared_root {rules : Directives} {watches : List Path} (hroot : Real t root)
    (h : declared t outDir root true file base rules = .ok watches) :
    ∃ sources ignores, rules.tailwindImports = 1 ∧ rules.sources ≠ [] ∧
      List.Forall₂ (NamedAt t base) rules.sources sources ∧ sources.Nodup ∧
      (∀ d ∈ sources, Confined t root true d) ∧ watches.Perm (sources ++ ignores) ∧
      ∀ path ∈ ignores, IgnoreFile t path := by
  rw [declared, if_pos rfl] at h
  split at h
  · cases h
  · case _ hrules =>
    rw [Bool.or_eq_true, not_or, decide_eq_true_eq, not_not, Bool.not_eq_true,
      List.isEmpty_eq_false_iff] at hrules
    obtain ⟨sources, ignores, hat, hnodup, hdirs, hperm, hignores⟩ := declareSources_ok hroot h
    exact ⟨sources, ignores, hrules.1, hrules.2, hat, hnodup, fun d hd => (hdirs d hd).2, hperm,
      hignores⟩

theorem declared_imported {rules : Directives} {watches : List Path}
    (h : declared t outDir root false file base rules = .ok watches) :
    rules.tailwindImports = 0 ∧ rules.sources = [] ∧ watches = [] := by
  rw [declared, if_neg (by simp)] at h
  split at h
  · cases h
  · case _ hrules =>
    cases h
    rw [Bool.or_eq_true, not_or, decide_eq_true_eq, not_not, Bool.not_eq_true,
      Bool.not_eq_false', List.isEmpty_iff] at hrules
    exact ⟨hrules.1, hrules.2, rfl⟩

/-- A CSS file is no source directory and no ignore file. -/
theorem count_css {sources ignores watches : List Path} (hfile : t.isFile path = true)
    (hcss : extensionOf path = some "css") (hdirs : ∀ d ∈ sources, Confined t root true d)
    (hignores : ∀ path ∈ ignores, IgnoreFile t path)
    (hperm : watches.Perm (sources ++ ignores)) : watches.count path = 0 := by
  rw [hperm.count_eq, List.count_append, List.count_eq_zero.mpr, List.count_eq_zero.mpr]
  · intro hmem
    exact (hignores path hmem).other hcss
  · intro hmem
    have hdir := not_isFile_of_isDir (hdirs path hmem).kind
    rw [hdir] at hfile
    cases hfile

theorem count_dir {sources ignores watches : List Path} (hdir : t.isDir path = true)
    (hmem : path ∈ sources) (hnodup : sources.Nodup)
    (hignores : ∀ path ∈ ignores, IgnoreFile t path)
    (hperm : watches.Perm (sources ++ ignores)) : watches.count path = 1 := by
  rw [hperm.count_eq, List.count_append, List.count_eq_one_of_mem hnodup hmem,
    List.count_eq_zero.mpr]
  intro hmem'
  have hfile := (hignores path hmem').file
  rw [not_isFile_of_isDir hdir] at hfile
  cases hfile

variable {others : List Path} {es : List (DepthFirst.Entry Path String Path)} {imports : List String}

/-- A file entered after the root was imported. -/
theorem entered_imported {e : DepthFirst.Entry Path String Path} {out : List Path}
    (hroot : Real t root) (henter : enterFile printable t outDir root true file = .ok (out, imports))
    (hes : (cssSearch printable t outDir root).Explored file imports [file] es) (he : e ∈ es) :
    Confined t root false e.node ∧ extensionOf e.node = some "css" := by
  obtain ⟨f, isRoot, out', imports', hf, i, hi, hfollow⟩ :=
    hes.edge henter (List.mem_map_of_mem he)
  obtain ⟨css, rules, base, watches, -, hrules, -, rfl, -⟩ := enterFile_ok hf
  obtain ⟨base', -, hnamed, hconfined⟩ := importedFile_ok hroot hfollow
  refine ⟨hconfined, ?_⟩
  have hcss := extensionOf_import base' (directives_imports hrules i hi)
  rw [hnamed.spelled]
  exact extensionOf_lexical hcss (hnamed.spelled ▸ hconfined.real)

/-- An edge of the search is an import. -/
theorem edge_imports {f g : Path} (hroot : Real t root)
    (h : (cssSearch printable t outDir root).Edge f g) : g ∈ importTargets printable t f := by
  obtain ⟨isRoot, out, imports, henter, i, hi, hfollow⟩ := h
  obtain ⟨css, rules, base, watches, hread, hrules, hbase, rfl, -⟩ := enterFile_ok henter
  obtain ⟨base', hbase', hnamed, -⟩ := importedFile_ok hroot hfollow
  rw [hbase, Option.some.injEq] at hbase'
  subst hbase'
  rw [importTargets, rulesOf_some hread hrules, hbase]
  exact List.mem_filterMap.mpr ⟨i, hi, by rw [hnamed.canonical]; rfl⟩

theorem entered_rest {e : DepthFirst.Entry Path String Path}
    (hes : (cssSearch printable t outDir root).Explored file imports [file] es) (he : e ∈ es) :
    e.out = [e.node] ∧ ∃ rules, rulesOf printable t e.node = some rules ∧
      rules.tailwindImports = 0 ∧ rules.sources = [] := by
  obtain ⟨css, rules, base, watches, hread, hrules, -, -, hout, hdeclared⟩ :=
    enterFile_ok (hes.entered e he)
  obtain ⟨himports, hsources, rfl⟩ := declared_imported hdeclared
  exact ⟨hout, rules, rulesOf_some hread hrules, himports, hsources⟩

theorem accepted_of_visit {fuel : ℕ} {s : DepthFirst.State Path Path} (hroot : Real t root)
    (hfile : Confined t root false file) (hcss : (∃ d, Confined t root true d) →
      extensionOf file = some "css")
    (h : (cssSearch printable t outDir root).visit fuel [] file {} = some (.ok s)) :
    ∃ others sources, AcceptedInput printable t root file others sources s.log := by
  obtain ⟨e, es, rfl, henter, hes, rfl⟩ := DepthFirst.Search.visit_explored h
  obtain ⟨css, rules, base, watches, hread, hrules, hbase, himports, hout, hdeclared⟩ :=
    enterFile_ok henter
  obtain ⟨sources, ignores, hone, hsome, hat, hdistinct, hdirs, hperm, hignores⟩ :=
    declared_root hroot hdeclared
  have hothers : es.flatMap DepthFirst.Entry.out = DepthFirst.nodes es := by
    rw [DepthFirst.nodes, List.map_eq_flatMap]
    exact List.flatMap_congr fun d hd => (entered_rest hes hd).1
  have hrootcss : extensionOf e.node = some "css" := by
    have hne : sources ≠ [] := by
      rintro rfl
      exact hsome (List.forall₂_nil_right_iff.mp hat)
    obtain ⟨d, hd⟩ := List.exists_mem_of_ne_nil sources hne
    exact hcss ⟨d, hdirs d hd⟩
  have hall : ∀ f ∈ e.node :: DepthFirst.nodes es,
      Confined t root false f ∧ extensionOf f = some "css" := by
    intro f hf
    rcases List.mem_cons.mp hf with rfl | hf
    · exact ⟨hfile, hrootcss⟩
    · obtain ⟨d, hd, rfl⟩ := List.mem_map.mp hf
      exact entered_imported hroot henter hes hd
  have hnodup : (e.node :: DepthFirst.nodes es).Nodup := by
    refine List.nodup_cons.mpr ⟨fun hmem => ?_, hes.nodup⟩
    obtain ⟨d, hd, heq⟩ := List.mem_map.mp hmem
    exact hes.fresh d hd (by simp [heq])
  refine ⟨DepthFirst.nodes es, sources, hnodup, ?_, ?_, ?_, ?_, ?_, hdistinct, ?_, hdirs, ?_⟩
  · intro f
    constructor
    · intro hf
      exact Relation.ReflTransGen.mono (fun _ _ => edge_imports hroot) _ _ (hes.reaches henter hf)
    · intro hf
      induction hf with
      | refl => exact List.mem_cons_self ..
      | tail _ hstep ih =>
          rcases List.mem_cons.mp ih with rfl | hmem
          · exact mem_importTargets hroot henter hes.led hstep
          · obtain ⟨d, hd, rfl⟩ := List.mem_map.mp hmem
            exact mem_importTargets hroot (hes.entered d hd) (hes.closed d hd) hstep
  · have honce := hes.once cssSearch_strict
    have hheads : (cssSearch printable t outDir root).allHeads es =
        (DepthFirst.nodes es).flatMap (importTargets printable t) := by
      rw [DepthFirst.Search.allHeads, DepthFirst.nodes, List.flatMap_map]
      exact List.flatMap_congr fun d hd => heads_eq hroot (hes.entered d hd) (hes.closed d hd)
    rw [heads_eq hroot henter hes.led, hheads] at honce
    exact honce
  · intro f hf
    rcases List.mem_cons.mp hf with rfl | hf
    · exact imports_named hroot henter hes.led
    · obtain ⟨d, hd, rfl⟩ := List.mem_map.mp hf
      exact imports_named hroot (hes.entered d hd) (hes.closed d hd)
  · exact ⟨rules, base, rulesOf_some hread hrules, hbase, hone, hat⟩
  · intro f hf
    obtain ⟨d, hd, rfl⟩ := List.mem_map.mp hf
    exact (entered_rest hes hd).2
  · exact fun f hf => (hall f hf).1
  · intro p hp
    dsimp only
    rw [hout, hothers]
    rcases List.mem_append.mp hp with hp | hp
    · have hzero := count_css (hall p hp).1.kind (hall p hp).2 hdirs hignores hperm
      have hone := List.count_eq_one_of_mem hnodup hp
      rw [List.count_append, List.count_cons, hzero]
      rw [List.count_cons] at hone
      omega
    · have hone := count_dir (hdirs p hp).kind hp hdistinct hignores hperm
      have hzero : (e.node :: DepthFirst.nodes es).count p = 0 := by
        refine List.count_eq_zero.mpr fun hmem => ?_
        have hkind : t.isFile p = true := (hall p hmem).1.kind
        rw [not_isFile_of_isDir (hdirs p hp).kind] at hkind
        cases hkind
      rw [List.count_cons] at hzero
      rw [List.count_append, List.count_cons, hone]
      omega

/-! ## Every input -/

variable {input manifestDir : Path}

theorem locateInput_ok (h : locateInput t input manifestDir = .ok (root, file)) :
    t.canonicalize manifestDir = .ok root ∧ ∃ relative, stripPrefix input manifestDir = some relative ∧
      LeadsTo t (root ++ relative) file ∧ Confined t root false file := by
  unfold locateInput at h
  split at h
  · cases h
  · case _ limit hlimit =>
    split at h
    · cases h
    · case _ relative hrelative =>
      obtain ⟨located, hlocated, h⟩ := bind_ok h
      obtain ⟨hleads, hconfined⟩ := confined_ok (canonicalize_real hlimit) hlocated
      split at h
      · cases h
      · split at h
        · cases h
        · cases h
          exact ⟨hlimit, relative, hrelative, hleads, hconfined⟩

theorem lexical_real (h : Real t path) : lexical path = path := by
  have hnames : ∀ part ∈ path, part ≠ ".." := by
    intro part hpart
    obtain ⟨q, rest, heq⟩ := List.append_of_mem hpart
    exact (h q part rest heq).2.1.2.2
  have hfold : ∀ (parts current : Path), (∀ part ∈ parts, part ≠ "..") →
      parts.foldl lexStep current = current ++ parts := by
    intro parts
    induction parts with
    | nil => intro current _; rw [List.append_nil]; rfl
    | cons part parts ih =>
        intro current hparts
        rw [List.foldl_cons, lexStep, if_neg (hparts part (List.mem_cons_self ..)),
          ih _ fun p hp => hparts p (List.mem_cons_of_mem part hp), ← List.append_cons]
  rw [lexical, normal_real h, hfold path [] hnames, List.nil_append]

/-- No directory is below a file. -/
theorem not_confined_of_isFile (hroot : Real t root) (hfile : t.isFile root = true) {d : Path}
    (hd : Confined t root true d) : False := by
  have hdir : t.isDir root = true := by
    obtain ⟨rest, rfl⟩ := hd.under
    cases rest with
    | nil =>
        have hkind := hd.kind
        rwa [List.append_nil] at hkind
    | cons name rest => exact hroot.isDir.mpr (hd.real root name rest rfl).1
  rw [not_isFile_of_isDir hdir] at hfile
  cases hfile

theorem input_css (hinput : extensionOf input = some "css") (hroot : Real t root) {relative : Path}
    (hrelative : stripPrefix input manifestDir = some relative)
    (hfile : Confined t root false (lexical (root ++ relative)))
    (hdirs : ∃ d, Confined t root true d) :
    extensionOf (lexical (root ++ relative)) = some "css" := by
  unfold stripPrefix at hrelative
  split at hrelative
  · rw [Option.some.injEq] at hrelative
    obtain ⟨name, hlast, hname, hext⟩ := extensionOf_some hinput
    cases relative with
    | nil =>
        -- the input is the manifest directory itself, which has source directories in it
        obtain ⟨d, hd⟩ := hdirs
        rw [List.append_nil, lexical_real hroot] at hfile
        exact absurd hd (not_confined_of_isFile hroot hfile.kind)
    | cons part rest =>
        have hnormal : normal (part :: rest) = part :: rest := by
          refine List.filter_eq_self.mpr fun p hp => ?_
          obtain ⟨hempty, hdot⟩ := mem_normal (List.mem_of_mem_drop (hrelative ▸ hp))
          simp [hempty, hdot]
        have htail : (normal (part :: rest)).getLast? = some name := by
          obtain ⟨before, hbefore⟩ := List.drop_suffix (normal manifestDir).length (normal input)
          rw [hrelative] at hbefore
          rw [← hbefore, List.getLast?_append_of_ne_nil before (List.cons_ne_nil part rest)] at hlast
          rw [hnormal, hlast]
        refine extensionOf_lexical (extensionOf_append root ?_) hfile.real
        rw [extensionOf_last htail hname, hext]
  · cases hrelative

/-- `validate_css` ends on every file tree. Where it accepts an input, the files that
it reaches through imports form a tree with the input at its root, all of it and the
source directories lie in the manifest directory, named without a link, and each of
them is watched once. -/
theorem validate_css_tree (printable : Char → Bool) (t : Disk) (input manifestDir outDir : Path)
    (hinput : extensionOf input = some "css") :
    ∃ r, (∀ fuel, t.paths.length < fuel →
        validateCss printable t outDir fuel input manifestDir = some r) ∧
      ∀ file watches, r = .ok (file, watches) → ∃ limit relative others sources,
        t.canonicalize manifestDir = .ok limit ∧ stripPrefix input manifestDir = some relative ∧
        LeadsTo t (limit ++ relative) file ∧
        AcceptedInput printable t limit file others sources watches := by
  cases hlocate : locateInput t input manifestDir with
  | error e =>
      refine ⟨.error e, ?_, ?_⟩
      · intro fuel _
        rw [validateCss, hlocate]
      · intro file watches h
        cases h
  | ok located =>
      obtain ⟨root, file⟩ := located
      obtain ⟨hcanonical, relative, hrelative, hleads, hfile⟩ := locateInput_ok hlocate
      obtain rfl := hleads.spelled
      have hroot := canonicalize_real hcanonical
      have hfollow : ∀ a i b, (cssSearch printable t outDir root).follow a i = .ok b →
          b ∈ t.paths := by
        intro a i b h
        obtain ⟨base, -, hnamed, -⟩ := importedFile_ok hroot h
        exact canonicalize_mem hnamed.canonical
      obtain ⟨r, hr⟩ := DepthFirst.Search.visit_ends hfollow hfile.real.mem_paths []
      refine ⟨r.map fun s => (lexical (root ++ relative), s.log), ?_, ?_⟩
      · intro fuel hfuel
        rw [validateCss, hlocate]
        dsimp only
        rw [hr fuel hfuel]
        rfl
      · intro file watches h
        cases r with
        | error e => cases h
        | ok s =>
            cases h
            have hrun := hr (t.paths.length + 1) (Nat.lt_succ_self _)
            obtain ⟨others, sources, haccepted⟩ := accepted_of_visit hroot hfile
              (input_css hinput hroot hrelative hfile) hrun
            exact ⟨root, relative, others, sources, hcanonical, hrelative, hleads, haccepted⟩

/-- A root with a source directory and an import by another spelling. -/
def appDisk : Disk where
  entries :=
    [(["app"], .dir), (["app", "css"], .dir), (["app", "src"], .dir),
      (["app", "css", "app.css"], .file (.ok
        "@import \"tailwindcss\" source(none);@source '../src';@import '../css/./b.css';".toList)),
      (["app", "css", "b.css"], .file (.ok ".b\x7b\x7d".toList)),
      (["app", ".gitignore"], .file (.ok [])), (["app", "src", "gone"], .link false ["missing"])]
  maxLinks := 40
  keys := by decide
  parents := by decide

theorem validate_css_tree_app :
    extensionOf ["app", "css", "app.css"] = some "css" ∧
      ∃ limit relative others sources, appDisk.canonicalize ["app"] = .ok limit ∧
        stripPrefix ["app", "css", "app.css"] ["app"] = some relative ∧
        LeadsTo appDisk (limit ++ relative) ["app", "css", "app.css"] ∧
        AcceptedInput (fun _ => true) appDisk limit ["app", "css", "app.css"] others sources
          [["app", "css", "app.css"], ["app", "src"], ["app", ".gitignore"],
            ["app", "css", "b.css"]] := by
  obtain ⟨r, hfuel, haccepted⟩ := validate_css_tree (fun _ => true) appDisk
    ["app", "css", "app.css"] ["app"] ["out"] (by decide)
  have hrun : validateCss (fun _ => true) appDisk ["out"] 9 ["app", "css", "app.css"] ["app"] =
      some (.ok (["app", "css", "app.css"], [["app", "css", "app.css"], ["app", "src"],
        ["app", ".gitignore"], ["app", "css", "b.css"]])) := by decide +kernel
  have hr := hfuel 9 (by decide)
  rw [hrun, Option.some.injEq] at hr
  exact ⟨by decide, haccepted _ _ hr.symm⟩

end Cja.Tailwind
