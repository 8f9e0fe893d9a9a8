import Cja.Lib.FileSystem

/-!
# Copying the migrations of the crate

`sync_migrations` copies what is not there yet. A run may end at any step, by an error or
by a signal, and a copy that ends early leaves what it has written. The next run sees
that the file exists.
-/
namespace Cja.Cli
open FileSystem

/-! ## The directory of the crate -/

/-- An entry of the crate's `migrations`, with the content of a regular file. -/
structure SourceEntry where
  /-- `to_str`: the name, if it is UTF-8. -/
  name : Option String
  content : Option Bytes
deriving Repr, DecidableEq

structure SourceDirectory where
  entries : List SourceEntry
  distinct : ∀ a ∈ entries, ∀ b ∈ entries, ∀ name, a.name = some name → b.name = some name → a = b

/-- `Path::extension` of a file name. -/
def extension (name : List Char) : Option (List Char) :=
  match name.reverse.dropWhile (· != '.') with
  | _ :: stem => if stem.isEmpty then none else some (name.reverse.takeWhile (· != '.')).reverse
  | [] => none

/-- `eq_ignore_ascii_case("sql")` -/
def isSql (name : String) : Bool :=
  (extension name.toList).any fun e => e.map Char.toLower == ['s', 'q', 'l']

/-- A regular file of the directory with the extension of a migration. -/
def SourceEntry.migration (e : SourceEntry) : Option (String × Bytes) :=
  match e.content, e.name with
  | some content, some name => if isSql name then some (name, content) else none
  | _, _ => none

/-! ## A run -/

inductive Stopped
  | failed (text : String)
  | killed
deriving Repr, DecidableEq

/-- What a run meets at an entry. -/
structure Encounter where
  entry : SourceEntry
  /-- The entry cannot be read, or the run is killed before it. -/
  stops : Option Stopped
  /-- `is_file` and `exists` are false where the check fails. -/
  sourceUnseen : Bool
  targetUnseen : Bool
  /-- How the copy ends early, and how many bytes it has written if it has begun. -/
  copyStops : Option (Stopped × Option ℕ)

structure Package where
  name : Option String
  manifestPath : Option Path

inductive Metadata
  | noCommand
  | failed
  | unparsable
  | noPackages
  | packages (packages : List Package)
  | killed

inductive Listing
  | missing
  | unreadable
  | entries (encounters : List Encounter)

/-- A run of the command, with what it meets. -/
structure Invocation where
  dryRun : Bool
  cargoTomlUnseen : Bool
  migrationsUnseen : Bool
  createStops : Option Stopped
  metadata : Metadata
  listing : Path → Listing

/-- The numbers it prints. -/
structure Counts where
  copied : ℕ
  skipped : ℕ
deriving Repr, DecidableEq

def migrationsDir : Path := ["migrations"]

def destPath (name : String) : Path := ["migrations", name]

/-- `exists` -/
def seen (unseen : Bool) (t : Tree) (p : Path) : Bool := !unseen && t.occupied p

/-- The crate's `migrations`, next to its manifest. -/
def locate : Metadata → Except Stopped Path
  | .noCommand => .error (.failed "Failed to run cargo metadata")
  | .failed => .error (.failed "cargo metadata failed")
  | .unparsable => .error (.failed "Failed to parse cargo metadata")
  | .noPackages => .error (.failed "Invalid metadata format")
  | .killed => .error .killed
  | .packages packages =>
      match packages.find? fun p => p.name == some "cja" with
      | none => .error (.failed
          "CJA crate not found in dependencies. Please ensure cja is listed in Cargo.toml")
      | some package =>
          match package.manifestPath with
          | none => .error (.failed "Could not find cja manifest path")
          | some [] => .error (.failed "Could not determine cja crate directory")
          | some (c :: cs) => .ok ((c :: cs).dropLast ++ ["migrations"])

def display (p : Path) : String := "/" ++ "/".intercalate p

/-- `fs::copy` of a file with this content. -/
def copy (name : String) (content : Bytes) (stops : Option (Stopped × Option ℕ)) (t : Tree) :
    Except Stopped Unit × Tree :=
  match stops with
  | none =>
      match t.written (destPath name) content with
      | .ok node => (.ok (), t.set (destPath name) (some node))
      | .error _ => (.error (.failed ("Failed to copy " ++ name)), t)
  | some (stopped, none) => (.error stopped, t)
  | some (stopped, some n) =>
      match t.written (destPath name) (content.take n) with
      | .ok node => (.error stopped, t.set (destPath name) (some node))
      | .error _ => (.error stopped, t)

/-- The body of the loop over the entries; `continue` returns the counts as they are. -/
def syncEntry (dryRun : Bool) (e : Encounter) (counts : Counts) (t : Tree) :
    Except Stopped Counts × Tree :=
  match e.stops with
  | some stopped => (.error stopped, t)
  | none =>
      match (if e.sourceUnseen then none else e.entry.content), e.entry.name with
      | none, _ => (.ok counts, t)
      | some _, none => (.error (.failed "File name is not valid UTF-8"), t)
      | some content, some name =>
          if !isSql name then (.ok counts, t)
          else if seen e.targetUnseen t (destPath name) then
            (.ok { counts with skipped := counts.skipped + 1 }, t)
          else if dryRun then (.ok { counts with copied := counts.copied + 1 }, t)
          else
            match copy name content e.copyStops t with
            | (.error stopped, t') => (.error stopped, t')
            | (.ok _, t') => (.ok { counts with copied := counts.copied + 1 }, t')

def syncEntries (dryRun : Bool) : List Encounter → Counts → Tree → Except Stopped Counts × Tree
  | [], counts, t => (.ok counts, t)
  | e :: es, counts, t =>
      match syncEntry dryRun e counts t with
      | (.error stopped, t') => (.error stopped, t')
      | (.ok counts', t') => syncEntries dryRun es counts' t'

/-- `fs::create_dir`, where the directory is not seen. -/
def createMigrations (i : Invocation) (t : Tree) : Except Stopped Unit × Tree :=
  if !seen i.migrationsUnseen t migrationsDir && !i.dryRun then
    match i.createStops, t migrationsDir with
    | some stopped, _ => (.error stopped, t)
    | none, none => (.ok (), t.set migrationsDir (some .dir))
    | none, some _ => (.error (.failed "Failed to create migrations directory"), t)
  else (.ok (), t)

/-- `sync_migrations`, in the directory of the project. -/
def syncMigrations (i : Invocation) (t : Tree) : Except Stopped Counts × Tree :=
  if !seen i.cargoTomlUnseen t ["Cargo.toml"] then
    (.error (.failed
      "No Cargo.toml found. Please run this command in a Rust project directory."), t)
  else
    match createMigrations i t with
    | (.error stopped, t') => (.error stopped, t')
    | (.ok _, t') =>
        match locate i.metadata with
        | .error stopped => (.error stopped, t')
        | .ok dir =>
            match i.listing dir with
            | .missing =>
                (.error (.failed ("CJA migrations directory not found at: " ++ display dir)), t')
            | .unreadable =>
                (.error (.failed ("Failed to read CJA migrations directory: " ++ display dir)), t')
            | .entries es => syncEntries i.dryRun es ⟨0, 0⟩ t'

/-- The project after some runs. -/
def synced (t : Tree) (runs : List Invocation) : Tree :=
  runs.foldl (fun t i => (syncMigrations i t).2) t

/-! ## What a run leaves -/

variable {dir : SourceDirectory} {t t' t'' : Tree} {p : Path} {e : Encounter}
  {es : List Encounter} {counts : Counts} {i : Invocation} {runs : List Invocation}
  {name : String} {content : Bytes} {stopped : Stopped}

/-- What a path comes to hold where it led to nothing. -/
inductive Fresh (dir : SourceDirectory) : Path → Option Node → Prop
  | directory : Fresh dir migrationsDir (some .dir)
  | migration {e : SourceEntry} {name : String} {content : Bytes} {node : Node} :
      e ∈ dir.entries → e.migration = some (name, content) →
      node = .file content ∨ node = .link (some (.file content)) →
      Fresh dir (destPath name) (some node)

/-- Nothing but whole migrations has come, where there was nothing. -/
def Grown (dir : SourceDirectory) (t t' : Tree) : Prop :=
  ∀ p, t' p = t p ∨ (t.occupied p = false ∧ Fresh dir p (t' p))

theorem Fresh.occupied {node : Option Node} (h : Fresh dir p node) (hp : t p = node) :
    t.occupied p = true := by
  unfold Tree.occupied
  rw [hp]
  cases h with
  | directory => rfl
  | migration _ _ hnode =>
      cases hnode with
      | inl hnode => rw [hnode]
      | inr hnode => rw [hnode]

theorem Grown.refl (dir : SourceDirectory) (t : Tree) : Grown dir t t := fun _ => Or.inl rfl

theorem occupied_congr (h : t' p = t p) : t'.occupied p = t.occupied p := by
  unfold Tree.occupied
  rw [h]

theorem Grown.trans (h : Grown dir t t') (h' : Grown dir t' t'') : Grown dir t t'' := by
  intro p
  cases h p with
  | inl hsame =>
      cases h' p with
      | inl hsame' => exact Or.inl (hsame'.trans hsame)
      | inr hfresh => exact Or.inr ⟨(occupied_congr hsame) ▸ hfresh.1, hfresh.2⟩
  | inr hfresh =>
      cases h' p with
      | inl hsame' => exact Or.inr ⟨hfresh.1, hsame' ▸ hfresh.2⟩
      | inr hfresh' =>
          have hoccupied := hfresh.2.occupied rfl
          rw [hfresh'.1] at hoccupied
          cases hoccupied

theorem Grown.kept (h : Grown dir t t') (hp : t.occupied p = true) : t' p = t p := by
  cases h p with
  | inl hsame => exact hsame
  | inr hfresh =>
      rw [hp] at hfresh
      cases hfresh.1

theorem Grown.occupied (h : Grown dir t t') (hp : t.occupied p = true) :
    t'.occupied p = true := by
  rw [occupied_congr (h.kept hp)]
  exact hp

theorem migration_some {s : SourceEntry} (hcontent : s.content = some content)
    (hname : s.name = some name) (hsql : isSql name = true) :
    s.migration = some (name, content) := by
  unfold SourceEntry.migration
  rw [hcontent, hname]
  simp only [hsql, if_true]

theorem migration_name {s : SourceEntry} (h : s.migration = some (name, content)) :
    s.name = some name ∧ s.content = some content ∧ isSql name = true := by
  unfold SourceEntry.migration at h
  split at h
  · rename_i content' name' hcontent hname
    split at h
    · rename_i hsql
      cases h
      exact ⟨hname, hcontent, hsql⟩
    · cases h
  · cases h

/-- The checks at an entry answer, and a copy that ends early has written nothing or all. -/
structure Encounter.Undisturbed (e : Encounter) : Prop where
  source : e.entry.migration ≠ none → e.sourceUnseen = false
  target : e.targetUnseen = false
  copy : ∀ content stopped n, e.entry.content = some content →
    e.copyStops = some (stopped, some n) → content.length ≤ n

theorem written_fresh {node : Node} (h : t.written (destPath name) content = .ok node) :
    node = .file content ∨ node = .link (some (.file content)) := by
  unfold Tree.written at h
  split at h
  · cases h
  · cases h
  · cases h
    exact Or.inr rfl
  · cases h
    exact Or.inl rfl
  · split at h
    · cases h
      exact Or.inl rfl
    · cases h

theorem Grown.set {node : Option Node} (hfree : t.occupied p = false) (h : Fresh dir p node) :
    Grown dir t (t.set p node) := by
  intro q
  by_cases hq : q = p
  · rw [hq, Tree.set_self]
    exact Or.inr ⟨hfree, h⟩
  · exact Or.inl (t.set_of_ne _ hq)

theorem copy_grown {s : SourceEntry} {stops : Option (Stopped × Option ℕ)}
    (hs : s ∈ dir.entries) (hmigration : s.migration = some (name, content))
    (hstops : ∀ stopped n, stops = some (stopped, some n) → content.length ≤ n)
    (hfree : t.occupied (destPath name) = false)
    {result : Except Stopped Unit} (hcopy : copy name content stops t = (result, t')) :
    Grown dir t t' ∧ (result = .ok () → t'.occupied (destPath name) = true) := by
  have hnode : ∀ node, t.written (destPath name) content = .ok node →
      Grown dir t (t.set (destPath name) (some node)) ∧
        (t.set (destPath name) (some node)).occupied (destPath name) = true := by
    intro node hwritten
    have hfresh : Fresh dir (destPath name) (some node) :=
      .migration hs hmigration (written_fresh hwritten)
    exact ⟨.set hfree hfresh, hfresh.occupied (Tree.set_self ..)⟩
  unfold copy at hcopy
  split at hcopy
  · split at hcopy
    · rename_i node hwritten
      cases hcopy
      exact ⟨(hnode node hwritten).1, fun _ => (hnode node hwritten).2⟩
    · cases hcopy
      constructor
      · exact .refl dir t
      · intro h
        cases h
  · cases hcopy
    constructor
    · exact .refl dir t
    · intro h
      cases h
  · rename_i stopped n
    rw [List.take_of_length_le (hstops stopped n rfl)] at hcopy
    split at hcopy
    · rename_i node hwritten
      cases hcopy
      exact ⟨(hnode node hwritten).1, fun _ => (hnode node hwritten).2⟩
    · cases hcopy
      constructor
      · exact .refl dir t
      · intro h
        cases h

/-- An entry brings its migration whole or nothing, and where the loop goes on behind it
there is something in its place. -/
theorem syncEntry_grown (hentry : e.entry ∈ dir.entries) (hcalm : e.Undisturbed)
    {result : Except Stopped Counts} (h : syncEntry false e counts t = (result, t')) :
    Grown dir t t' ∧ (∀ counts', result = .ok counts' → ∀ name content,
      e.entry.migration = some (name, content) → t'.occupied (destPath name) = true) := by
  unfold syncEntry at h
  split at h
  · cases h
    constructor
    · exact .refl dir t
    · intro _ hok
      cases hok
  · split at h
    · -- Not a regular file: a migration would have been seen.
      rename_i hunseen
      cases h
      refine ⟨.refl dir t, ?_⟩
      intro _ _ name content hmigration
      have hseen := hcalm.source (by rw [hmigration]; exact Option.some_ne_none _)
      rw [hseen, (migration_name hmigration).2.1] at hunseen
      cases hunseen
    · cases h
      constructor
      · exact .refl dir t
      · intro _ hok
        cases hok
    · rename_i content name hfile hname
      have hcontent : e.entry.content = some content := by
        split at hfile
        · cases hfile
        · exact hfile
      split at h
      · rename_i hsql
        cases h
        refine ⟨.refl dir t, ?_⟩
        intro _ _ name' content' hmigration
        have hname' := (migration_name hmigration).1
        rw [hname] at hname'
        cases hname'
        rw [(migration_name hmigration).2.2] at hsql
        cases hsql
      · rename_i hsql
        rw [Bool.not_eq_true, Bool.not_eq_false'] at hsql
        have hmigration := migration_some hcontent hname hsql
        have hwhole := fun stopped n => hcalm.copy content stopped n hcontent
        have hself : ∀ name' content', e.entry.migration = some (name', content') →
            name' = name := by
          intro name' content' hmigration'
          rw [hmigration] at hmigration'
          cases hmigration'
          rfl
        split at h
        · rename_i hexists
          cases h
          refine ⟨.refl dir t, ?_⟩
          intro _ _ name' content' hmigration'
          rw [hself name' content' hmigration']
          unfold seen at hexists
          rw [Bool.and_eq_true] at hexists
          exact hexists.2
        · rename_i hexists
          have hfree : t.occupied (destPath name) = false := by
            unfold seen at hexists
            rw [hcalm.target, Bool.not_false, Bool.true_and, Bool.not_eq_true] at hexists
            exact hexists
          rw [if_neg Bool.false_ne_true] at h
          split at h
          · rename_i stopped t₁ hcopy
            cases h
            refine ⟨(copy_grown hentry hmigration hwhole hfree hcopy).1, ?_⟩
            intro _ hok
            cases hok
          · rename_i done t₁ hcopy
            cases h
            obtain ⟨hgrown, hplace⟩ := copy_grown hentry hmigration hwhole hfree hcopy
            refine ⟨hgrown, ?_⟩
            intro _ _ name' content' hmigration'
            rw [hself name' content' hmigration']
            exact hplace rfl

/-- The loop brings whole migrations, and if it comes to its end, none is missing. -/
theorem syncEntries_grown (hentries : ∀ e ∈ es, e.entry ∈ dir.entries)
    (hcalm : ∀ e ∈ es, e.Undisturbed) {result : Except Stopped Counts}
    (h : syncEntries false es counts t = (result, t')) :
    Grown dir t t' ∧ (∀ counts', result = .ok counts' → ∀ e ∈ es, ∀ name content,
      e.entry.migration = some (name, content) → t'.occupied (destPath name) = true) := by
  induction es generalizing counts t with
  | nil =>
      cases h
      constructor
      · exact .refl dir _
      · intro _ _ e he
        cases he
  | cons e es ih =>
      have hhead := List.mem_cons_self (a := e) (l := es)
      unfold syncEntries at h
      split at h
      · rename_i stopped t₁ hentry
        cases h
        refine ⟨(syncEntry_grown (hentries e hhead) (hcalm e hhead) hentry).1, ?_⟩
        intro _ hok
        cases hok
      · rename_i counts₁ t₁ hentry
        obtain ⟨hgrown, hplace⟩ :=
          syncEntry_grown (hentries e hhead) (hcalm e hhead) hentry
        obtain ⟨hrest, hplaces⟩ := ih (fun x hx => hentries x (List.mem_cons_of_mem e hx))
          (fun x hx => hcalm x (List.mem_cons_of_mem e hx)) h
        refine ⟨hgrown.trans hrest, ?_⟩
        intro counts' hok x hx name content hmigration
        rw [List.mem_cons] at hx
        cases hx with
        | inl hx =>
            rw [hx] at hmigration
            exact hrest.occupied (hplace _ rfl name content hmigration)
        | inr hx => exact hplaces counts' hok x hx name content hmigration

theorem syncEntry_dry {result : Except Stopped Counts}
    (h : syncEntry true e counts t = (result, t')) : t' = t := by
  unfold syncEntry at h
  split at h
  · cases h; rfl
  · split at h
    · cases h; rfl
    · cases h; rfl
    · split at h
      · cases h; rfl
      · split at h
        · cases h; rfl
        · cases h; rfl

theorem syncEntries_dry {result : Except Stopped Counts}
    (h : syncEntries true es counts t = (result, t')) : t' = t := by
  induction es generalizing counts t with
  | nil => cases h; rfl
  | cons e es ih =>
      unfold syncEntries at h
      split at h
      · rename_i hentry
        cases h
        exact syncEntry_dry hentry
      · rename_i hentry
        rw [ih h, syncEntry_dry hentry]

theorem createMigrations_grown {result : Except Stopped Unit}
    (h : createMigrations i t = (result, t')) : Grown dir t t' := by
  unfold createMigrations at h
  split at h
  · split at h
    · cases h
      exact .refl dir t
    · rename_i hnone
      cases h
      have hfree : t.occupied migrationsDir = false := by
        unfold Tree.occupied
        rw [hnone]
      exact .set hfree .directory
    · cases h
      exact .refl dir t
  · cases h
    exact .refl dir t

theorem createMigrations_dry (hdry : i.dryRun = true) : createMigrations i t = (.ok (), t) := by
  unfold createMigrations
  rw [hdry, Bool.not_true, Bool.and_false, if_neg Bool.false_ne_true]

/-! ## Histories -/

/-- What a run lists are the entries of the directory, in some order. -/
def Invocation.Lists (dir : SourceDirectory) (i : Invocation) : Prop :=
  ∀ path es, locate i.metadata = .ok path → i.listing path = .entries es →
    (es.map fun e => e.entry).Perm dir.entries

/-- A run that is not disturbed at an entry, if it copies. -/
structure Invocation.Clean (dir : SourceDirectory) (i : Invocation) : Prop where
  lists : i.Lists dir
  calm : i.dryRun = false → ∀ path es, locate i.metadata = .ok path →
    i.listing path = .entries es → ∀ e ∈ es, e.Undisturbed

theorem syncMigrations_dry (hdry : i.dryRun = true) : (syncMigrations i t).2 = t := by
  unfold syncMigrations
  rw [createMigrations_dry hdry, hdry]
  split
  · rfl
  · dsimp only
    split
    · rfl
    · split
      · rfl
      · rfl
      · exact syncEntries_dry rfl

theorem syncMigrations_grown (h : i.Clean dir) {result : Except Stopped Counts}
    (hrun : syncMigrations i t = (result, t')) :
    Grown dir t t' ∧ (i.dryRun = false → result = .ok counts → ∀ s ∈ dir.entries,
      ∀ name content, s.migration = some (name, content) →
        t'.occupied (destPath name) = true) := by
  cases hdry : i.dryRun with
  | true =>
      have hsame : t' = t := by
        have hsnd := syncMigrations_dry (t := t) hdry
        rw [hrun] at hsnd
        exact hsnd
      rw [hsame]
      constructor
      · exact .refl dir t
      · intro hcopies
        cases hcopies
  | false =>
      unfold syncMigrations at hrun
      split at hrun
      · cases hrun
        constructor
        · exact .refl dir t
        · intro _ hok
          cases hok
      · split at hrun
        · rename_i hcreate
          cases hrun
          refine ⟨createMigrations_grown hcreate, ?_⟩
          intro _ hok
          cases hok
        · rename_i t₁ hcreate
          have hcreated : Grown dir t t₁ := createMigrations_grown hcreate
          split at hrun
          · cases hrun
            refine ⟨hcreated, ?_⟩
            intro _ hok
            cases hok
          · rename_i path hlocate
            split at hrun
            · cases hrun
              refine ⟨hcreated, ?_⟩
              intro _ hok
              cases hok
            · cases hrun
              refine ⟨hcreated, ?_⟩
              intro _ hok
              cases hok
            · rename_i es hes
              rw [hdry] at hrun
              have hperm := h.lists path es hlocate hes
              have hentries : ∀ e ∈ es, e.entry ∈ dir.entries := by
                intro e he
                exact hperm.subset (List.mem_map_of_mem he)
              obtain ⟨hgrown, hplaces⟩ := syncEntries_grown hentries
                (h.calm hdry path es hlocate hes) hrun
              refine ⟨hcreated.trans hgrown, ?_⟩
              intro _ hok s hs name content hmigration
              obtain ⟨e, he, rfl⟩ := List.mem_map.mp (hperm.symm.subset hs)
              exact hplaces counts hok e he name content hmigration

theorem synced_grown (h : ∀ i ∈ runs, i.Clean dir) : Grown dir t (synced t runs) := by
  induction runs generalizing t with
  | nil => exact .refl dir t
  | cons i runs ih =>
      have hfirst : Grown dir t (syncMigrations i t).2 :=
        (@syncMigrations_grown dir t _ ⟨0, 0⟩ i (h i (List.mem_cons_self ..)) _ rfl).1
      exact hfirst.trans (ih fun x hx => h x (List.mem_cons_of_mem i hx))

/-- What is there in place of a migration that was missing is the migration. -/
theorem Grown.holds {s : SourceEntry} (h : Grown dir t t') (hs : s ∈ dir.entries)
    (hmigration : s.migration = some (name, content)) (hmissing : t (destPath name) = none)
    (hplace : t'.occupied (destPath name) = true) :
    t'.content (destPath name) = some content := by
  cases h (destPath name) with
  | inl hsame =>
      rw [occupied_congr hsame] at hplace
      unfold Tree.occupied at hplace
      rw [hmissing] at hplace
      cases hplace
  | inr hfresh =>
      generalize hnode : t' (destPath name) = node at hfresh
      generalize hpath : destPath name = path at hfresh
      cases hfresh.2 with
      | directory => cases hpath
      | @migration s' name' content' node hs' hmigration' hform =>
          have hname : name' = name := by
            unfold destPath at hpath
            cases hpath
            rfl
          subst hname
          have hsame : s' = s := dir.distinct s' hs' s hs name' (migration_name hmigration').1
            (migration_name hmigration).1
          rw [hsame, hmigration] at hmigration'
          cases hmigration'
          unfold Tree.content
          rw [hnode]
          cases hform with
          | inl hform => rw [hform]
          | inr hform => rw [hform]

/-- What is asked of a history of runs in a project. -/
structure Consistent (dir : SourceDirectory) (t : Tree) (runs : List Invocation) : Prop where
  complete : ∀ earlier last later counts, runs = earlier ++ last :: later →
    last.dryRun = false → (syncMigrations last (synced t earlier)).1 = .ok counts →
    ∀ s ∈ dir.entries, ∀ name content, s.migration = some (name, content) →
      t (destPath name) = none → (synced t runs).content (destPath name) = some content
  kept : ∀ p, t.occupied p = true → synced t runs p = t p
  dry : ∀ i : Invocation, i.dryRun = true →
    (syncMigrations i (synced t runs)).2 = synced t runs

theorem sync_consistent (h : ∀ i ∈ runs, i.Clean dir) : Consistent dir t runs where
  complete := by
    intro earlier last later counts hruns hcopies hok s hs name content hmigration hmissing
    have hsplit : synced t runs = synced (syncMigrations last (synced t earlier)).2 later := by
      rw [hruns]
      unfold synced
      rw [List.foldl_append, List.foldl_cons]
    have hlast : last.Clean dir := h last (by rw [hruns]; simp)
    have hplaces := (@syncMigrations_grown _ _ _ counts _ hlast _ rfl).2 hcopies hok
    have hlater : ∀ i ∈ later, i.Clean dir := fun i hi => h i (by rw [hruns]; simp [hi])
    apply (synced_grown h).holds hs hmigration hmissing
    rw [hsplit]
    exact (synced_grown hlater).occupied (hplaces s hs name content hmigration)
  kept := fun p hp => (synced_grown h).kept hp
  dry := fun i hdry => syncMigrations_dry hdry

section
-- A crate with one migration of two bytes, and a project without any.

def jobsMigration : SourceEntry := ⟨some "1_jobs.sql", some [1, 2]⟩

def crateMigrations : SourceDirectory where
  entries := [jobsMigration]
  distinct := by
    intro a ha b hb _ _ _
    rw [List.mem_singleton.mp ha, List.mem_singleton.mp hb]

def newProject : Tree := fun p => if p = ["Cargo.toml"] then some (.file []) else none

/-- A run whose copy ends early as it says. -/
def syncRun (copyStops : Option (Stopped × Option ℕ)) : Invocation where
  dryRun := false
  cargoTomlUnseen := false
  migrationsUnseen := false
  createStops := none
  metadata := .packages [⟨some "cja", some ["cja", "Cargo.toml"]⟩]
  listing := fun _ => .entries [⟨jobsMigration, none, false, false, copyStops⟩]

theorem syncRun_lists (copyStops : Option (Stopped × Option ℕ)) :
    (syncRun copyStops).Lists crateMigrations := by
  intro path es _ hes
  cases hes
  exact List.Perm.refl _

theorem syncRun_consistent : (syncMigrations (syncRun none) newProject).1 = .ok ⟨1, 0⟩ ∧
    Consistent crateMigrations newProject [syncRun (some (.killed, none)), syncRun none] := by
  refine ⟨by decide +kernel, sync_consistent ?_⟩
  intro i hi
  have hcalm : ∀ e : Encounter, e.sourceUnseen = false → e.targetUnseen = false →
      (e.copyStops = none ∨ e.copyStops = some (.killed, none)) → e.Undisturbed := by
    intro e hsource htarget hcopy
    refine ⟨fun _ => hsource, htarget, ?_⟩
    intro content stopped n _ hbegun
    cases hcopy with
    | inl hcopy => rw [hcopy] at hbegun; cases hbegun
    | inr hcopy => rw [hcopy] at hbegun; cases hbegun
  rw [List.mem_cons, List.mem_singleton] at hi
  cases hi with
  | inl hi =>
      rw [hi]
      refine ⟨syncRun_lists _, ?_⟩
      intro _ path es _ hes e he
      cases hes
      rw [List.mem_singleton.mp he]
      exact hcalm _ rfl rfl (Or.inr rfl)
  | inr hi =>
      rw [hi]
      refine ⟨syncRun_lists _, ?_⟩
      intro _ path es _ hes e he
      cases hes
      rw [List.mem_singleton.mp he]
      exact hcalm _ rfl rfl (Or.inl rfl)

/-- Killed after one byte of two, the copy is taken for the migration. -/
theorem syncRun_torn : ∃ runs : List Invocation, (∀ i ∈ runs, i.Lists crateMigrations) ∧
    ¬Consistent crateMigrations newProject runs := by
  refine ⟨[syncRun (some (.killed, some 1)), syncRun none], ?_, ?_⟩
  · intro i hi
    rw [List.mem_cons, List.mem_singleton] at hi
    cases hi with
    | inl hi => rw [hi]; exact syncRun_lists _
    | inr hi => rw [hi]; exact syncRun_lists _
  · intro h
    have hwhole := h.complete [syncRun (some (.killed, some 1))] (syncRun none) [] ⟨0, 1⟩ rfl rfl
      (by decide +kernel) jobsMigration (List.mem_singleton_self _) "1_jobs.sql" [1, 2]
      (by decide +kernel) (by decide +kernel)
    have htorn : (synced newProject
        [syncRun (some (.killed, some 1)), syncRun none]).content (destPath "1_jobs.sql") =
          some [1] := by decide +kernel
    rw [hwhole] at htorn
    cases htorn

end

end Cja.Cli
