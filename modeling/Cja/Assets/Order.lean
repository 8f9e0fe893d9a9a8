import Cja.Assets.Names
import Cja.Lib.SortByKey

/-!
# The order of a directory

A directory lists its entries in an order of its own. The files are sorted by their
names before they are read, and the names are distinct, so the outputs of the static
directory do not depend on that order.
-/
namespace Cja.Assets
open FileSystem Fallible

variable {H : Host} {b : AssetsBuilder} {manifestDir outDir : Path} {d d' : Disk} {t : Tree}

/-- The host with its directories listed by `readDir`. -/
def Host.listed (H : Host) (readDir : Tree → Path → List DirEntry) : Host :=
  { H with readDir := readDir }

/-! ## What is collected -/

/-- What `collectEntry` adds for an entry of a directory. -/
def entryFiles (t : Tree) (list : Path → String → List (String × Path)) (dir : Path)
    (relativeDir : String) (entry : DirEntry) : List (String × Path) :=
  if entry.name.toList.head? = some '.' then []
  else
    let path := dir ++ [entry.name]
    let name := if relativeDir = "" then entry.name else relativeDir ++ "/" ++ entry.name
    match t path with
    | some .dir => list path name
    | some (.file _) => [(name, path)]
    | _ => []

def listing (H : Host) (t : Tree) : ℕ → Path → String → List (String × Path)
  | 0, _, _ => []
  | depth + 1, dir, relativeDir =>
      (H.readDir t dir).flatMap (entryFiles t (listing H t depth) dir relativeDir)

theorem collectEntry_ends
    {collect : Path → String → List (String × Path) → Build (List (String × Path))}
    {list : Path → String → List (String × Path)}
    (hcollect : ∀ path name files, Ends (fun d : Disk => d.tree = t) (collect path name files)
      (fun found d => found = files ++ list path name ∧ d.tree = t) (fun d => d.tree = t))
    (dir : Path) (relativeDir : String) (files : List (String × Path)) (entry : DirEntry) :
    Ends (fun d : Disk => d.tree = t) (collectEntry collect dir relativeDir files entry)
      (fun found d => found = files ++ entryFiles t list dir relativeDir entry ∧ d.tree = t)
      (fun d => d.tree = t) := by
  unfold collectEntry entryFiles
  dsimp only
  split
  · exact .of_pure fun _ h => ⟨by simp, h⟩
  · split
    · exact .of_throw fun _ h => h
    · refine Ends.bind (liftExcept_keeps (I := fun t' => t' = t) _) fun _ => ?_
      refine Ends.bind (Ends.io (symlinkMetadata_ends (I := fun t' => t' = t))) fun node => ?_
      cases node with
      | link target => exact .of_throw fun _ h => h.2
      | dir =>
          refine Ends.learn (J := t (dir ++ [entry.name]) = some .dir) (fun d h => h.2 ▸ h.1)
            fun hnode => ?_
          rw [hnode]
          exact (hcollect ..).weaken (fun _ h => h.2) (fun _ _ h => h) fun _ h => h
      | file bytes =>
          refine .of_pure fun d h => ⟨?_, h.2⟩
          rw [← h.2, h.1]

theorem collectFiles_ends (depth : ℕ) (dir : Path) (relativeDir : String)
    (files : List (String × Path)) :
    Ends (fun d : Disk => d.tree = t) (collectFiles H depth dir relativeDir files)
      (fun found d => found = files ++ listing H t depth dir relativeDir ∧ d.tree = t)
      (fun d => d.tree = t) := by
  induction depth generalizing dir relativeDir files with
  | zero => exact .of_throw fun _ h => h
  | succ depth ih =>
      unfold collectFiles
      refine Ends.bind (Ends.io (query_ends (I := fun t' => t' = t))) fun entries => ?_
      have hread : ∀ d : Disk, ((if d.tree.isDir dir then .ok (H.readDir d.tree dir)
          else .error .notADirectory : Except IoError (List DirEntry)) = .ok entries ∧
            d.tree = t) → entries = H.readDir t dir := by
        intro d h
        have hok := h.1
        split at hok
        · cases hok
          rw [h.2]
        · cases hok
      refine Ends.learn hread fun hentries => ?_
      subst hentries
      have hloop : Ends (fun d : Disk => d.tree = t)
          ((H.readDir t dir).foldlM (collectEntry (collectFiles H depth) dir relativeDir) files)
          (fun found d => found = files ++ (H.readDir t dir).flatMap
            (entryFiles t (listing H t depth) dir relativeDir) ∧ d.tree = t)
          (fun d => d.tree = t) := by
        refine Ends.foldlM_done (J := fun done found => found = files ++
          done.flatMap (entryFiles t (listing H t depth) dir relativeDir)) (by simp)
          fun done found entry _ hdone => ?_
        refine (collectEntry_ends ih dir relativeDir found entry).weaken (fun _ h => h)
          (fun found' d h => ⟨?_, h.2⟩) fun _ h => h
        rw [h.1, hdone]
        simp
      exact hloop.weaken (fun _ h => h.2) (fun _ _ h => h) fun _ h => h

theorem listing_perm {readDir : Tree → Path → List DirEntry}
    (hperm : ∀ t p, (readDir t p).Perm (H.readDir t p)) (depth : ℕ) (dir : Path)
    (relativeDir : String) :
    (listing (H.listed readDir) t depth dir relativeDir).Perm (listing H t depth dir relativeDir) := by
  induction depth generalizing dir relativeDir with
  | zero => exact .refl _
  | succ depth ih =>
      refine List.Perm.trans (List.Perm.flatMap_right _ (hperm t dir)) ?_
      refine List.Perm.flatMap_left _ fun entry _ => ?_
      unfold entryFiles
      dsimp only
      split
      · exact .refl _
      · split
        · exact ih _ _
        · exact .refl _
        · exact .refl _

theorem fileBefore_iff (a b : String × Path) : fileBefore a b = true ↔ a.1 ≤ b.1 := by
  rw [fileBefore, Bool.or_eq_true, decide_eq_true_eq, beq_iff_eq, le_iff_lt_or_eq]

/-! ## What is read -/

/-- One round of the loop over the files, on a tree that stays. -/
def staticOutput (H : Host) (t : Tree) (outputs : List AssetRecord) (file : String × Path) :
    Option (List AssetRecord) :=
  (t.content file.2).bind fun bytes =>
    match addOutput H outputs file.1 bytes file.2 with
    | .ok added => some added.1
    | .error _ => none

theorem readFiles_ends (files : List (String × Path)) :
    Ends (fun d : Disk => d.tree = t)
      (files.foldlM
        (fun outputs (file : String × Path) => do
          let bytes ← io file.2 (read file.2)
          let added ← liftExcept (addOutput H outputs file.1 bytes file.2)
          pure added.1 : List AssetRecord → String × Path → Build (List AssetRecord)) [])
      (fun outputs d => files.foldlM (staticOutput H t) [] = some outputs ∧ d.tree = t)
      (fun d => d.tree = t) := by
  refine Ends.foldlM_done (I := fun d : Disk => d.tree = t)
    (J := fun done outputs => done.foldlM (staticOutput H t) [] = some outputs) rfl
    fun done outputs file _ hdone => ?_
  refine Ends.bind (Ends.io (read_ends (I := fun t' => t' = t))) fun bytes => ?_
  refine Ends.learn (J := t.content file.2 = some bytes) (fun d h => h.2 ▸ h.1) fun hbytes => ?_
  refine Ends.bind (R := fun added (d : Disk) => addOutput H outputs file.1 bytes file.2 = .ok added ∧
    d.tree = t) ?_ fun added => ?_
  · exact (liftExcept_ends (I := fun t' => t' = t) _).weaken (fun _ h => h.2) (fun _ _ h => h)
      fun _ h => h
  refine Ends.assume fun hadded => ?_
  refine .of_pure fun d h => ⟨?_, h⟩
  rw [List.foldlM_append, hdone]
  simp [staticOutput, hbytes, hadded]

theorem staticOutput_added {outputs outputs' : List AssetRecord} {file : String × Path}
    (h : staticOutput H t outputs file = some outputs') :
    ∃ r, Added H outputs outputs' r ∧ r.logicalName = file.1 := by
  unfold staticOutput at h
  rw [Option.bind_eq_some_iff] at h
  obtain ⟨bytes, _, h⟩ := h
  split at h
  · rename_i added hadded
    cases h
    exact ⟨_, addOutput_added hadded, rfl⟩
  · cases h

theorem staticOutputs_lists (files : List (String × Path)) {outputs outputs' : List AssetRecord}
    (hl : Lists H outputs) (h : files.foldlM (staticOutput H t) outputs = some outputs') :
    Lists H outputs' ∧ outputs'.map AssetRecord.logicalName =
      outputs.map AssetRecord.logicalName ++ files.map Prod.fst := by
  induction files generalizing outputs with
  | nil =>
      cases h
      exact ⟨hl, by simp⟩
  | cons file files ih =>
      rw [List.foldlM_cons, Option.bind_eq_bind, Option.bind_eq_some_iff] at h
      obtain ⟨outputs₁, hround, hrest⟩ := h
      obtain ⟨r, hadded, hname⟩ := staticOutput_added hround
      obtain ⟨hlists, hnames⟩ := ih (hl.added hadded) hrest
      refine ⟨hlists, ?_⟩
      rw [hnames, hadded.eq]
      simp [hname]

/-- The names of the files of a finished static directory are distinct. -/
theorem staticOutputs_distinct {files : List (String × Path)} {outputs : List AssetRecord}
    (h : files.foldlM (staticOutput H t) [] = some outputs) : (files.map Prod.fst).Nodup := by
  obtain ⟨hlists, hnames⟩ := staticOutputs_lists files (lists_nil H) h
  have hlogical := hlists.logical
  rw [hnames] at hlogical
  simpa using hlogical

/-- The outputs of the static directory, as far as they are determined by the files. -/
theorem buildStatic_ends_listing {assetsDir : PathBuf} (hdir : b.assetsDir = some assetsDir) :
    Ends (fun d : Disk => d.tree = t) (buildStatic H b manifestDir outDir)
      (fun outputs d => ((listing H t H.maxDepth (join manifestDir assetsDir) "").mergeSort
        fileBefore).foldlM (staticOutput H t) [] = some outputs ∧ d.tree = t)
      (fun d => d.tree = t) := by
  unfold buildStatic
  rw [hdir]
  refine Ends.bind (watchDir_keeps (I := fun t' => t' = t) _) fun _ => ?_
  refine Ends.bind (Ends.io (symlinkMetadata_keeps (I := fun t' => t' = t))) fun node => ?_
  cases node with
  | link target => exact .of_throw fun _ h => h
  | file bytes => exact .of_throw fun _ h => h
  | dir =>
      refine Ends.bind (collectFiles_ends ..) fun files => ?_
      refine Ends.assume fun hfiles => ?_
      rw [hfiles, List.nil_append]
      exact readFiles_ends _

/-- Two builds whose directories are listed in different orders read the same outputs
from the static directory. -/
theorem buildStatic_listed {readDir : Tree → Path → List DirEntry}
    (hperm : ∀ t p, (readDir t p).Perm (H.readDir t p)) {static static' : List AssetRecord}
    {d₁ d₂ : Disk} (h : outcome (buildStatic H b manifestDir outDir) d = (.ok static, d₁))
    (h' : outcome (buildStatic (H.listed readDir) b manifestDir outDir) d = (.ok static', d₂)) :
    static' = static := by
  cases hdir : b.assetsDir with
  | none =>
      unfold buildStatic at h h'
      rw [hdir] at h h'
      cases h
      cases h'
      rfl
  | some assetsDir =>
      obtain ⟨hstatic, _⟩ := (buildStatic_ends_listing (H := H) hdir).ok d static d₁ rfl h
      obtain ⟨hstatic', _⟩ :=
        (buildStatic_ends_listing (H := H.listed readDir) hdir).ok d static' d₂ rfl h'
      have hsame := SortByKey.mergeSort_of_perm fileBefore_iff
        (listing_perm (t := d.tree) hperm H.maxDepth (join manifestDir assetsDir) "") ?_
      · have hrounds : staticOutput (H.listed readDir) d.tree = staticOutput H d.tree := rfl
        have hdepth : (H.listed readDir).maxDepth = H.maxDepth := rfl
        rw [hdepth, hsame, hrounds, hstatic] at hstatic'
        exact (Option.some.inj hstatic').symm
      · have hd := staticOutputs_distinct hstatic'
        exact ((List.mergeSort_perm _ fileBefore).map Prod.fst).nodup_iff.1 hd

end Cja.Assets
