import Cja.Assets.Builder

/-!
# The manifest after a build

A build that fails should leave no manifest behind, and one that succeeds a
manifest whose every entry names a file with that entry's bytes. The second holds
of every build. The first fails where one of the first operations fails before the
old manifest is gone, and where the test for the old manifest overlooks it:
`Clears` says when neither happens.
-/
namespace Cja.Assets
open FileSystem Fallible

variable {H : Host} {b : AssetsBuilder} {manifestDir outDir : Path} {d d' : Disk}
variable {I : Tree → Prop} {outputs : List AssetRecord}

/-! ## Building blocks -/

theorem Ends.io {α : Type} {path : Path} {op : Io α} {P : Disk → Prop} {Q : α → Disk → Prop}
    {E : Disk → Prop} (h : Ends P op Q E) : Ends P (io path op) Q E :=
  h.mapErr

theorem liftExcept_ends {α : Type} (r : Except BuildError α) :
    Ends (fun d : Disk => I d.tree) (liftExcept r) (fun a d => r = .ok a ∧ I d.tree)
      (fun d => I d.tree) where
  ok := by
    intro d a d' hI heq
    cases heq
    exact ⟨rfl, hI⟩
  error := by
    intro d e d' hI heq
    cases heq
    exact hI

theorem liftExcept_keeps {α : Type} (r : Except BuildError α) :
    Keeps (fun d : Disk => I d.tree) (liftExcept r) :=
  .of_outcome fun _ hI => hI

theorem throw_keeps {α : Type} (e : BuildError) :
    Keeps (fun d : Disk => I d.tree) (throw e : Build α) :=
  .of_throw fun _ hI => hI

/-- What depends on the guarded paths alone. -/
def Guarded (outDir : Path) (I : Tree → Prop) : Prop :=
  ∀ t t' : Tree, (∀ p, guarded outDir p = true → t' p = t p) → I t → I t'

theorem tool_keeps {α : Type} (hI : Guarded outDir I) (f : Tree → Except String α × Tree) :
    Keeps (fun d : Disk => I d.tree) (tool outDir f) := by
  refine .of_outcome fun d h => hI d.tree _ (fun p hp => ?_) h
  exact if_pos hp

/-! ## The outputs -/

/-- No two outputs share a file. -/
def Distinct (outputs : List AssetRecord) : Prop :=
  (outputs.map AssetRecord.hashedName).Nodup

theorem Distinct.addOutput {outputs' : List AssetRecord} {logicalName hashedName : String}
    {bytes : Bytes} {sourcePath : Path} (hd : Distinct outputs)
    (h : addOutput H outputs logicalName bytes sourcePath = .ok (outputs', hashedName)) :
    Distinct outputs' := by
  unfold Assets.addOutput at h
  cases hvalid : validateName logicalName sourcePath with
  | error e => rw [hvalid] at h; cases h
  | ok u =>
      rw [hvalid] at h
      dsimp only [Bind.bind, Except.bind] at h
      split at h
      · cases h
      · split at h
        · cases h
        · rename_i hfind
          cases h
          unfold Distinct at *
          rw [List.map_append, List.nodup_append]
          refine ⟨hd, List.nodup_singleton _, ?_⟩
          intro a ha b hb
          obtain ⟨r, hr, rfl⟩ := List.mem_map.1 ha
          have hne := List.find?_eq_none.1 hfind r hr
          simp only [Bool.or_eq_true, beq_iff_eq, not_or] at hne
          simp only [List.map_cons, List.map_nil, List.mem_singleton] at hb
          rw [hb]
          exact hne.2

/-- Adding one output, as a step of a build. -/
theorem addOutput_ends {logicalName : String} {bytes : Bytes} {sourcePath : Path}
    (hd : Distinct outputs) :
    Ends (fun d : Disk => I d.tree)
      (liftExcept (addOutput H outputs logicalName bytes sourcePath))
      (fun added d => Distinct added.1 ∧ I d.tree) (fun d => I d.tree) :=
  (liftExcept_ends _).weaken (fun _ h => h) (fun _ _ h => ⟨hd.addOutput h.1, h.2⟩) fun _ h => h

theorem watchDir_keeps (path : Path) :
    Keeps (fun d : Disk => I d.tree) (watchDir H outDir path) := by
  unfold watchDir
  refine Ends.bind (look_keeps _) fun refused => ?_
  cases refused with
  | none => exact .of_pure fun _ h => h
  | some message => exact throw_keeps _

theorem collectEntry_keeps
    {collect : Path → String → List (String × Path) → Build (List (String × Path))}
    (hcollect : ∀ path name files, Keeps (fun d : Disk => I d.tree) (collect path name files))
    (dir : Path) (relativeDir : String) (files : List (String × Path)) (entry : DirEntry) :
    Keeps (fun d : Disk => I d.tree) (collectEntry collect dir relativeDir files entry) := by
  unfold collectEntry
  dsimp only
  split
  · exact .of_pure fun _ h => h
  · split
    · exact throw_keeps _
    · refine Ends.bind (liftExcept_keeps _) fun _ => ?_
      refine Ends.bind (Ends.io symlinkMetadata_keeps) fun node => ?_
      cases node with
      | link target => exact throw_keeps _
      | dir => exact hcollect ..
      | file bytes => exact .of_pure fun _ h => h

theorem collectFiles_keeps (depth : ℕ) (dir : Path) (relativeDir : String)
    (files : List (String × Path)) :
    Keeps (fun d : Disk => I d.tree) (collectFiles H depth dir relativeDir files) := by
  induction depth generalizing dir relativeDir files with
  | zero => exact throw_keeps _
  | succ depth ih =>
      unfold collectFiles
      refine Ends.bind (Ends.io query_keeps) fun entries => ?_
      refine (Ends.foldlM (J := fun _ => True) trivial fun files entry _ _ => ?_).weaken
        (fun _ h => h) (fun _ _ h => h.2) fun _ h => h
      exact (collectEntry_keeps ih dir relativeDir files entry).weaken (fun _ h => h)
        (fun _ _ h => ⟨trivial, h⟩) fun _ h => h

theorem distinct_nil : Distinct [] := List.nodup_nil

theorem buildStatic_ends : Ends (fun d : Disk => I d.tree) (buildStatic H b manifestDir outDir)
    (fun outputs d => Distinct outputs ∧ I d.tree) (fun d => I d.tree) := by
  unfold buildStatic
  cases b.assetsDir with
  | none => exact .of_pure fun _ h => ⟨distinct_nil, h⟩
  | some assetsDir =>
      refine Ends.bind (watchDir_keeps _) fun _ => ?_
      refine Ends.bind (Ends.io symlinkMetadata_keeps) fun node => ?_
      cases node with
      | link target => exact .of_throw fun _ h => h
      | file bytes => exact .of_throw fun _ h => h
      | dir =>
          refine Ends.bind (collectFiles_keeps ..) fun files => ?_
          refine Ends.foldlM distinct_nil fun outputs file _ hd => ?_
          refine Ends.bind (Ends.io read_keeps) fun bytes => ?_
          refine Ends.bind (addOutput_ends hd) fun added => ?_
          exact .of_pure fun _ h => h

theorem buildEntry_ends (hI : Guarded outDir I) (frontend : Path) (entry : Entry)
    (hd : Distinct outputs) :
    Ends (fun d : Disk => I d.tree) (buildEntry H frontend outDir outputs entry)
      (fun outputs d => Distinct outputs ∧ I d.tree) (fun d => I d.tree) := by
  unfold buildEntry
  refine Ends.bind (tool_keeps hI _) fun bundle => ?_
  refine Ends.bind (Keeps.forM fun file _ => watchDir_keeps file) fun _ => ?_
  refine Ends.bind (liftExcept_keeps _) fun map => ?_
  refine Ends.bind (addOutput_ends hd) fun withMap => ?_
  refine Ends.assume fun hmap => ?_
  refine Ends.bind (liftExcept_keeps _) fun js => ?_
  refine Ends.bind (addOutput_ends hmap) fun withJs => ?_
  exact .of_pure fun _ h => h

theorem buildEntries_ends (hI : Guarded outDir I) (hd : Distinct outputs) :
    Ends (fun d : Disk => I d.tree) (buildEntries H b manifestDir outDir outputs)
      (fun outputs d => Distinct outputs ∧ I d.tree) (fun d => I d.tree) := by
  unfold buildEntries
  refine Ends.bind (watchDir_keeps _) fun _ => ?_
  refine Ends.bind (look_keeps _) fun root => ?_
  refine Ends.bind (liftExcept_keeps _) fun frontend => ?_
  refine Ends.bind (look_keeps _) fun watched => ?_
  refine Ends.bind (liftExcept_keeps _) fun _ => ?_
  refine Ends.bind (Keeps.forM fun entry _ => liftExcept_keeps _) fun _ => ?_
  refine Ends.bind (tool_keeps hI _) fun _ => ?_
  exact Ends.foldlM hd fun outputs entry _ hd => buildEntry_ends hI frontend entry hd

theorem validateTailwind_keeps (input : Tailwind) :
    Keeps (fun d : Disk => I d.tree) (validateTailwind H manifestDir outDir input) := by
  unfold validateTailwind
  refine Ends.bind (liftExcept_keeps _) fun _ => ?_
  split
  · exact throw_keeps _
  · split
    · exact throw_keeps _
    · dsimp only
      split
      · exact throw_keeps _
      · refine Ends.bind (look_keeps _) fun checked => ?_
        exact liftExcept_keeps _

theorem buildTailwind_ends (hI : Guarded outDir I) (executable : Path) (input : Tailwind × Path)
    (hd : Distinct outputs) :
    Ends (fun d : Disk => I d.tree) (buildTailwind H executable outDir outputs input)
      (fun outputs d => Distinct outputs ∧ I d.tree) (fun d => I d.tree) := by
  unfold buildTailwind
  refine Ends.bind (tool_keeps hI _) fun output => ?_
  refine Ends.bind (liftExcept_keeps _) fun bytes => ?_
  refine Ends.bind (addOutput_ends hd) fun added => ?_
  exact .of_pure fun _ h => h

theorem buildTailwinds_ends (hI : Guarded outDir I) (hd : Distinct outputs) :
    Ends (fun d : Disk => I d.tree) (buildTailwinds H b manifestDir outDir outputs)
      (fun outputs d => Distinct outputs ∧ I d.tree) (fun d => I d.tree) := by
  unfold buildTailwinds
  refine Ends.bind (R := fun _ (d : Disk) => I d.tree) ?_ fun validated => ?_
  · refine (Ends.foldlM (J := fun _ => True) trivial fun css input _ _ => ?_).weaken
      (fun _ h => h) (fun _ _ h => h.2) fun _ h => h
    refine Ends.bind (validateTailwind_keeps input) fun path => ?_
    exact .of_pure fun _ h => ⟨trivial, h⟩
  · refine Ends.bind (tool_keeps hI _) fun executable => ?_
    refine Ends.bind (watchDir_keeps _) fun _ => ?_
    exact Ends.foldlM hd fun outputs input _ hd => buildTailwind_ends hI executable input hd

theorem collectOutputs_ends (hI : Guarded outDir I) :
    Ends (fun d : Disk => I d.tree) (collectOutputs H b manifestDir outDir)
      (fun outputs d => Distinct outputs ∧ I d.tree) (fun d => I d.tree) := by
  unfold collectOutputs
  refine Ends.bind buildStatic_ends fun static => ?_
  refine Ends.assume fun hstatic => ?_
  refine Ends.bind (R := fun outputs (d : Disk) => Distinct outputs ∧ I d.tree) ?_ fun scripts => ?_
  · split
    · exact .of_pure fun _ h => ⟨hstatic, h⟩
    · exact buildEntries_ends hI hstatic
  · refine Ends.assume fun hscripts => ?_
    split
    · exact .of_pure fun _ h => ⟨hscripts, h⟩
    · exact buildTailwinds_ends hI hscripts

/-! ## Publishing -/

/-- Nothing is found at the path of the manifest. -/
def Vacant (outDir : Path) (t : Tree) : Prop := t.occupied (manifestPath outDir) = false

/-- The files of these outputs are in place. -/
def Done (outDir : Path) (outputs : List AssetRecord) (t : Tree) : Prop :=
  ∀ r ∈ outputs, t.content (r.path outDir) = some r.bytes

/-- The manifest lists the outputs, one entry each, and every entry names a file of
`OUT_DIR/cja-assets` with the bytes of the entry. -/
structure Published (outDir : Path) (outputs : List AssetRecord) (t : Tree) : Prop where
  manifest : t.content (manifestPath outDir) = some (encodeUtf8 (manifestText outputs))
  files : Done outDir outputs t

theorem components_injective : Function.Injective components := by
  intro a b h
  have hsplit : a.toList.splitOn '/' = b.toList.splitOn '/' :=
    List.map_injective_iff.2 (fun _ _ => String.ofList_injective) h
  have hlist : a.toList = b.toList :=
    calc
      a.toList = ['/'].intercalate (a.toList.splitOn '/') := (List.intercalate_splitOn '/').symm
      _ = ['/'].intercalate (b.toList.splitOn '/') := by rw [hsplit]
      _ = b.toList := List.intercalate_splitOn '/'
  exact String.toList_injective hlist

theorem AssetRecord.path_injective {r r' : AssetRecord} (h : r.path outDir = r'.path outDir) :
    r.hashedName = r'.hashedName :=
  components_injective (List.append_cancel_left h)

/-- The other names of the build stay out of `cja-assets`. -/
theorem not_prefix_final (outDir : Path) {name : String} (h : name ≠ "cja-assets") (rest : Path) :
    ¬ (outDir ++ [name]) <+: finalDir outDir ++ rest := by
  rw [finalDir, List.append_assoc, List.prefix_append_right_inj]
  intro hextends
  exact h (List.cons_prefix_cons.1 hextends).1

theorem ne_path {name : String} (h : name ≠ "cja-assets") (r : AssetRecord) :
    r.path outDir ≠ outDir ++ [name] := by
  intro heq
  apply not_prefix_final outDir h (components r.hashedName)
  rw [← heq]
  exact List.prefix_refl _

theorem ne_of_prefix_path {name : String} (h : name ≠ "cja-assets") {r : AssetRecord} {q : Path}
    (hq : q <+: (r.path outDir).dropLast) : q ≠ outDir ++ [name] := by
  rintro rfl
  exact not_prefix_final outDir h (components r.hashedName) (hq.trans (List.dropLast_prefix _))

/-- What stands at the path of the manifest. -/
def Stands (outDir : Path) (M : Option Node → Prop) (t : Tree) : Prop := M (t (manifestPath outDir))

/-- Nothing is found at an empty place, and none at a dangling link. -/
def Unseen (node : Option Node) : Prop := Tree.occupied (fun _ => node) [] = false

theorem Stands.set {M : Option Node → Prop} {t : Tree} {q : Path} {node : Option Node}
    (h : Stands outDir M t) (hq : q ≠ manifestPath outDir) : Stands outDir M (t.set q node) := by
  unfold Stands at *
  rwa [Tree.set_of_ne _ _ hq.symm]

theorem Done.set {t : Tree} {q : Path} {node : Option Node} (h : Done outDir outputs t)
    (hq : ∀ r ∈ outputs, r.path outDir ≠ q) : Done outDir outputs (t.set q node) := by
  intro r hr
  have hcontent := h r hr
  unfold Tree.content at *
  rwa [Tree.set_of_ne _ _ (hq r hr)]

section

variable {M : Option Node → Prop}

theorem writeOutput_ends {r : AssetRecord} (hr : r.hashedName ∉ outputs.map AssetRecord.hashedName) :
    Ends (fun d : Disk => Stands outDir M d.tree ∧ Done outDir outputs d.tree) (writeOutput outDir r)
      (fun _ d => Stands outDir M d.tree ∧ Done outDir (outputs ++ [r]) d.tree)
      (fun d => Stands outDir M d.tree) := by
  unfold writeOutput
  refine Ends.bind
    (R := fun _ (d : Disk) => Stands outDir M d.tree ∧ Done outDir outputs d.tree) ?_ fun _ => ?_
  · refine Ends.io ((createDirAll_keeps
      (I := fun t => Stands outDir M t ∧ Done outDir outputs t) ?_).weaken (fun _ h => h)
        (fun _ _ h => h) fun _ h => h.1)
    rintro t q hq hnone ⟨hstands, hdone⟩
    refine ⟨hstands.set (ne_of_prefix_path (by decide) hq), hdone.set fun r' hr' => ?_⟩
    rintro rfl
    have hcontent := hdone r' hr'
    simp [Tree.content, hnone] at hcontent
  · refine Ends.io ((write_ends
      (I := fun t => Stands outDir M t ∧ Done outDir outputs t) ?_).weaken (fun _ h => h)
        (fun _ d h => ⟨h.1.1, ?_⟩) fun _ h => h.1)
    · rintro t node ⟨hstands, hdone⟩
      refine ⟨hstands.set (ne_path (by decide) r), hdone.set fun r' hr' heq => hr ?_⟩
      rw [← AssetRecord.path_injective heq]
      exact List.mem_map_of_mem hr'
    · intro r' hr'
      obtain hr' | hr' := List.mem_append.1 hr'
      · exact h.1.2 r' hr'
      · rw [List.mem_singleton.1 hr']
        exact h.2

theorem writeOutputs_ends (rest : List AssetRecord) (hd : Distinct (outputs ++ rest)) :
    Ends (fun d : Disk => Stands outDir M d.tree ∧ Done outDir outputs d.tree)
      (rest.forM (writeOutput outDir))
      (fun _ d => Stands outDir M d.tree ∧ Done outDir (outputs ++ rest) d.tree)
      (fun d => Stands outDir M d.tree) := by
  induction rest generalizing outputs with
  | nil => exact .of_pure fun _ h => by simpa using h
  | cons r rest ih =>
      have hr : r.hashedName ∉ outputs.map AssetRecord.hashedName := by
        unfold Distinct at hd
        rw [List.map_append, List.nodup_append] at hd
        intro hmem
        exact hd.2.2 _ hmem r.hashedName (List.mem_cons_self ..) rfl
      refine Ends.bind (writeOutput_ends hr) fun _ => ?_
      have hd' : Distinct ((outputs ++ [r]) ++ rest) := by simpa using hd
      have hrest := ih hd'
      simpa using hrest

theorem publish_ends (hd : Distinct outputs) :
    Ends (fun d : Disk => Stands outDir M d.tree) (publish outDir outputs)
      (fun _ d => Published outDir outputs d.tree) (fun d => Stands outDir M d.tree) := by
  unfold publish
  refine Ends.bind
    (R := fun _ (d : Disk) => Stands outDir M d.tree ∧ Done outDir outputs d.tree) ?_ fun _ => ?_
  · have hd' : Distinct ([] ++ outputs) := by simpa using hd
    refine (writeOutputs_ends outputs hd').weaken (fun d h => ⟨h, ?_⟩)
      (fun _ _ h => by simpa using h) fun _ h => h
    intro r hr
    cases hr
  have hpending : pendingPath outDir ≠ manifestPath outDir := by
    intro heq
    have hname := List.append_cancel_left heq
    simp at hname
  refine Ends.bind (R := fun _ (d : Disk) => (Stands outDir M d.tree ∧ Done outDir outputs d.tree) ∧
    d.tree.content (pendingPath outDir) = some (encodeUtf8 (manifestText outputs))) ?_ fun _ => ?_
  · refine Ends.io ((write_ends
      (I := fun t => Stands outDir M t ∧ Done outDir outputs t) ?_).weaken (fun _ h => h)
        (fun _ d h => h) fun _ h => h.1)
    rintro t node ⟨hstands, hdone⟩
    exact ⟨hstands.set hpending, hdone.set fun r _ => ne_path (by decide) r⟩
  · refine Ends.io ((rename_ends
      (I := fun t => Stands outDir M t ∧ Done outDir outputs t) (J := Done outDir outputs) ?_).weaken
        (fun _ h => h) (fun _ d h => ⟨h.2, h.1⟩) fun _ h => h.1)
    rintro t node ⟨_, hdone⟩
    exact (hdone.set fun r _ => ne_path (by decide) r).set fun r _ => ne_path (by decide) r

theorem stands_guarded : Guarded outDir (Stands outDir M) := by
  intro t t' hsame hstands
  have hmanifest : guarded outDir (manifestPath outDir) = true := by
    rw [guarded, manifestPath, Bool.and_eq_true]
    constructor
    · exact List.isPrefixOf_iff_prefix.2 (List.prefix_append ..)
    · rw [List.getElem?_concat_length]
      decide
  unfold Stands at *
  rwa [hsame _ hmanifest]

/-- After the first steps, what stands at the path of the manifest stays there unless
the build succeeds. -/
theorem rest_ends : Ends (fun d : Disk => Stands outDir M d.tree)
    (do
      let outputs ← collectOutputs H b manifestDir outDir
      publish outDir outputs
      pure outputs : Build (List AssetRecord))
    (fun outputs d => Published outDir outputs d.tree) (fun d => Stands outDir M d.tree) := by
  refine Ends.bind (collectOutputs_ends stands_guarded) fun outputs => ?_
  refine Ends.assume fun hd => ?_
  refine Ends.bind (publish_ends hd) fun _ => ?_
  exact .of_pure fun _ h => h

end

/-! ## The first steps -/

/-- The number of the operation that creates `cja-assets`: the removal before it
runs only where the test finds something. -/
def createIndex (outDir : Path) (d : Disk) : ℕ :=
  if d.sees (finalDir outDir) then d.operations + 2 else d.operations + 1

/-- The removal of the old `cja-assets` goes through: it is no file. -/
def Removes (outDir : Path) (d : Disk) : Prop :=
  d.sees (finalDir outDir) = true →
    d.faults (d.operations + 1) = none ∧ ∀ bytes, d.tree (finalDir outDir) ≠ some (.file bytes)

/-- The new `cja-assets` can be made: nothing but directories on the way, and nothing
in its place that is neither removed nor a directory. -/
def Creates (outDir : Path) (d : Disk) : Prop :=
  d.faults (createIndex outDir d) = none ∧
    (d.sees (finalDir outDir) = false →
      d.tree.isDir (finalDir outDir) = true ∨ d.tree (finalDir outDir) = none) ∧
    ∀ q, q <+: outDir → q ≠ [] → d.tree.isDir q = true ∨ d.tree q = none

/-- The old manifest is found and its removal goes through: it is no directory. -/
def Unlinks (outDir : Path) (d : Disk) : Prop :=
  ({ d with operations := createIndex outDir d + 1 } : Disk).sees (manifestPath outDir) = true ∧
    d.faults (createIndex outDir d + 2) = none ∧ d.tree (manifestPath outDir) ≠ some .dir

/-- The first operations go through. -/
structure Clears (outDir : Path) (d : Disk) : Prop where
  removes : Removes outDir d
  creates : Creates outDir d
  unlinks : Unlinks outDir d

theorem not_final_prefix_manifest : ¬ finalDir outDir <+: manifestPath outDir := by
  rw [finalDir, manifestPath, List.prefix_append_right_inj]
  intro hextends
  have hname := (List.cons_prefix_cons.1 hextends).1
  simp at hname

theorem outcome_io_fault {α : Type} {path : Path} {run : Tree → Except IoError α × Tree}
    {partway : Fault → Tree → Tree} {fault : Fault} (h : d.faults d.operations = some fault) :
    outcome (io path (operation run partway)) d =
      (.error (.io path fault.error), ⟨partway fault d.tree, d.faults, d.operations + 1⟩) := by
  simp only [io, mapErr, outcome_ofOutcome, outcome_operation_faulty h, Except.mapError]

theorem outcome_io {α : Type} {path : Path} {run : Tree → Except IoError α × Tree}
    {partway : Fault → Tree → Tree} (h : d.faults d.operations = none) :
    outcome (io path (operation run partway)) d =
      ((run d.tree).1.mapError (.io path), ⟨(run d.tree).2, d.faults, d.operations + 1⟩) := by
  simp only [io, mapErr, outcome_ofOutcome, outcome_operation h]

/-- The disk after a test. -/
def tested (d : Disk) : Disk := { d with operations := d.operations + 1 }

@[simp] theorem tested_tree : (tested d).tree = d.tree := rfl

@[simp] theorem tested_faults : (tested d).faults = d.faults := rfl

@[simp] theorem tested_operations : (tested d).operations = d.operations + 1 := rfl

theorem outcome_removeExisting {path : Path} {op : Io Unit} :
    outcome (removeExisting path op) d =
      if d.sees path then outcome (io path op) (tested d) else (.ok (), tested d) := by
  unfold removeExisting
  have hlook : outcome (look fun t => t.occupied path : Build Bool) d = (.ok (d.sees path), tested d) :=
    rfl
  rw [outcome_bind_ok hlook]
  split <;> rfl

/-- The first operation, on a `cja-assets` that is found. -/
theorem remove_final (hsees : d.sees (finalDir outDir) = true) :
    (Removes outDir d ∧ ∃ t, outcome (removeExisting (finalDir outDir)
        (removeDirAll (finalDir outDir))) d = (.ok (), ⟨t, d.faults, d.operations + 2⟩) ∧
      t (finalDir outDir) = none ∧ ∀ q, ¬ finalDir outDir <+: q → t q = d.tree q) ∨
    (¬ Removes outDir d ∧ ∃ e d', outcome (removeExisting (finalDir outDir)
        (removeDirAll (finalDir outDir))) d = (.error e, d') ∧
      d'.tree (manifestPath outDir) = d.tree (manifestPath outDir)) := by
  rw [outcome_removeExisting, if_pos hsees, removeDirAll]
  cases hf : d.faults (d.operations + 1) with
  | some fault =>
      right
      refine ⟨fun h => ?_, _, _, outcome_io_fault (d := tested d) hf, ?_⟩
      · rw [(h hsees).1] at hf
        cases hf
      · simp [not_final_prefix_manifest]
  | none =>
      rw [outcome_io (d := tested d) hf]
      simp only [tested_tree, tested_faults, tested_operations]
      cases hnode : d.tree (finalDir outDir) with
      | none =>
          have hocc := Disk.occupied_of_sees hsees
          simp [Tree.occupied, hnode] at hocc
      | some node =>
          cases node with
          | file bytes => exact .inr ⟨fun h => (h hsees).2 bytes hnode, _, _, rfl, rfl⟩
          | dir =>
              refine .inl ⟨fun _ => ⟨hf, by simp [hnode]⟩, _, rfl, by simp, fun q hq => by simp [hq]⟩
          | link target =>
              refine .inl ⟨fun _ => ⟨hf, by simp [hnode]⟩, _, rfl, by simp, fun q hq => ?_⟩
              apply Tree.set_of_ne
              rintro rfl
              exact hq (List.prefix_refl _)

/-- The second operation, from a disk whose `cja-assets` is gone or was never a
file or a directory. -/
theorem create_final (outDir : Path) (d : Disk) :
    (d.faults d.operations = none ∧
        (∀ q, q <+: finalDir outDir → q ≠ [] → d.tree.isDir q = true ∨ d.tree q = none) ∧
      ∃ t, outcome (io (finalDir outDir) (createDirAll (finalDir outDir))) d =
        (.ok (), ⟨t, d.faults, d.operations + 1⟩) ∧
      t (manifestPath outDir) = d.tree (manifestPath outDir)) ∨
    (¬ (d.faults d.operations = none ∧
        ∀ q, q <+: finalDir outDir → q ≠ [] → d.tree.isDir q = true ∨ d.tree q = none) ∧
      ∃ e d', outcome (io (finalDir outDir) (createDirAll (finalDir outDir))) d =
        (.error e, d') ∧ d'.tree (manifestPath outDir) = d.tree (manifestPath outDir)) := by
  have hkeep : ∀ ps t, (∀ q ∈ ps, q <+: finalDir outDir) →
      (Tree.mkdirs ps t).2 (manifestPath outDir) = t (manifestPath outDir) := by
    intro ps t hps
    refine Tree.mkdirs_induct (I := fun t' => t' (manifestPath outDir) = t (manifestPath outDir))
      ps (fun t' q hq _ h => ?_) rfl
    rw [Tree.set_of_ne, h]
    rintro rfl
    have hextends : (outDir ++ ["cja_assets.rs"]) <+: finalDir outDir ++ [] := by
      simpa [manifestPath] using hps _ hq
    exact not_prefix_final outDir (by decide) [] hextends
  have hmem : ∀ q ∈ (finalDir outDir).inits.tail, q <+: finalDir outDir :=
    fun q hq => (mem_inits_tail.1 hq).1
  rw [createDirAll]
  cases hf : d.faults d.operations with
  | some fault =>
      refine .inr ⟨by simp, _, _, outcome_io_fault hf, ?_⟩
      exact hkeep _ _ fun q hq => hmem q (List.mem_of_mem_take hq)
  | none =>
      rw [outcome_io hf]
      have hok := Tree.mkdirs_ok (t := d.tree) (finalDir outDir).inits.tail
      simp only [mem_inits_tail, and_imp] at hok
      cases hr : (d.tree.mkdirs (finalDir outDir).inits.tail).1 with
      | ok u =>
          cases u
          exact .inl ⟨rfl, hok.1 hr, _, rfl, hkeep _ _ hmem⟩
      | error e =>
          refine .inr ⟨fun h => ?_, _, _, rfl, hkeep _ _ hmem⟩
          rw [hok.2 h.2] at hr
          cases hr

/-- The last of the first steps, on a manifest that is there: it is removed, or it
stays and the step fails, or the test overlooks it. -/
theorem remove_manifest (hocc : d.tree.occupied (manifestPath outDir) = true) :
    ((d.sees (manifestPath outDir) = true ∧ d.faults (d.operations + 1) = none ∧
        d.tree (manifestPath outDir) ≠ some .dir) ∧
      ∃ d', outcome (removeExisting (manifestPath outDir) (removeFile (manifestPath outDir))) d =
        (.ok (), d') ∧ Vacant outDir d'.tree) ∨
    (¬ (d.sees (manifestPath outDir) = true ∧ d.faults (d.operations + 1) = none ∧
        d.tree (manifestPath outDir) ≠ some .dir) ∧
      ∃ r d', outcome (removeExisting (manifestPath outDir) (removeFile (manifestPath outDir))) d =
        (r, d') ∧ d'.tree.occupied (manifestPath outDir) = true) := by
  rw [outcome_removeExisting, removeFile]
  by_cases hsees : d.sees (manifestPath outDir) = true
  · rw [if_pos hsees]
    cases hf : d.faults (d.operations + 1) with
    | some fault => exact .inr ⟨by simp, _, _, outcome_io_fault (d := tested d) hf, hocc⟩
    | none =>
        rw [outcome_io (d := tested d) hf]
        simp only [tested_tree, tested_faults, tested_operations]
        have hvacant : Vacant outDir (d.tree.set (manifestPath outDir) none) := by
          simp [Vacant, Tree.occupied]
        cases hnode : d.tree (manifestPath outDir) with
        | none => simp [Tree.occupied, hnode] at hocc
        | some node =>
            cases node with
            | dir => exact .inr ⟨by simp, _, _, rfl, hocc⟩
            | file bytes => exact .inl ⟨⟨hsees, by simp⟩, _, rfl, hvacant⟩
            | link target => exact .inl ⟨⟨hsees, by simp⟩, _, rfl, hvacant⟩
  · rw [if_neg hsees]
    exact .inr ⟨fun h => hsees h.1, _, _, rfl, hocc⟩

/-- What comes after the removal of the old `cja-assets` goes through. -/
structure Finishes (outDir : Path) (d : Disk) : Prop where
  create : d.faults d.operations = none
  way : ∀ q, q <+: finalDir outDir → q ≠ [] → d.tree.isDir q = true ∨ d.tree q = none
  found : (tested d).sees (manifestPath outDir) = true
  unlink : d.faults (d.operations + 2) = none
  file : d.tree (manifestPath outDir) ≠ some .dir

/-- `clearOutputs` after its first step. -/
def clearRest (outDir : Path) : Build Unit := do
  io (finalDir outDir) (createDirAll (finalDir outDir))
  removeExisting (manifestPath outDir) (removeFile (manifestPath outDir))

theorem clearRest_cases (hocc : d.tree.occupied (manifestPath outDir) = true) :
    (Finishes outDir d ∧ ∃ d', outcome (clearRest outDir) d = (.ok (), d') ∧
      Vacant outDir d'.tree) ∨
    (¬ Finishes outDir d ∧ ∃ r d', outcome (clearRest outDir) d = (r, d') ∧
      d'.tree.occupied (manifestPath outDir) = true) := by
  unfold clearRest
  obtain ⟨hfault, hway, t, hrun, hsame⟩ | ⟨hbad, e, d', hrun, hsame⟩ :=
    create_final outDir d
  · have hocc' : t.occupied (manifestPath outDir) = true :=
      (Tree.occupied_congr hsame).trans hocc
    have hsees : (⟨t, d.faults, d.operations + 1⟩ : Disk).sees (manifestPath outDir) =
        (tested d).sees (manifestPath outDir) := Disk.sees_congr rfl hsame
    rw [outcome_bind_ok hrun]
    obtain ⟨⟨hfound, hunlink, hfile⟩, d', hrun', hvacant⟩ | ⟨hbad, r, d', hrun', hstill⟩ :=
      remove_manifest (d := ⟨t, d.faults, d.operations + 1⟩) hocc'
    · exact .inl ⟨⟨hfault, hway, hsees ▸ hfound, hunlink, fun h => hfile (hsame.trans h)⟩,
        d', hrun', hvacant⟩
    · refine .inr ⟨fun h => hbad ⟨hsees.trans h.found, h.unlink, fun hdir => ?_⟩,
        r, d', hrun', hstill⟩
      exact h.file (hsame.symm.trans hdir)
  · refine .inr ⟨fun h => hbad ⟨h.create, h.way⟩, _, d', outcome_bind_error hrun, ?_⟩
    exact (Tree.occupied_congr hsame).trans hocc

/-- The way to `cja-assets` is the way to `OUT_DIR` and the place itself. -/
theorem way_iff {t : Tree} :
    (∀ q, q <+: finalDir outDir → q ≠ [] → t.isDir q = true ∨ t q = none) ↔
      (t.isDir (finalDir outDir) = true ∨ t (finalDir outDir) = none) ∧
        ∀ q, q <+: outDir → q ≠ [] → t.isDir q = true ∨ t q = none := by
  constructor
  · intro h
    refine ⟨h _ (List.prefix_refl _) (by simp [finalDir]), fun q hq => ?_⟩
    exact h q (hq.trans (List.prefix_append ..))
  · rintro ⟨hfinal, hway⟩ q hq hne
    obtain rfl | hq := List.prefix_concat_iff.1 hq
    · exact hfinal
    · exact hway q hq hne

theorem final_not_below {q : Path} (hq : q <+: outDir) : ¬ finalDir outDir <+: q := by
  intro h
  have hlength := (h.trans hq).length_le
  simp only [finalDir, List.length_append, List.length_singleton] at hlength
  omega

/-- With a manifest in place, the first steps remove it if all of them go through,
and leave it otherwise. -/
theorem clearOutputs_cases (hocc : d.tree.occupied (manifestPath outDir) = true) :
    (Clears outDir d ∧ ∃ d', outcome (clearOutputs outDir) d = (.ok (), d') ∧
      Vacant outDir d'.tree) ∨
    (¬ Clears outDir d ∧ ∃ r d', outcome (clearOutputs outDir) d = (r, d') ∧
      d'.tree.occupied (manifestPath outDir) = true) := by
  change (_ ∧ ∃ d', outcome (removeExisting (finalDir outDir) (removeDirAll (finalDir outDir)) >>=
    fun _ => clearRest outDir) d = _ ∧ _) ∨ (_ ∧ ∃ r d', outcome (removeExisting (finalDir outDir)
    (removeDirAll (finalDir outDir)) >>= fun _ => clearRest outDir) d = _ ∧ _)
  by_cases hfinal : d.sees (finalDir outDir) = true
  · have hindex : createIndex outDir d = d.operations + 2 := if_pos hfinal
    obtain ⟨hremoves, t, hrun, hgone, hsame⟩ | ⟨hbad, e, d', hrun, hsame⟩ := remove_final hfinal
    · have hmanifest : t (manifestPath outDir) = d.tree (manifestPath outDir) :=
        hsame _ not_final_prefix_manifest
      have hiff : Clears outDir d ↔ Finishes outDir ⟨t, d.faults, d.operations + 2⟩ := by
        have hsees : (tested ⟨t, d.faults, d.operations + 2⟩).sees (manifestPath outDir) =
            ({ d with operations := createIndex outDir d + 1 } : Disk).sees (manifestPath outDir) :=
          Disk.sees_congr (by rw [hindex]; rfl) hmanifest
        have hdirs : ∀ q, q <+: outDir → t.isDir q = d.tree.isDir q ∧ t q = d.tree q := by
          intro q hq
          have hq := hsame q (final_not_below hq)
          exact ⟨by rw [Tree.isDir, Tree.isDir, hq], hq⟩
        constructor
        · intro h
          refine ⟨hindex ▸ h.creates.1, way_iff.2 ⟨.inr hgone, fun q hq hne => ?_⟩,
            hsees.trans h.unlinks.1, hindex ▸ h.unlinks.2.1,
            fun hdir => h.unlinks.2.2 (hmanifest.symm.trans hdir)⟩
          change t.isDir q = true ∨ t q = none
          rw [(hdirs q hq).1, (hdirs q hq).2]
          exact h.creates.2.2 q hq hne
        · intro h
          refine ⟨hremoves, ⟨hindex ▸ h.create, ?_, fun q hq hne => ?_⟩,
            hsees.symm.trans h.found, hindex ▸ h.unlink,
            fun hdir => h.file (hmanifest.trans hdir)⟩
          · rw [hfinal]
            exact Bool.noConfusion
          · rw [← (hdirs q hq).1, ← (hdirs q hq).2]
            exact (way_iff.1 h.way).2 q hq hne
      rw [outcome_bind_ok hrun, hiff]
      exact clearRest_cases (d := ⟨t, d.faults, d.operations + 2⟩)
        ((Tree.occupied_congr hmanifest).trans hocc)
    · refine .inr ⟨fun h => hbad h.removes, _, d', outcome_bind_error hrun, ?_⟩
      exact (Tree.occupied_congr hsame).trans hocc
  · have hindex : createIndex outDir d = d.operations + 1 := if_neg hfinal
    have hrun : outcome (removeExisting (finalDir outDir) (removeDirAll (finalDir outDir))) d =
        (.ok (), tested d) := by
      rw [outcome_removeExisting, if_neg hfinal]
    have hsees : (tested (tested d)).sees (manifestPath outDir) =
        ({ d with operations := createIndex outDir d + 1 } : Disk).sees (manifestPath outDir) :=
      Disk.sees_congr (by rw [hindex]; rfl) rfl
    have hiff : Clears outDir d ↔ Finishes outDir (tested d) := by
      constructor
      · intro h
        have hcreate : d.faults (d.operations + 1) = none := hindex ▸ h.creates.1
        have hunlink : d.faults (d.operations + 1 + 2) = none := hindex ▸ h.unlinks.2.1
        exact ⟨hcreate, way_iff.2 ⟨h.creates.2.1 (by simpa using hfinal), h.creates.2.2⟩,
          hsees.trans h.unlinks.1, hunlink, h.unlinks.2.2⟩
      · intro h
        obtain ⟨hplace, hway⟩ := way_iff.1 h.way
        exact ⟨fun hfound => absurd hfound hfinal, ⟨hindex ▸ h.create, fun _ => hplace, hway⟩,
          hsees.symm.trans h.found, hindex ▸ h.unlink, h.file⟩
    rw [outcome_bind_ok hrun, hiff]
    exact clearRest_cases (d := tested d) hocc

theorem removeExisting_keeps {path : Path} {op : Io Unit}
    (h : Keeps (fun d : Disk => I d.tree) op) :
    Keeps (fun d : Disk => I d.tree) (removeExisting path op) := by
  unfold removeExisting
  refine Ends.bind (look_keeps _) fun occupied => ?_
  split
  · exact Ends.io h
  · exact .of_pure fun _ hI => hI

theorem clearOutputs_keeps_vacant :
    Keeps (fun d : Disk => Vacant outDir d.tree) (clearOutputs outDir) := by
  unfold clearOutputs
  refine Ends.bind (removeExisting_keeps (removeDirAll_keeps (I := Unseen)
    not_final_prefix_manifest)) fun _ => ?_
  refine Ends.bind (Ends.io (createDirAll_keeps (I := Vacant outDir) fun t q hq _ h => ?_))
    fun _ => ?_
  · apply Stands.set (M := Unseen) h
    rintro rfl
    have hq : (outDir ++ ["cja_assets.rs"]) <+: finalDir outDir ++ [] := by
      simpa [manifestPath] using hq
    exact not_prefix_final outDir (by decide) [] hq
  · refine removeExisting_keeps (removeFile_keeps (I := Vacant outDir) fun t _ => ?_)
    simp [Vacant, Tree.occupied]

/-! ## Builds -/

/-- A build that fails leaves no manifest, and one that succeeds publishes what it
says. -/
def LeavesNoStale (H : Host) (b : AssetsBuilder) (manifestDir outDir : Path) (d : Disk) : Prop :=
  (∀ e d', outcome (buildIn H b manifestDir outDir) d = (.error e, d') → Vacant outDir d'.tree) ∧
    ∀ outputs d', outcome (buildIn H b manifestDir outDir) d = (.ok outputs, d') →
      Published outDir outputs d'.tree

/-- From a disk without a manifest, or with one that goes. -/
theorem leavesNoStale (hclear : Ends (fun d' : Disk => d' = d) (clearOutputs outDir)
      (fun _ d => Vacant outDir d.tree) (fun d => Vacant outDir d.tree)) :
    LeavesNoStale H b manifestDir outDir d := by
  have hends : Ends (fun d' : Disk => d' = d) (buildIn H b manifestDir outDir)
      (fun outputs d => Published outDir outputs d.tree) (fun d => Vacant outDir d.tree) := by
    unfold buildIn
    exact Ends.bind hclear fun _ => rest_ends (M := Unseen)
  exact ⟨fun e d' h => hends.error d e d' rfl h, fun outputs d' h => hends.ok d outputs d' rfl h⟩

/-- A host without tools. -/
def Host.bare : Host where
  canonicalize := fun _ path => .ok path
  readDir := fun _ _ => []
  maxDepth := 1
  sha256Hex := fun _ => "ba7816bf"
  mimeGuess := fun _ => "application/octet-stream"
  watchConfig := fun _ _ _ => .ok ()
  checkTypes := fun _ _ _ _ t => (.error "no tsc", t)
  bundleEntry := fun _ _ t => (.error "no bundler", t)
  sourceMap := fun map _ => .ok map
  validateCss := fun _ css _ _ => .ok css
  resolveTailwind := fun t => (.error "no tailwind", t)
  runTailwind := fun _ _ t => (.error "no tailwind", t)
  tailwindVersion := "4"

/-- A build of one Tailwind input without a name. -/
def nameless : AssetsBuilder := ⟨none, .relative ["frontend"], [], [⟨.relative ["app.css"], ""⟩]⟩

/-- It fails before it touches the disk. -/
theorem nameless_fails : ∃ e, outcome (collectOutputs Host.bare nameless manifestDir outDir) d =
    (.error e, d) := ⟨_, rfl⟩

/-- The failed builds of every configuration leave no manifest exactly if none was
there, or the first operations go through; a build that succeeds always publishes
what it says. -/
theorem no_stale_manifest (outDir : Path) (d : Disk) :
    (∀ H b manifestDir, LeavesNoStale H b manifestDir outDir d) ↔
      Vacant outDir d.tree ∨ Clears outDir d := by
  by_cases hvacant : Vacant outDir d.tree
  · refine ⟨fun _ => .inl hvacant, fun _ H b manifestDir => leavesNoStale ?_⟩
    exact clearOutputs_keeps_vacant.weaken (fun d' h => h ▸ hvacant) (fun _ _ h => h) fun _ h => h
  · have hocc : d.tree.occupied (manifestPath outDir) = true := by
      simpa [Vacant] using hvacant
    obtain ⟨hclears, d₁, hrun, hgone⟩ | ⟨hbad, r, d₁, hrun, hstill⟩ := clearOutputs_cases hocc
    · refine ⟨fun _ => .inr hclears, fun _ H b manifestDir => leavesNoStale ⟨?_, ?_⟩⟩
      · rintro _ u d' rfl h
        cases hrun.symm.trans h
        exact hgone
      · rintro _ e d' rfl h
        cases hrun.symm.trans h
    · constructor
      · -- the manifest is still there where the build fails
        intro hall
        obtain ⟨e, d', hfail, hsame⟩ : ∃ e d', outcome (buildIn Host.bare nameless [] outDir) d =
            (.error e, d') ∧ d'.tree.occupied (manifestPath outDir) = true := by
          cases r with
          | error e => exact ⟨e, d₁, outcome_bind_error hrun, hstill⟩
          | ok u =>
              obtain ⟨e, hnameless⟩ : ∃ e, outcome (collectOutputs Host.bare nameless [] outDir) d₁ =
                  (.error e, d₁) := nameless_fails
              refine ⟨e, d₁, ?_, hstill⟩
              rw [buildIn, outcome_bind_ok hrun]
              exact outcome_bind_error hnameless
        have hnone := (hall Host.bare nameless []).1 e d' hfail
        rw [Vacant, hsame] at hnone
        cases hnone
      · rintro (h | h)
        · exact absurd h hvacant
        · exact absurd h hbad

/-- `OUT_DIR` holds a manifest, and a file in the place of `cja-assets`. -/
def leftover : Disk where
  tree := fun p =>
    if p = [] ∨ p = ["out"] then some .dir
    else if p = ["out", "cja-assets"] ∨ p = ["out", "cja_assets.rs"] then some (.file [])
    else none
  faults := fun _ => none
  operations := 0

/-- No operation meets a fault, the build fails, and the old manifest stays. -/
theorem stale_manifest : ∃ e d',
    outcome (buildIn Host.bare ⟨none, .relative ["frontend"], [], []⟩ ["app"] ["out"]) leftover =
      (.error e, d') ∧ ¬ Vacant ["out"] d'.tree := by
  have hocc : leftover.tree.occupied (manifestPath ["out"]) = true := by decide
  have hbad : ∃ e d', outcome (clearOutputs ["out"]) leftover = (.error e, d') ∧
      d'.tree (manifestPath ["out"]) = leftover.tree (manifestPath ["out"]) := by
    have hsees : leftover.sees (finalDir ["out"]) = true := by decide
    obtain ⟨hremoves, _⟩ | ⟨_, e, d', hrun, hsame⟩ := remove_final hsees
    · exact absurd rfl ((hremoves (by decide)).2 [])
    · exact ⟨e, d', outcome_bind_error hrun, hsame⟩
  obtain ⟨e, d', hrun, hsame⟩ := hbad
  refine ⟨e, d', outcome_bind_error hrun, fun hvacant => ?_⟩
  rw [Vacant, Tree.occupied_congr hsame, hocc] at hvacant
  cases hvacant

end Cja.Assets
