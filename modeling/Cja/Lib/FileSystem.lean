import Cja.Lib.Fallible

/-!
# A file system whose operations may fail

Paths are lists of components from the root. A symbolic link leads out of the
tree, to a file or a directory of its own, or to nothing. The disk carries the
faults to come: the operation with a fault fails, and may have done part of its
work. The frame lemmas say which paths an operation can touch, failing or not.
-/
namespace FileSystem
open Fallible

abbrev Path := List String

abbrev Bytes := List UInt8

inductive Target where
  | file (bytes : Bytes)
  | dir
deriving Repr, DecidableEq

inductive Node where
  | file (bytes : Bytes)
  | dir
  | link (target : Option Target)
deriving Repr, DecidableEq

abbrev Tree := Path → Option Node

inductive IoError where
  | notFound | alreadyExists | notADirectory | isADirectory | nameTooLong | other
deriving Repr, DecidableEq

/-- An operation fails with `error` once it has done `progress` of its work; a
removal has spared what it `keeps`, and a test that answers for itself where a stat
fails, as `Path::exists` does, finds nothing else. -/
structure Fault where
  error : IoError
  progress : ℕ
  keeps : Path → Bool

structure Disk where
  tree : Tree
  faults : ℕ → Option Fault
  operations : ℕ

abbrev Io (α : Type) := ExceptT IoError (StateM Disk) α

/-! ## Looking at the tree -/

namespace Tree

/-- Whether a path leads to a file or a directory, links followed. -/
def occupied (t : Tree) (p : Path) : Bool :=
  match t p with
  | some (.file _) | some .dir | some (.link (some _)) => true
  | some (.link none) | none => false

def isDir (t : Tree) (p : Path) : Bool :=
  match t p with
  | some .dir | some (.link (some .dir)) => true
  | _ => false

def isFile (t : Tree) (p : Path) : Bool :=
  match t p with
  | some (.file _) | some (.link (some (.file _))) => true
  | _ => false

/-- The content of the file at a path, links followed. -/
def content (t : Tree) (p : Path) : Option Bytes :=
  match t p with
  | some (.file bytes) | some (.link (some (.file bytes))) => some bytes
  | _ => none

def set (t : Tree) (p : Path) (node : Option Node) : Tree := Function.update t p node

/-- `mkdir` along a list of paths. -/
def mkdirs : List Path → Tree → Except IoError Unit × Tree
  | [], t => (.ok (), t)
  | p :: ps, t =>
      if t.isDir p then mkdirs ps t
      else
        match t p with
        | none => mkdirs ps (t.set p (some .dir))
        | some _ => (.error .alreadyExists, t)

/-- The node that holds `bytes` after a write to the path. -/
def written (t : Tree) (p : Path) (bytes : Bytes) : Except IoError Node :=
  match t p with
  | some .dir | some (.link (some .dir)) => .error .isADirectory
  | some (.link _) => .ok (.link (some (.file bytes)))
  | some (.file _) => .ok (.file bytes)
  | none => if t.isDir p.dropLast then .ok (.file bytes) else .error .notFound

end Tree

/-- What a test sees: where its stat fails, nothing is there. -/
def Disk.seen (d : Disk) : Tree :=
  match d.faults d.operations with
  | some fault => fun p => if fault.keeps p then d.tree p else none
  | none => d.tree

/-- `Path::exists`. -/
def Disk.sees (d : Disk) (p : Path) : Bool := d.seen.occupied p

/-! ## Operations -/

def Disk.withTree (d : Disk) (t : Tree) : Disk := { d with tree := t }

/-- A test of the tree, which never fails itself. -/
def look {ε α : Type} (f : Tree → α) : ExceptT ε (StateM Disk) α :=
  ofOutcome fun d => (.ok (f d.seen), { d with operations := d.operations + 1 })

/-- An operation: what it does to the tree where it is left alone, and where it
meets a fault. -/
def operation {α : Type} (run : Tree → Except IoError α × Tree) (partway : Fault → Tree → Tree) :
    Io α :=
  ofOutcome fun d =>
    match d.faults d.operations with
    | some fault => (.error fault.error, ⟨partway fault d.tree, d.faults, d.operations + 1⟩)
    | none => ((run d.tree).1, ⟨(run d.tree).2, d.faults, d.operations + 1⟩)

/-- `fs::remove_dir_all`: a link is removed and not followed. -/
def removeDirAll (p : Path) : Io Unit :=
  operation
    (fun t =>
      match t p with
      | some .dir => (.ok (), fun q => if p <+: q then none else t q)
      | some (.link _) => (.ok (), t.set p none)
      | some (.file _) => (.error .notADirectory, t)
      | none => (.error .notFound, t))
    fun fault t q => if p <+: q && !fault.keeps q then none else t q

/-- `fs::create_dir_all`. -/
def createDirAll (p : Path) : Io Unit :=
  operation (fun t => t.mkdirs p.inits.tail)
    fun fault t => (t.mkdirs (p.inits.tail.take fault.progress)).2

def removeFile (p : Path) : Io Unit :=
  operation
    (fun t =>
      match t p with
      | some .dir => (.error .isADirectory, t)
      | some _ => (.ok (), t.set p none)
      | none => (.error .notFound, t))
    fun _ t => t

/-- `fs::write`; the content may be cut short by a fault. -/
def write (p : Path) (bytes : Bytes) : Io Unit :=
  operation
    (fun t =>
      match t.written p bytes with
      | .ok node => (.ok (), t.set p (some node))
      | .error e => (.error e, t))
    fun fault t =>
      match fault.progress, t.written p (bytes.take (fault.progress - 1)) with
      | _ + 1, .ok node => t.set p (some node)
      | _, _ => t

/-- `fs::rename` of what is not a directory. -/
def rename (src dst : Path) : Io Unit :=
  operation
    (fun t =>
      match t src, t dst with
      | none, _ => (.error .notFound, t)
      | some .dir, _ => (.error .other, t)
      | some _, some .dir => (.error .isADirectory, t)
      | some node, _ => (.ok (), (t.set src none).set dst (some node)))
    fun _ t => t

def read (p : Path) : Io Bytes :=
  operation
    (fun t =>
      match t.content p with
      | some bytes => (.ok bytes, t)
      | none => (.error (if t.isDir p then .isADirectory else .notFound), t))
    fun _ t => t

/-- `fs::symlink_metadata` and `DirEntry::file_type`. -/
def symlinkMetadata (p : Path) : Io Node :=
  operation
    (fun t =>
      match t p with
      | some node => (.ok node, t)
      | none => (.error .notFound, t))
    fun _ t => t

/-- An operation that reads the tree by a function of the host. -/
def query {α : Type} (f : Tree → Except IoError α) : Io α :=
  operation (fun t => (f t, t)) fun _ t => t

/-! ## Frames -/

variable {α : Type} {p q : Path} {d : Disk} {t : Tree} {bytes : Bytes}

theorem outcome_operation_faulty {run : Tree → Except IoError α × Tree}
    {partway : Fault → Tree → Tree} {fault : Fault} (h : d.faults d.operations = some fault) :
    outcome (operation run partway) d =
      (.error fault.error, ⟨partway fault d.tree, d.faults, d.operations + 1⟩) := by
  simp only [operation, outcome_ofOutcome, h]

theorem outcome_operation {run : Tree → Except IoError α × Tree}
    {partway : Fault → Tree → Tree} (h : d.faults d.operations = none) :
    outcome (operation run partway) d =
      ((run d.tree).1, ⟨(run d.tree).2, d.faults, d.operations + 1⟩) := by
  simp only [operation, outcome_ofOutcome, h]

theorem look_keeps {ε : Type} {I : Tree → Prop} (f : Tree → α) :
    Keeps (fun d : Disk => I d.tree) (look f : ExceptT ε (StateM Disk) α) :=
  .of_outcome fun _ hI => hI

theorem Tree.occupied_congr {t' : Tree} (h : t' p = t p) : t'.occupied p = t.occupied p := by
  unfold occupied
  rw [h]

/-- What is seen depends on the fault of the test and on the path. -/
theorem Disk.sees_congr {d' : Disk} (hf : d'.faults d'.operations = d.faults d.operations)
    (h : d'.tree p = d.tree p) : d'.sees p = d.sees p := by
  unfold sees seen
  rw [hf]
  cases d.faults d.operations with
  | none => exact Tree.occupied_congr h
  | some fault => exact Tree.occupied_congr (by simp only [h])

/-- What is seen is there. -/
theorem Disk.occupied_of_sees (h : d.sees p = true) : d.tree.occupied p = true := by
  unfold sees seen at h
  cases hf : d.faults d.operations with
  | none =>
      rw [hf] at h
      exact h
  | some fault =>
      rw [hf] at h
      unfold Tree.occupied at h ⊢
      dsimp only at h
      split_ifs at h with hkeeps
      · exact h

/-- What both ways of an operation keep, it keeps. -/
theorem keeps_operation {I : Tree → Prop} {run : Tree → Except IoError α × Tree}
    {partway : Fault → Tree → Tree} (hrun : ∀ t, I t → I (run t).2)
    (hpart : ∀ fault t, I t → I (partway fault t)) :
    Keeps (fun d : Disk => I d.tree) (operation run partway) := by
  refine .of_outcome fun d hI => ?_
  cases h : d.faults d.operations with
  | none => rw [outcome_operation h]; exact hrun d.tree hI
  | some fault => rw [outcome_operation_faulty h]; exact hpart fault d.tree hI

theorem Tree.set_of_ne (t : Tree) (node : Option Node) (h : q ≠ p) : t.set p node q = t q :=
  Function.update_of_ne h ..

@[simp] theorem Tree.set_self (t : Tree) (p : Path) (node : Option Node) : t.set p node p = node :=
  Function.update_self ..

theorem removeDirAll_keeps {I : Option Node → Prop} (h : ¬ p <+: q) :
    Keeps (fun d : Disk => I (d.tree q)) (removeDirAll p) := by
  apply keeps_operation (I := fun t : Tree => I (t q))
  · intro t hI
    split
    · simpa [h] using hI
    · have hne : q ≠ p := by
        rintro rfl
        exact h (List.prefix_refl _)
      dsimp only
      rwa [Tree.set_of_ne _ _ hne]
    · exact hI
    · exact hI
  · intro fault t hI
    simpa [h] using hI

theorem Tree.mkdirs_induct {I : Tree → Prop} (ps : List Path)
    (h : ∀ t q, q ∈ ps → t q = none → I t → I (t.set q (some .dir))) (hI : I t) :
    I (t.mkdirs ps).2 := by
  induction ps generalizing t with
  | nil => exact hI
  | cons p ps ih =>
      have h' : ∀ t q, q ∈ ps → t q = none → I t → I (t.set q (some .dir)) :=
        fun t q hq => h t q (List.mem_cons_of_mem p hq)
      simp only [mkdirs]
      split
      · exact ih h' hI
      · split
        · rename_i hnone
          exact ih h' (h t p (List.mem_cons_self ..) hnone hI)
        · exact hI

theorem mem_inits_tail : q ∈ p.inits.tail ↔ q <+: p ∧ q ≠ [] := by
  cases p with
  | nil => simp
  | cons a l =>
      simp only [List.inits_cons, List.tail_cons, List.mem_map, List.mem_inits]
      constructor
      · rintro ⟨r, hr, rfl⟩
        exact ⟨List.cons_prefix_cons.2 ⟨rfl, hr⟩, List.cons_ne_nil a r⟩
      · rintro ⟨hq, hne⟩
        obtain ⟨b, r, rfl⟩ := List.exists_cons_of_ne_nil hne
        obtain ⟨rfl, hr⟩ := List.cons_prefix_cons.1 hq
        exact ⟨r, hr, rfl⟩

/-- Directories appear at empty places that lead to `p`. -/
theorem createDirAll_keeps {I : Tree → Prop}
    (h : ∀ t q, q <+: p → t q = none → I t → I (t.set q (some .dir))) :
    Keeps (fun d : Disk => I d.tree) (createDirAll p) := by
  apply keeps_operation
  · intro t hI
    exact Tree.mkdirs_induct _ (fun t q hq => h t q (mem_inits_tail.1 hq).1) hI
  · intro fault t hI
    refine Tree.mkdirs_induct _ (fun t q hq => h t q ?_) hI
    exact (mem_inits_tail.1 (List.mem_of_mem_take hq)).1

theorem Tree.mkdirs_ok (ps : List Path) :
    (t.mkdirs ps).1 = .ok () ↔ ∀ p ∈ ps, t.isDir p = true ∨ t p = none := by
  induction ps generalizing t with
  | nil => simp [mkdirs]
  | cons p ps ih =>
      simp only [mkdirs, List.forall_mem_cons]
      split
      · rename_i hdir
        rw [ih]
        simp [hdir]
      · rename_i hdir
        split
        · rename_i hnone
          rw [ih]
          have hsame : ∀ q, ((t.set p (some .dir)).isDir q = true ∨ t.set p (some .dir) q = none) ↔
              (t.isDir q = true ∨ t q = none) := by
            intro q
            by_cases hq : q = p
            · subst hq
              simp [isDir, hnone]
            · simp [isDir, Tree.set_of_ne _ _ hq]
          simp only [hsame, hnone, or_true, true_and]
        · rename_i node hsome
          simp [hdir, hsome]

theorem removeFile_keeps {I : Tree → Prop} (h : ∀ t, I t → I (t.set p none)) :
    Keeps (fun d : Disk => I d.tree) (removeFile p) := by
  apply keeps_operation
  · intro t hI
    split
    · exact hI
    · exact h t hI
    · exact hI
  · exact fun _ _ hI => hI

theorem Tree.content_written {node : Node} (h : t.written p bytes = .ok node) :
    (t.set p (some node)).content p = some bytes := by
  unfold written at h
  split at h
  · cases h
  · cases h
  · cases h
    simp [content]
  · cases h
    simp [content]
  · split at h
    · cases h
      simp [content]
    · cases h

/-- A write that succeeds leaves its content; a write touches its path alone. -/
theorem write_ends {I : Tree → Prop} (h : ∀ t node, I t → I (t.set p (some node))) :
    Ends (fun d : Disk => I d.tree) (write p bytes)
      (fun _ d => I d.tree ∧ d.tree.content p = some bytes) (fun d => I d.tree) where
  ok := by
    intro d a d' hI heq
    cases hf : d.faults d.operations with
    | some fault => rw [write, outcome_operation_faulty hf] at heq; cases heq
    | none =>
        rw [write, outcome_operation hf] at heq
        cases hw : d.tree.written p bytes with
        | error e => simp only [hw] at heq; cases heq
        | ok node =>
            simp only [hw] at heq
            cases heq
            exact ⟨h d.tree node hI, Tree.content_written hw⟩
  error := by
    intro d e d' hI heq
    have hkeeps : Keeps (fun d : Disk => I d.tree) (write p bytes) := by
      apply keeps_operation
      · intro t hI
        split
        · exact h t _ hI
        · exact hI
      · intro fault t hI
        cases hp : fault.progress with
        | zero => exact hI
        | succ n =>
            cases hw : t.written p (bytes.take n) with
            | error e => simpa [hp, hw] using hI
            | ok node => simpa [hp, hw] using h t node hI
    exact hkeeps.error d e d' hI heq

/-- A rename that fails moves nothing. -/
theorem rename_ends {I : Tree → Prop} {J : Tree → Prop} {src dst : Path} {bytes : Bytes}
    (h : ∀ t node, I t → J ((t.set src none).set dst (some node))) :
    Ends (fun d : Disk => I d.tree ∧ d.tree.content src = some bytes) (rename src dst)
      (fun _ d => J d.tree ∧ d.tree.content dst = some bytes) (fun d => I d.tree) where
  ok := by
    intro d a d' hI heq
    cases hf : d.faults d.operations with
    | some fault => rw [rename, outcome_operation_faulty hf] at heq; cases heq
    | none =>
        rw [rename, outcome_operation hf] at heq
        split at heq
        · cases heq
        · cases heq
        · cases heq
        · rename_i node _ hsrc _
          cases heq
          refine ⟨h d.tree node hI.1, ?_⟩
          have hcontent := hI.2
          simp only [Tree.content, hsrc] at hcontent
          simpa only [Tree.content, Tree.set_self] using hcontent
  error := by
    intro d e d' hI heq
    cases hf : d.faults d.operations with
    | some fault => rw [rename, outcome_operation_faulty hf] at heq; cases heq; exact hI.1
    | none =>
        rw [rename, outcome_operation hf] at heq
        split at heq
        · cases heq; exact hI.1
        · cases heq; exact hI.1
        · cases heq; exact hI.1
        · cases heq

theorem read_keeps {I : Tree → Prop} : Keeps (fun d : Disk => I d.tree) (read p) := by
  apply keeps_operation
  · intro t hI
    split <;> exact hI
  · exact fun _ _ hI => hI

theorem symlinkMetadata_keeps {I : Tree → Prop} :
    Keeps (fun d : Disk => I d.tree) (symlinkMetadata p) := by
  apply keeps_operation
  · intro t hI
    split <;> exact hI
  · exact fun _ _ hI => hI

theorem query_keeps {I : Tree → Prop} {f : Tree → Except IoError α} :
    Keeps (fun d : Disk => I d.tree) (query f) :=
  keeps_operation (fun _ hI => hI) fun _ _ hI => hI

/-- What an operation that leaves the tree alone reports of it. -/
theorem observe_ends {I : Tree → Prop} (run : Tree → Except IoError α × Tree)
    (partway : Fault → Tree → Tree) (hrun : ∀ t, (run t).2 = t)
    (hpart : ∀ fault t, partway fault t = t) :
    Ends (fun d : Disk => I d.tree) (operation run partway)
      (fun a d => (run d.tree).1 = .ok a ∧ I d.tree) (fun d => I d.tree) where
  ok := by
    intro d a d' hI heq
    cases hf : d.faults d.operations with
    | some fault => rw [outcome_operation_faulty hf] at heq; cases heq
    | none =>
        rw [outcome_operation hf, hrun] at heq
        have hresult := congrArg Prod.fst heq
        have hdisk := congrArg Prod.snd heq
        dsimp only at hresult hdisk
        rw [← hdisk]
        exact ⟨hresult, hI⟩
  error := by
    intro d e d' hI heq
    cases hf : d.faults d.operations with
    | some fault =>
        rw [outcome_operation_faulty hf, hpart] at heq
        cases heq
        exact hI
    | none =>
        rw [outcome_operation hf, hrun] at heq
        have hdisk := congrArg Prod.snd heq
        dsimp only at hdisk
        rw [← hdisk]
        exact hI

theorem read_ends {I : Tree → Prop} : Ends (fun d : Disk => I d.tree) (read p)
    (fun bytes d => d.tree.content p = some bytes ∧ I d.tree) (fun d => I d.tree) := by
  have hends := observe_ends (I := I) (fun t : Tree =>
    match t.content p with
    | some bytes => (.ok bytes, t)
    | none => (.error (if t.isDir p then .isADirectory else .notFound), t))
    (fun _ t => t) (fun t => by split <;> rfl) fun _ _ => rfl
  refine hends.weaken (fun _ h => h) (fun bytes d h => ⟨?_, h.2⟩) fun _ h => h
  have hok := h.1
  split at hok
  · rename_i hcontent
    cases hok
    exact hcontent
  · cases hok

theorem symlinkMetadata_ends {I : Tree → Prop} :
    Ends (fun d : Disk => I d.tree) (symlinkMetadata p)
      (fun node d => d.tree p = some node ∧ I d.tree) (fun d => I d.tree) := by
  have hends := observe_ends (I := I) (fun t : Tree =>
    match t p with
    | some node => (.ok node, t)
    | none => (.error .notFound, t))
    (fun _ t => t) (fun t => by split <;> rfl) fun _ _ => rfl
  refine hends.weaken (fun _ h => h) (fun node d h => ⟨?_, h.2⟩) fun _ h => h
  have hok := h.1
  split at hok
  · rename_i hnode
    cases hok
    exact hnode
  · cases hok

theorem query_ends {I : Tree → Prop} {f : Tree → Except IoError α} :
    Ends (fun d : Disk => I d.tree) (query f) (fun a d => f d.tree = .ok a ∧ I d.tree)
      (fun d => I d.tree) :=
  observe_ends _ _ (fun _ => rfl) fun _ _ => rfl

end FileSystem
