import Cja.Tools.Cache

/-!
# What the tool cache holds

An entry that the check accepts is a whole one from verified bytes: `Sound`. Under the
lock a process first meets an entry it doubts, and from then on works beside it until the
rename that puts a verified one in its place; every operation keeps `Guarantee`, so a
process may die at any of them. A check that fails where it should tell what is there
makes the process doubt an entry that is whole, which it then moves aside.
-/
namespace Cja.ToolCache
open FileTree FileTree.Tree Locked

/-! ## Entries -/

/-- The regular files and directories with a path of names. -/
def Entry.plain (e : Entry) : Bool :=
  match e.path with
  | .ok path => !isAbsolute path && path.all isNormal && (e.kind == .file || e.kind == .dir)
  | .error _ => false

/-- `unpack_in` places a plain entry below its destination. -/
def Tar.Contained (tar : Tar) : Prop :=
  ∀ dst e, e.plain = true → ∀ d q, ¬ dst <+: q →
    (tar.unpackIn dst e d).2.node q = d.node q ∧ ∀ n, (tar.partway dst e n d).node q = d.node q

/-- Every entry unpacked in turn. -/
def unpacked (tar : Tar) (stage : Path) : List (Except String Entry) → Disk → Option Disk
  | [], d => some d
  | .error _ :: _, _ => none
  | .ok e :: entries, d =>
      match tar.unpackIn stage e d with
      | (.ok (), d') => unpacked tar stage entries d'
      | (.error _, _) => none

/-- A directory with nothing in it. -/
def Fresh (d : Disk) (stage : Path) : Prop :=
  d.node stage = some .dir ∧ ∀ r, r ≠ [] → d.node (stage ++ r) = none

section

variable (tar : Tar) (sha256 : Bytes → String) (spec : ToolSpec) (dir : Path)

/-- The nodes below a place are those of the whole archive, unpacked in a new directory,
with the marker. -/
def CompleteArchive (executable : Path) (content : Path → Option Node) : Prop :=
  ∃ bytes entries stage d₀ d₁ modified mode, sha256 bytes = spec.digest ∧
    tar.entries bytes = .ok entries ∧ Fresh d₀ stage ∧ unpacked tar stage entries d₀ = some d₁ ∧
    isFileNode (d₁.node (stage ++ executable)) = true ∧
    isFileNode (d₁.node (stage ++ declarations)) = true ∧
    ∀ r, content r = (d₁.put (stage ++ [digestMarker])
      (.file (Utf8.bytes spec.digest.toList) modified mode)).node (stage ++ r)

def rootPath : Path := dir ++ [spec.key]

/-- The entry came whole from bytes with the pinned digest. -/
def Verified (d : Disk) : Prop :=
  match spec.archiveExecutable with
  | some executable =>
      CompleteArchive tar sha256 spec executable fun r => d.node (rootPath spec dir ++ r)
  | none => ∃ bytes modified,
      d.node (rootPath spec dir) = some (.file bytes modified true) ∧ sha256 bytes = spec.digest

/-- What the check finds where none of its looks fails. -/
def accepts (d : Disk) : Bool :=
  match spec.archiveExecutable with
  | some _ =>
      (textAt d (rootPath spec dir ++ [digestMarker])).toOption.any
          (fun text => Text.trim text = spec.digest.toList) &&
        isFileNode (d.node (spec.executable (rootPath spec dir))) &&
        isFileNode (d.node (rootPath spec dir ++ declarations)) &&
        (d.node (rootPath spec dir)).isSome
  | none =>
      match d.node (rootPath spec dir) with
      | some (.file bytes modified _) =>
          modified.any (fun nanos =>
              (textAt d (dir ++ [spec.verifiedName])).toOption =
                some (stamp spec bytes.length nanos)) ||
            sha256 bytes = spec.digest
      | some .dir | none => false

def Sound (d : Disk) : Prop := accepts sha256 spec dir d = true → Verified tar sha256 spec dir d

/-- A check on an entry that it would accept tells what is there. -/
def Undisturbed (d : Disk) (op : Op) (c : Choice) : Prop :=
  accepts sha256 spec dir d = true →
    match op with
    | .exists p | .isFile p => rootPath spec dir <+: p → c.fault = none
    | .readToString p => p = rootPath spec dir ++ [digestMarker] → c.fault = none
    | _ => True

/-- What each operation of a process keeps; `calm` where no check is disturbed. -/
structure Guarantee (calm : Prop) (offline : Bool) (d : Disk) (op : Op) (d' : Disk) : Prop where
  sound : Sound tar sha256 spec dir d'
  kept : calm → accepts sha256 spec dir d = true →
    (∀ r, d'.node (rootPath spec dir ++ r) = d.node (rootPath spec dir ++ r)) ∧
      ∀ url, op ≠ .fetch url
  online : ∀ url, op = .fetch url → offline = false
  staged : ∀ dst e, op = .unpackIn dst e → (∃ suffix, dst = stagePath dir suffix) ∧
    ∀ q, ¬ dst <+: q → d'.node q = d.node q

/-- The operations of a job, the choices at them and what they keep. -/
def setting (calm : Prop) (offline : Bool) : Setting Op Answer Disk Choice where
  effect := effect tar
  allowed d op c := calm → Undisturbed sha256 spec dir d op c
  guarantee := Guarantee tar sha256 spec dir calm offline

end

/-! ## Frames -/

variable {tar : Tar} {sha256 : Bytes → String} {spec : ToolSpec} {dir : Path}
variable {calm : Prop} {offline : Bool} {d d' : Disk} {op : Op} {c : Choice} {p q r : Path}

/-- The places below which an operation may change the tree. -/
def Op.places : Op → Choice → List Path
  | .write p _, _ | .createFile p, _ | .writeAll p _, _ | .setPermissions p, _
  | .removeDirAll p, _ | .removeFile p, _ => [p]
  | .rename src dst, _ => [src, dst]
  | .tempdirIn p, c => [stagePath p c.suffix]
  | .unpackIn dst e, _ => if e.plain then [dst] else [[]]
  | .createDirAll _, _ | .openLock _, _ | .exists _, _ | .isFile _, _ | .isDir _, _
  | .readToString _, _ | .metadata _, _ | .modified _, _ | .openFile _, _ | .readBytes _, _
  | .sinceEpoch, _ | .fetch _, _ => []

theorem ne_of_not_under (h : ¬ p <+: q) : q ≠ p := by
  rintro rfl
  exact h (List.prefix_refl _)

theorem looked_snd {α : Type} (c : Choice) (d : Disk) (answer : Except IoError α) :
    (looked c d answer).2 = d := by
  unfold looked
  split <;> rfl

/-- What the result and the part of a change leave alone, the change leaves alone. -/
theorem changed_node {result : Except IoError Disk} {partway : Disk}
    (hresult : ∀ d', result = .ok d' → d'.node q = d.node q)
    (hpartway : partway.node q = d.node q) : (changed c d result partway).2.node q = d.node q := by
  unfold changed
  split
  · exact hpartway
  · exact hresult _ rfl
  · rfl

theorem created_node {bytes : Bytes} {m : Option ℕ} (hq : ¬ p <+: q)
    (h : created d p bytes m = .ok d') : d'.node q = d.node q := by
  unfold created at h
  split at h
  · cases h
  · cases h
    exact d.node_put_of_ne (ne_of_not_under hq)
  · cases h
    exact d.node_put_of_ne (ne_of_not_under hq)

theorem filled_node {bytes : Bytes} {m : Option ℕ} (hq : ¬ p <+: q)
    (h : filled d p bytes m = .ok d') : d'.node q = d.node q := by
  unfold filled at h
  split at h
  · cases h
    exact d.node_put_of_ne (ne_of_not_under hq)
  · cases h
  · cases h

theorem withMode_node (hq : ¬ p <+: q) (h : withMode d p = .ok d') : d'.node q = d.node q := by
  unfold withMode at h
  split at h
  · cases h
    exact d.node_put_of_ne (ne_of_not_under hq)
  · cases h
    rfl
  · cases h

/-- A rename that works moves the subtree. -/
theorem renamed_ok {src dst : Path} (h : renamed d src dst = .ok d') :
    d' = d.graft src dst ∧ (d.node src).isSome = true := by
  cases hsrc : d.node src with
  | none => simp [renamed, hsrc] at h
  | some n =>
      refine ⟨?_, rfl⟩
      simp only [renamed, hsrc] at h
      split at h
      · cases h
      · cases h
      · cases h
      · split at h
        · cases h
          rfl
        · cases h
      · cases h
        rfl

/-- An operation leaves alone what is not below one of its places. -/
theorem effect_node (htar : tar.Contained) (h : ∀ p ∈ op.places c, ¬ p <+: q) :
    (effect tar op c d).2.node q = d.node q := by
  cases op with
  | createDirAll p => simp only [effect, looked_snd]
  | openLock p => simp only [effect, looked_snd]
  | «exists» p => rfl
  | isFile p => rfl
  | isDir p => rfl
  | readToString p => simp only [effect, looked_snd]
  | metadata p => simp only [effect, looked_snd]
  | modified p => simp only [effect, looked_snd]
  | openFile p => simp only [effect, looked_snd]
  | readBytes p => simp only [effect, looked_snd]
  | write p bytes =>
      have hq := h p (by simp [Op.places])
      refine changed_node (fun _ => created_node hq) ?_
      unfold cutShort
      split
      · next h => exact created_node hq h
      · rfl
  | createFile p =>
      have hq := h p (by simp [Op.places])
      exact changed_node (fun _ => created_node hq) rfl
  | writeAll p bytes =>
      have hq := h p (by simp [Op.places])
      refine changed_node (fun _ => filled_node hq) ?_
      split
      · next h => exact filled_node hq h
      · rfl
  | setPermissions p =>
      have hq := h p (by simp [Op.places])
      exact changed_node (fun _ => withMode_node hq) rfl
  | rename src dst =>
      have hsrc := h src (by simp [Op.places])
      have hdst := h dst (by simp [Op.places])
      refine changed_node ?_ rfl
      intro d' hd'
      obtain ⟨rfl, -⟩ := renamed_ok hd'
      exact d.node_graft_of_not hsrc hdst
  | removeDirAll p =>
      have hq := h p (by simp [Op.places])
      refine changed_node ?_ (d.node_cutSparing_of_not _ hq)
      intro d' hd'
      split at hd'
      · cases hd'
        exact d.node_cut_of_not hq
      · cases hd'
      · cases hd'
  | removeFile p =>
      have hq := h p (by simp [Op.places])
      refine changed_node ?_ rfl
      intro d' hd'
      split at hd'
      · cases hd'
        exact d.node_cut_of_not hq
      · cases hd'
      · cases hd'
  | tempdirIn p =>
      have hq := h (stagePath p c.suffix) (by simp [Op.places])
      simp only [effect]
      split
      · rfl
      · rfl
      · rw [node_put_of_ne _ (ne_of_not_under hq), d.node_cut_of_not hq]
  | sinceEpoch => rfl
  | fetch url => rfl
  | unpackIn dst e =>
      have hplain : e.plain = true := by
        by_contra hplain
        exact h [] (by simp [Op.places, hplain]) List.nil_prefix
      have hq := h dst (by simp [Op.places, hplain])
      simp only [effect]
      split
      · exact (htar dst e hplain d q hq).2 _
      · exact (htar dst e hplain d q hq).1

/-! ## Names in the cache directory -/

section

variable (spec dir)

/-- A place in the cache directory that is not in the entry. -/
def Beside (p : Path) : Prop := ∃ name rest, p = dir ++ name :: rest ∧ name ≠ spec.key

/-- A place that the check does not read. -/
def Away (p : Path) : Prop :=
  ∃ name rest, p = dir ++ name :: rest ∧ name ≠ spec.key ∧ name ≠ spec.verifiedName

end

theorem Away.beside (h : Away spec dir p) : Beside spec dir p := by
  obtain ⟨name, rest, rfl, hkey, -⟩ := h
  exact ⟨name, rest, rfl, hkey⟩

theorem not_prefix_of_ne {a b : String} (h : a ≠ b) (x y : Path) :
    ¬ dir ++ a :: x <+: dir ++ b :: y := by
  intro hpre
  rw [List.prefix_append_right_inj, List.cons_prefix_cons] at hpre
  exact h hpre.1

theorem Beside.not_prefix_root (h : Beside spec dir p) (r : Path) :
    ¬ p <+: rootPath spec dir ++ r := by
  obtain ⟨name, rest, rfl, hkey⟩ := h
  rw [rootPath, List.append_assoc]
  exact not_prefix_of_ne hkey rest r

theorem Beside.root_not_prefix (h : Beside spec dir p) : ¬ rootPath spec dir <+: p := by
  obtain ⟨name, rest, rfl, hkey⟩ := h
  exact not_prefix_of_ne hkey.symm [] rest

theorem Away.not_prefix_marker (h : Away spec dir p) : ¬ p <+: dir ++ [spec.verifiedName] := by
  obtain ⟨name, rest, rfl, -, hmarker⟩ := h
  exact not_prefix_of_ne hmarker rest []

theorem Away.append (h : Away spec dir p) (r : Path) : Away spec dir (p ++ r) := by
  obtain ⟨name, rest, rfl, hne⟩ := h
  exact ⟨name, rest ++ r, by simp, hne⟩

theorem append_ne_self {a b : String} (h : b ≠ "") : a ++ b ≠ a := by
  intro heq
  have hlist := congrArg String.toList heq
  rw [String.toList_append] at hlist
  exact h (by simpa using hlist)

theorem append_ne_append {a b c : String} (h : b ≠ c) : a ++ b ≠ a ++ c := by
  intro heq
  have hlist := congrArg String.toList heq
  rw [String.toList_append, String.toList_append] at hlist
  exact h (String.toList_inj.1 (List.append_cancel_left hlist))

theorem verifiedName_ne (spec : ToolSpec) : spec.verifiedName ≠ spec.key :=
  append_ne_self (by decide)

/-- What follows the first dot of a hidden name does not make it the name of a tool. -/
theorem hidden_ne {name rest : String} (h : name.toList.head? = some '.') :
    name ≠ spec.key ++ rest := by
  rintro rfl
  obtain ⟨c, cs, hname, hc⟩ := spec.visible
  simp only [ToolSpec.key, String.toList_append, hname, List.cons_append, List.head?_cons,
    Option.some.injEq] at h
  exact hc h

theorem away_stage (suffix : String) : Away spec dir (stagePath dir suffix) := by
  have hhead : (".cja-tool-" ++ suffix).toList.head? = some '.' := by
    rw [String.toList_append]
    rfl
  refine ⟨".cja-tool-" ++ suffix, [], rfl, ?_, hidden_ne hhead⟩
  have hkey : ".cja-tool-" ++ suffix ≠ spec.key ++ "" := hidden_ne hhead
  rwa [String.append_empty] at hkey

theorem away_stale (pid nanos : ℕ) : Away spec dir (stalePath spec dir pid nanos) := by
  have hhead : ∀ rest : String, ".stale-" ++ rest ≠ "" ∧ ".stale-" ++ rest ≠ ".verified" := by
    intro rest
    constructor
    · intro h
      have hlist := congrArg String.toList h
      rw [String.toList_append] at hlist
      cases hlist
    · intro h
      have hlist := congrArg String.toList h
      rw [String.toList_append] at hlist
      injection hlist with _ htail
      cases htail
  have hname : spec.key ++ ".stale-" ++ toString pid ++ "-" ++ toString nanos =
      spec.key ++ (".stale-" ++ (toString pid ++ "-" ++ toString nanos)) := by
    simp only [String.append_assoc]
  refine ⟨spec.key ++ ".stale-" ++ toString pid ++ "-" ++ toString nanos, [], rfl, ?_, ?_⟩
  · rw [hname]
    exact append_ne_self (hhead _).1
  · rw [hname]
    exact append_ne_append (hhead _).2

theorem beside_marker : Beside spec dir (dir ++ [spec.verifiedName]) :=
  ⟨spec.verifiedName, [], rfl, verifiedName_ne spec⟩

/-! ## What the check reads -/

/-- The same nodes in the entry. -/
def SameEntry (spec : ToolSpec) (dir : Path) (d d' : Disk) : Prop :=
  ∀ r, d'.node (rootPath spec dir ++ r) = d.node (rootPath spec dir ++ r)

theorem SameEntry.root (h : SameEntry spec dir d d') :
    d'.node (rootPath spec dir) = d.node (rootPath spec dir) := by
  simpa using h []

theorem Verified.congr (h : SameEntry spec dir d d') (hd : Verified tar sha256 spec dir d) :
    Verified tar sha256 spec dir d' := by
  unfold Verified at hd ⊢
  split at hd
  · rwa [funext h]
  · rwa [h.root]

theorem textAt_congr (h : d'.node p = d.node p) : textAt d' p = textAt d p := by
  simp only [textAt, bytesAt, h]

theorem accepts_congr (h : SameEntry spec dir d d')
    (hm : d'.node (dir ++ [spec.verifiedName]) = d.node (dir ++ [spec.verifiedName])) :
    accepts sha256 spec dir d' = accepts sha256 spec dir d := by
  unfold accepts
  split
  · have hexe : d'.node (spec.executable (rootPath spec dir)) =
        d.node (spec.executable (rootPath spec dir)) := h _
    rw [textAt_congr (h _), hexe, h declarations, h.root]
  · simp only [h.root, textAt_congr hm]

/-- A condition that the check's places decide, and that makes the cache sound. -/
structure Decided (tar : Tar) (sha256 : Bytes → String) (spec : ToolSpec) (dir : Path)
    (J : Disk → Prop) : Prop where
  congr : ∀ d d', SameEntry spec dir d d' →
    d'.node (dir ++ [spec.verifiedName]) = d.node (dir ++ [spec.verifiedName]) → J d → J d'
  sound : ∀ d, J d → Sound tar sha256 spec dir d

/-- Sound, and where no check is disturbed not an entry that the check accepts. -/
def Doubtful (tar : Tar) (sha256 : Bytes → String) (spec : ToolSpec) (dir : Path) (calm : Prop)
    (d : Disk) : Prop :=
  Sound tar sha256 spec dir d ∧ (calm → accepts sha256 spec dir d = false)

theorem decided_sound : Decided tar sha256 spec dir (Sound tar sha256 spec dir) where
  congr := by
    intro d d' h hm hd haccepts
    rw [accepts_congr h hm] at haccepts
    exact (hd haccepts).congr h
  sound := fun _ h => h

theorem decided_doubtful : Decided tar sha256 spec dir (Doubtful tar sha256 spec dir calm) where
  congr := by
    intro d d' h hm hd
    refine ⟨decided_sound.congr d d' h hm hd.1, fun hcalm => ?_⟩
    rw [accepts_congr h hm]
    exact hd.2 hcalm
  sound := fun _ h => h.1

theorem decided_verified : Decided tar sha256 spec dir (Verified tar sha256 spec dir) where
  congr := fun _ _ h _ hd => hd.congr h
  sound := fun _ h _ => h

/-- Neither the fetch nor the unpacking of an entry. -/
def Op.Ordinary (op : Op) : Prop := (∀ url, op ≠ .fetch url) ∧ ∀ dst e, op ≠ .unpackIn dst e

/-- An operation that leaves the entry keeps the guarantee if it leaves the cache sound. -/
theorem guarantee_of_same (ho : op.Ordinary) (h : SameEntry spec dir d d')
    (hs : Sound tar sha256 spec dir d') :
    Guarantee tar sha256 spec dir calm offline d op d' where
  sound := hs
  kept := fun _ _ => ⟨h, ho.1⟩
  online := fun url h => absurd h (ho.1 url)
  staged := fun dst e h => absurd h (ho.2 dst e)

/-- An ordinary operation on an entry in doubt keeps the guarantee if it leaves the cache sound. -/
theorem Doubtful.guarantee (hd : Doubtful tar sha256 spec dir calm d) (ho : op.Ordinary)
    (hs : Sound tar sha256 spec dir d') :
    Guarantee tar sha256 spec dir calm offline d op d' where
  sound := hs
  kept := by
    intro hcalm haccepts
    rw [hd.2 hcalm] at haccepts
    cases haccepts
  online := fun url h => absurd h (ho.1 url)
  staged := fun dst e h => absurd h (ho.2 dst e)

theorem sameEntry_effect (htar : tar.Contained) (hp : ∀ p ∈ op.places c, Beside spec dir p) :
    SameEntry spec dir d (effect tar op c d).2 :=
  fun r => effect_node htar fun p hmem => (hp p hmem).not_prefix_root r

/-- What an operation away from the entry and its marker keeps. -/
theorem Decided.step {J : Disk → Prop} (hJ : Decided tar sha256 spec dir J)
    (htar : tar.Contained) (ho : op.Ordinary) (hp : ∀ p ∈ op.places c, Away spec dir p)
    (hd : J d) :
    Guarantee tar sha256 spec dir calm offline d op (effect tar op c d).2 ∧
      J (effect tar op c d).2 := by
  have hsame : SameEntry spec dir d (effect tar op c d).2 :=
    sameEntry_effect htar fun p hmem => (hp p hmem).beside
  have hmarker : (effect tar op c d).2.node (dir ++ [spec.verifiedName]) =
      d.node (dir ++ [spec.verifiedName]) :=
    effect_node htar fun p hmem => (hp p hmem).not_prefix_marker
  have hJ' := hJ.congr _ _ hsame hmarker hd
  exact ⟨guarantee_of_same ho hsame (hJ.sound _ hJ'), hJ'⟩

/-- Beside a verified entry the marker may change as well. -/
theorem Verified.step (htar : tar.Contained) (ho : op.Ordinary)
    (hp : ∀ p ∈ op.places c, Beside spec dir p) (hd : Verified tar sha256 spec dir d) :
    Guarantee tar sha256 spec dir calm offline d op (effect tar op c d).2 ∧
      Verified tar sha256 spec dir (effect tar op c d).2 := by
  have hsame : SameEntry spec dir d (effect tar op c d).2 := sameEntry_effect htar hp
  exact ⟨guarantee_of_same ho hsame fun _ => hd.congr hsame, hd.congr hsame⟩

end Cja.ToolCache
