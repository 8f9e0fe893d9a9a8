import Cja.Tools.Check

/-!
# Resolving a tool from the cache

Between the check and the rename into the entry's place a process works beside an entry
in doubt. The claim about runs is then one of the protocol of processes that take the
lock in turn. The exception is a check that fails at a valid entry: `exists` and
`is_file` answer no where the look itself fails, and the digest marker is read with
`.ok()`, so the entry is taken for a corrupt one.
-/
namespace Cja.ToolCache
open FileTree FileTree.Tree Locked Locked.Setting

variable {tar : Tar} {sha256 : Bytes → String} {spec : ToolSpec} {dir : Path}
variable {calm : Prop} {offline : Bool} {d₀ : Disk} {p : Path}

/-! ## The staging directory -/

section

variable {J : Disk → Prop}

/-- An operation away from the entry and its marker. -/
theorem away_ends {α ε : Type} (htar : tar.Contained) (hJ : Decided tar sha256 spec dir J) (op : Op)
    (ho : op.Ordinary) (hp : ∀ c, ∀ p ∈ op.places c, Away spec dir p) {m : Fallible Op Answer ε α}
    {k : Answer op → Program Op Answer (Except ε α)} (hm : m.run = .perform op k)
    (hk : ∀ answer, ∃ r, k answer = .done r) :
    (setting tar sha256 spec dir calm offline).Ends J m (fun _ => J) J :=
  kept_ends op hm hk fun _ c hd => hJ.step htar ho (hp c) hd

theorem removeDirAll_ends (htar : tar.Contained) (hJ : Decided tar sha256 spec dir J)
    (hp : Away spec dir p) :
    (setting tar sha256 spec dir calm offline).Ends J (removeDirAll p) (fun _ => J) J :=
  away_ends htar hJ (.removeDirAll p) (by simp [Op.Ordinary])
    (fun _ => by simpa [Op.places] using hp) rfl
    fun answer => ⟨answer, rfl⟩

theorem removeFile_ends (htar : tar.Contained) (hJ : Decided tar sha256 spec dir J)
    (hp : Away spec dir p) :
    (setting tar sha256 spec dir calm offline).Ends J (removeFile p) (fun _ => J) J :=
  away_ends htar hJ (.removeFile p) (by simp [Op.Ordinary])
    (fun _ => by simpa [Op.places] using hp) rfl
    fun answer => ⟨answer, rfl⟩

theorem dropStage_ends (htar : tar.Contained) (hJ : Decided tar sha256 spec dir J)
    (hp : Away spec dir p) :
    (setting tar sha256 spec dir calm offline).Ends J (dropStage p) (fun _ => J) J := by
  refine (removeDirAll_ends htar hJ hp).attempt.bind fun r => ?_
  refine Ends.of_pure fun d hd => ?_
  cases r with
  | ok _ => exact hd
  | error _ => exact hd

end

/-- A change that is made, cut short, or refused. -/
theorem changed_cases (c : Choice) (d : Disk) (result : Except IoError Disk) (partway : Disk) :
    (∃ d', result = .ok d' ∧ changed c d result partway = (.ok (), d')) ∨
      (∃ e, changed c d result partway = (.error e, partway)) ∨
      ∃ e, changed c d result partway = (.error e, d) := by
  unfold changed
  split
  · next e _ => exact .inr (.inl ⟨e, rfl⟩)
  · next d' _ => exact .inl ⟨d', rfl, rfl⟩
  · next e _ => exact .inr (.inr ⟨e, rfl⟩)

/-- A change away from an entry in doubt. -/
theorem change_ends (htar : tar.Contained) (op : Op) (ho : op.Ordinary)
    (hp : ∀ c, ∀ p ∈ op.places c, Away spec dir p) {m : Io Unit}
    {k : Answer op → Program Op Answer (Except IoError Unit)} (hm : m.run = .perform op k)
    (result : Choice → Disk → Except IoError Disk) {partway : Choice → Disk → Disk}
    (heffect : ∀ c d, k (effect tar op c d).1 =
        .done (changed c d (result c d) (partway c d)).1 ∧
      (effect tar op c d).2 = (changed c d (result c d) (partway c d)).2)
    {P Q : Disk → Prop} (hP : ∀ d, P d → Doubtful tar sha256 spec dir calm d)
    (hQ : ∀ c d d', P d → result c d = .ok d' → Q d') :
    (setting tar sha256 spec dir calm offline).Ends P m
      (fun _ d => Doubtful tar sha256 spec dir calm d ∧ Q d)
      (Doubtful tar sha256 spec dir calm) := by
  intro d hd
  rw [hm]
  intro c _
  obtain ⟨hg, hdoubt⟩ := decided_doubtful.step htar ho (hp c) (hP d hd)
  refine ⟨hg, ?_⟩
  obtain ⟨hk, hsnd⟩ := heffect c d
  change (setting tar sha256 spec dir calm offline).Safe _ (k (effect tar op c d).1)
    (effect tar op c d).2
  rw [hk]
  refine Safe.result ?_ fun _ _ => hdoubt
  intro _ hok
  refine ⟨hdoubt, ?_⟩
  rcases changed_cases c d (result c d) (partway c d) with ⟨d', hresult, h⟩ | ⟨e, h⟩ | ⟨e, h⟩
  · rw [hsnd, h]
    exact hQ c d d' hd hresult
  · rw [h] at hok
    cases hok
  · rw [h] at hok
    cases hok

/-- A rename that works from beside the entry into its place. -/
theorem installed_node {d d' : Disk} (hp : Beside spec dir p)
    (h : renamed d p (rootPath spec dir) = .ok d') (r : Path) :
    d'.node (rootPath spec dir ++ r) = d.node (p ++ r) := by
  obtain ⟨rfl, -⟩ := renamed_ok h
  have hnot : ¬ p <+: rootPath spec dir := by simpa using hp.not_prefix_root []
  exact d.node_graft hnot hp.root_not_prefix r

/-- A rename into the place of an entry in doubt; what it puts there is verified. -/
theorem rename_root_ends {P : Disk → Prop} (hp : Beside spec dir p)
    (hP : ∀ d, P d → Doubtful tar sha256 spec dir calm d)
    (hverified : ∀ d d', P d →
      (∀ r, d'.node (rootPath spec dir ++ r) = d.node (p ++ r)) → Verified tar sha256 spec dir d') :
    (setting tar sha256 spec dir calm offline).Ends P (rename p (rootPath spec dir))
      (fun _ => Verified tar sha256 spec dir) P := by
  intro d hd c _
  have hdoubt := hP d hd
  have hguarantee : ∀ d', Sound tar sha256 spec dir d' →
      Guarantee tar sha256 spec dir calm offline d (.rename p (rootPath spec dir)) d' := by
    intro d' hs
    exact hdoubt.guarantee (by simp [Op.Ordinary]) hs
  change Guarantee tar sha256 spec dir calm offline d _
      (changed c d (renamed d p (rootPath spec dir)) d).2 ∧
    (setting tar sha256 spec dir calm offline).Safe _
      (.done (changed c d (renamed d p (rootPath spec dir)) d).1)
      (changed c d (renamed d p (rootPath spec dir)) d).2
  rcases changed_cases c d (renamed d p (rootPath spec dir)) d with ⟨d', hd', h⟩ | ⟨e, h⟩ | ⟨e, h⟩
  · have hv : Verified tar sha256 spec dir d' := hverified d d' hd (installed_node hp hd')
    rw [h]
    exact ⟨hguarantee d' fun _ => hv, hv⟩
  · rw [h]
    exact ⟨hguarantee d hdoubt.1, hd⟩
  · rw [h]
    exact ⟨hguarantee d hdoubt.1, hd⟩

/-! ## Unpacking an archive -/

theorem unpacked_append (stage : Path) (xs ys : List (Except String Entry)) (d : Disk) :
    unpacked tar stage (xs ++ ys) d = (unpacked tar stage xs d).bind (unpacked tar stage ys) := by
  induction xs generalizing d with
  | nil => rfl
  | cons x xs ih =>
      cases x with
      | error e => rfl
      | ok e =>
          simp only [List.cons_append, unpacked]
          split
          · exact ih _
          · rfl

/-- An entry in doubt, and a stage to which some of the archive has come. -/
def Staged (tar : Tar) (sha256 : Bytes → String) (spec : ToolSpec) (dir : Path) (calm : Prop)
    (stage : Path) (entries : List (Except String Entry)) (d₀ d : Disk) : Prop :=
  Doubtful tar sha256 spec dir calm d ∧ unpacked tar stage entries d₀ = some d

theorem unpackIn_ends (htar : tar.Contained) (suffix : String) {e : Entry} (he : e.plain = true)
    (entries : List (Except String Entry)) :
    (setting tar sha256 spec dir calm offline).Ends
      (Staged tar sha256 spec dir calm (stagePath dir suffix) entries d₀)
      (unpackIn (stagePath dir suffix) e)
      (fun _ => Staged tar sha256 spec dir calm (stagePath dir suffix) (entries ++ [.ok e]) d₀)
      (Doubtful tar sha256 spec dir calm) := by
  rintro d ⟨hdoubt, hd⟩ c _
  have haway : Away spec dir (stagePath dir suffix) := away_stage suffix
  have hplaces : ∀ p ∈ (Op.unpackIn (stagePath dir suffix) e).places c,
      p = stagePath dir suffix := by
    intro p hp
    simpa [Op.places, he] using hp
  have hframe : ∀ q, ¬ stagePath dir suffix <+: q →
      (effect tar (.unpackIn (stagePath dir suffix) e) c d).2.node q = d.node q :=
    fun q hq => effect_node htar fun p hp => hplaces p hp ▸ hq
  have hsame : SameEntry spec dir d (effect tar (.unpackIn (stagePath dir suffix) e) c d).2 :=
    fun r => hframe _ (haway.beside.not_prefix_root r)
  have hdoubt' := decided_doubtful.congr _ _ hsame (hframe _ haway.not_prefix_marker) hdoubt
  refine ⟨⟨hdoubt'.1, fun _ _ => ⟨hsame, ?_⟩, ?_, ?_⟩, Safe.result ?_ fun _ _ => hdoubt'⟩
  · simp
  · simp
  · rintro dst e' ⟨⟩
    exact ⟨⟨suffix, rfl⟩, hframe⟩
  · intro _ hok
    refine ⟨hdoubt', ?_⟩
    change (effect tar (.unpackIn (stagePath dir suffix) e) c d).1 = _ at hok
    change unpacked tar (stagePath dir suffix) (entries ++ [.ok e]) d₀ =
      some (effect tar (.unpackIn (stagePath dir suffix) e) c d).2
    cases hfault : c.fault with
    | some fault =>
        simp only [effect, hfault] at hok
        cases hok
    | none =>
        simp only [effect, hfault] at hok ⊢
        rw [unpacked_append, hd, Option.bind_some, unpacked]
        split
        · next d' hrun => rw [hrun]; rfl
        · next hrun =>
            rw [hrun] at hok
            cases hok

theorem unpackEntry_ends (htar : tar.Contained) (suffix : String) (entry : Except String Entry)
    (entries : List (Except String Entry)) :
    (setting tar sha256 spec dir calm offline).Ends
      (Staged tar sha256 spec dir calm (stagePath dir suffix) entries d₀)
      (unpackEntry spec (stagePath dir suffix) entry)
      (fun _ => Staged tar sha256 spec dir calm (stagePath dir suffix) (entries ++ [entry]) d₀)
      (Doubtful tar sha256 spec dir calm) := by
  cases entry with
  | error e => exact Ends.of_throw fun _ hd => hd.1
  | ok e =>
      simp only [unpackEntry]
      split
      · exact Ends.of_throw fun _ hd => hd.1
      · next path hpath =>
          split
          · exact Ends.of_throw fun _ hd => hd.1
          · next hnames =>
              split
              · exact Ends.of_throw fun _ hd => hd.1
              · next hkind =>
                  refine (unpackIn_ends htar suffix ?_ entries).mapErr
                  simp only [Entry.plain, hpath]
                  simp only [Bool.or_eq_true, not_or, Bool.not_eq_true, List.any_eq_false] at hnames
                  simp only [Bool.and_eq_true, Bool.not_eq_true', List.all_eq_true, Bool.or_eq_true,
                    beq_iff_eq]
                  refine ⟨⟨hnames.1, fun c hc => by simpa using hnames.2 c hc⟩, ?_⟩
                  by_contra hne
                  exact hkind (not_or.1 hne)

theorem unpackEntries_ends (htar : tar.Contained) (suffix : String)
    (entries before : List (Except String Entry)) :
    (setting tar sha256 spec dir calm offline).Ends
      (Staged tar sha256 spec dir calm (stagePath dir suffix) before d₀)
      (unpackEntries spec (stagePath dir suffix) entries)
      (fun _ => Staged tar sha256 spec dir calm (stagePath dir suffix) (before ++ entries) d₀)
      (Doubtful tar sha256 spec dir calm) := by
  induction entries generalizing before with
  | nil =>
      rw [List.append_nil]
      exact Ends.of_pure fun _ hd => hd
  | cons entry entries ih =>
      refine (unpackEntry_ends htar suffix entry before).bind fun _ => ?_
      have hrest := ih (before ++ [entry])
      rwa [List.append_assoc] at hrest

theorem created_ok {d d' : Disk} {bytes : Bytes} {m : Option ℕ} (h : created d p bytes m = .ok d') :
    ∃ x, d' = d.put p (.file bytes m x) := by
  unfold created at h
  split at h
  · cases h
  · cases h
    exact ⟨_, rfl⟩
  · cases h
    exact ⟨_, rfl⟩

/-- The marker makes an unpacked archive whole. -/
theorem markStage_ends (htar : tar.Contained) (suffix : String) {bytes : Bytes}
    (hdigest : sha256 bytes = spec.digest) {executable : Path}
    {entries : List (Except String Entry)} (hentries : tar.entries bytes = .ok entries)
    (hfresh : Fresh d₀ (stagePath dir suffix)) :
    (setting tar sha256 spec dir calm offline).Ends
      (fun d => Staged tar sha256 spec dir calm (stagePath dir suffix) entries d₀ d ∧
        isFileNode (d.node (stagePath dir suffix ++ executable)) = true ∧
        isFileNode (d.node (stagePath dir suffix ++ declarations)) = true)
      (write (stagePath dir suffix ++ [digestMarker]) (Utf8.bytes spec.digest.toList))
      (fun _ d => Doubtful tar sha256 spec dir calm d ∧
        CompleteArchive tar sha256 spec executable fun r => d.node (stagePath dir suffix ++ r))
      (Doubtful tar sha256 spec dir calm) := by
  refine change_ends htar (.write _ _) (by simp [Op.Ordinary]) ?_ rfl
    (fun c d => created d _ _ c.modified) (fun c d => ⟨rfl, rfl⟩) (fun d hd => hd.1.1) ?_
  · intro c p hp
    obtain rfl := List.mem_singleton.1 hp
    exact (away_stage suffix).append _
  · rintro c d d' ⟨⟨-, hunpacked⟩, hexe, hdecl⟩ hd'
    obtain ⟨x, rfl⟩ := created_ok hd'
    exact ⟨bytes, entries, _, d₀, d, _, x, hdigest, hentries, hfresh, hunpacked, hexe, hdecl,
      fun _ => rfl⟩

/-- An archive that is unpacked to the end is whole in its stage. -/
theorem unpackArchive_ends (htar : tar.Contained) (suffix : String) {bytes : Bytes}
    (hdigest : sha256 bytes = spec.digest) (executable : Path) :
    (setting tar sha256 spec dir calm offline).Ends
      (fun d => Doubtful tar sha256 spec dir calm d ∧ Fresh d (stagePath dir suffix))
      (unpackArchive tar spec bytes (stagePath dir suffix) executable)
      (fun _ d => Doubtful tar sha256 spec dir calm d ∧
        CompleteArchive tar sha256 spec executable fun r => d.node (stagePath dir suffix ++ r))
      (Doubtful tar sha256 spec dir calm) := by
  rintro d₀ ⟨hdoubt, hfresh⟩
  cases hentries : tar.entries bytes with
  | error e =>
      simp only [unpackArchive, hentries]
      exact hdoubt
  | ok entries =>
      simp only [unpackArchive, hentries]
      refine Ends.bind (unpackEntries_ends htar suffix entries []) (fun _ => ?_) d₀ ⟨hdoubt, rfl⟩
      rintro d₁ hstaged
      refine Ends.bind (bothFiles_ends hstaged.1.1 _ _) (fun b => Ends.known fun hfiles => ?_) d₁ rfl
      obtain ⟨hfiles, -⟩ := hfiles
      cases b with
      | false =>
          refine Ends.of_throw ?_
          rintro d rfl
          exact hstaged.1
      | true =>
          refine (markStage_ends htar suffix hdigest hentries hfresh).mapErr.pre ?_
          rintro d rfl
          exact ⟨hstaged, hfiles rfl⟩

/-! ## Installing -/

/-- A whole archive goes to the place of the entry, or another installation was first. -/
theorem installArchive_ends (htar : tar.Contained) (suffix : String) {executable : Path}
    (hkind : spec.archiveExecutable = some executable) :
    (setting tar sha256 spec dir calm offline).Ends
      (fun d => Doubtful tar sha256 spec dir calm d ∧
        CompleteArchive tar sha256 spec executable fun r => d.node (stagePath dir suffix ++ r))
      (installArchive sha256 spec (rootPath spec dir) (stagePath dir suffix))
      (fun _ => Verified tar sha256 spec dir) (Sound tar sha256 spec dir) := by
  refine (rename_root_ends (away_stage suffix).beside (fun _ hd => hd.1) ?_).attempt.bind
    fun r => ?_
  · intro d d' hd hnode
    unfold Verified
    rw [hkind]
    dsimp only
    rw [funext hnode]
    exact hd.2
  cases r with
  | ok _ => exact Ends.of_pure fun _ hd => hd
  | error e =>
      refine ((removeDirAll_ends htar decided_sound (away_stage suffix)).mapErr.pre
        fun d hd => hd.1.1).bind fun _ => ?_
      split
      · refine (validCache_ends htar).bind fun b => ?_
        cases b with
        | true => exact Ends.of_pure fun d hd => hd.2.1 rfl
        | false => exact Ends.of_throw fun d hd => hd.1
      · exact Ends.of_throw fun _ hd => hd

/-- A file written to the end and made executable goes to the place of the entry. -/
theorem installSingleFile_ends (htar : tar.Contained) (suffix : String) {bytes : Bytes}
    (hdigest : sha256 bytes = spec.digest) (hkind : spec.archiveExecutable = none) :
    (setting tar sha256 spec dir calm offline).Ends (Doubtful tar sha256 spec dir calm)
      (installSingleFile spec (rootPath spec dir) (stagePath dir suffix) bytes)
      (fun _ => Verified tar sha256 spec dir) (Doubtful tar sha256 spec dir calm) := by
  have haway : Away spec dir (stagePath dir suffix ++ ["binary"]) := (away_stage suffix).append _
  have hcreate : (setting tar sha256 spec dir calm offline).Ends
      (Doubtful tar sha256 spec dir calm) (createFile (stagePath dir suffix ++ ["binary"]))
      (fun _ d => Doubtful tar sha256 spec dir calm d ∧
        ∃ m x, d.node (stagePath dir suffix ++ ["binary"]) = some (.file [] m x))
      (Doubtful tar sha256 spec dir calm) := by
    refine change_ends htar (.createFile _) (by simp [Op.Ordinary]) (fun c => by simpa [Op.places] using haway)
      rfl (fun c d => created d _ [] c.modified) (fun c d => ⟨rfl, rfl⟩) (fun _ hd => hd) ?_
    intro c d d' _ hd'
    obtain ⟨x, rfl⟩ := created_ok hd'
    exact ⟨_, x, node_put_self ..⟩
  have hwrite : (setting tar sha256 spec dir calm offline).Ends
      (fun d => Doubtful tar sha256 spec dir calm d ∧
        ∃ m x, d.node (stagePath dir suffix ++ ["binary"]) = some (.file [] m x))
      (writeAll (stagePath dir suffix ++ ["binary"]) bytes)
      (fun _ d => Doubtful tar sha256 spec dir calm d ∧
        ∃ m x, d.node (stagePath dir suffix ++ ["binary"]) = some (.file bytes m x))
      (Doubtful tar sha256 spec dir calm) := by
    refine change_ends htar (.writeAll _ _) (by simp [Op.Ordinary]) (fun c => by simpa [Op.places] using haway)
      rfl (fun c d => filled d _ bytes c.modified) (fun c d => ⟨rfl, rfl⟩) (fun _ hd => hd.1) ?_
    rintro c d d' ⟨-, m, x, hnode⟩ hd'
    simp only [filled, hnode, Except.ok.injEq] at hd'
    exact ⟨_, x, hd' ▸ node_put_self ..⟩
  have hmode : (setting tar sha256 spec dir calm offline).Ends
      (fun d => Doubtful tar sha256 spec dir calm d ∧
        ∃ m x, d.node (stagePath dir suffix ++ ["binary"]) = some (.file bytes m x))
      (setPermissions (stagePath dir suffix ++ ["binary"]))
      (fun _ d => Doubtful tar sha256 spec dir calm d ∧
        ∃ m, d.node (stagePath dir suffix ++ ["binary"]) = some (.file bytes m true))
      (Doubtful tar sha256 spec dir calm) := by
    refine change_ends htar (.setPermissions _) (by simp [Op.Ordinary])
      (fun c => by simpa [Op.places] using haway) rfl (fun c d => withMode d _)
      (fun c d => ⟨rfl, rfl⟩) (fun _ hd => hd.1) ?_
    rintro c d d' ⟨-, m, x, hnode⟩ hd'
    simp only [withMode, hnode, Except.ok.injEq] at hd'
    exact ⟨m, hd' ▸ node_put_self ..⟩
  refine hcreate.mapErr.bind fun _ => hwrite.mapErr.bind fun _ => hmode.mapErr.bind fun _ => ?_
  refine (rename_root_ends haway.beside (fun _ hd => hd.1) ?_).mapErr.weaken (fun _ h => h)
    (fun _ _ h => h) fun _ h => h.1
  rintro d d' ⟨-, m, hnode⟩ hsame
  unfold Verified
  rw [hkind]
  refine ⟨bytes, m, ?_, hdigest⟩
  have hroot := hsame []
  rw [List.append_nil, List.append_nil] at hroot
  rw [hroot, hnode]

theorem parentOf_root (spec : ToolSpec) (dir : Path) : parentOf (rootPath spec dir) = some dir := by
  have hkey : rootPath spec dir ≠ ["/"] := by
    intro h
    have hlast : (rootPath spec dir).getLast? = some "/" := by rw [h]; rfl
    rw [rootPath, List.getLast?_concat, Option.some.injEq] at hlast
    have hdash : '-' ∈ spec.key.toList := by simp [ToolSpec.key, String.toList_append]
    rw [hlast] at hdash
    revert hdash
    decide
  have hnil : rootPath spec dir ≠ [] := by simp [rootPath]
  rw [parentOf, if_neg (not_or.2 ⟨hnil, hkey⟩), rootPath, List.dropLast_concat]

theorem fresh_new (d : Disk) (p : Path) : Fresh ((d.cut p).put p .dir) p := by
  refine ⟨node_put_self .., fun r hr => ?_⟩
  have hne : p ++ r ≠ p := by simpa using hr
  rw [node_put_of_ne _ hne, node_cut, if_pos (List.prefix_append p r)]

/-- A stage is a new directory in the cache directory. -/
theorem tempdirIn_ends (htar : tar.Contained) :
    (setting tar sha256 spec dir calm offline).Ends (Doubtful tar sha256 spec dir calm)
      (tempdirIn dir)
      (fun stage d => (Doubtful tar sha256 spec dir calm d ∧ Fresh d stage) ∧
        ∃ suffix, stage = stagePath dir suffix) (Doubtful tar sha256 spec dir calm) := by
  intro d hd c _
  have hplaces : ∀ p ∈ (Op.tempdirIn dir).places c, Away spec dir p := by
    intro p hp
    rw [List.mem_singleton.1 hp]
    exact away_stage c.suffix
  have hordinary : (Op.tempdirIn dir).Ordinary := by simp [Op.Ordinary]
  obtain ⟨hg, hd'⟩ := decided_doubtful.step htar hordinary hplaces hd
  refine ⟨hg, Safe.result ?_ fun _ _ => hd'⟩
  intro stage hok
  change (effect tar (.tempdirIn dir) c d).1 = .ok stage at hok
  change (Doubtful tar sha256 spec dir calm (effect tar (.tempdirIn dir) c d).2 ∧
    Fresh (effect tar (.tempdirIn dir) c d).2 stage) ∧ _
  refine ⟨⟨hd', ?_⟩, ?_⟩
  · simp only [effect] at hok ⊢
    split at hok
    · cases hok
    · cases hok
    · cases hok
      exact fresh_new d _
  · simp only [effect] at hok
    split at hok
    · cases hok
    · cases hok
    · cases hok
      exact ⟨c.suffix, rfl⟩

/-- The stage goes, unless it has become the entry. -/
theorem installStaged_ends (htar : tar.Contained) (suffix : String) {bytes : Bytes}
    (hdigest : sha256 bytes = spec.digest) :
    (setting tar sha256 spec dir calm offline).Ends
      (fun d => Doubtful tar sha256 spec dir calm d ∧ Fresh d (stagePath dir suffix))
      (installStaged tar sha256 spec (rootPath spec dir) (stagePath dir suffix) bytes)
      (fun _ => Verified tar sha256 spec dir) (Sound tar sha256 spec dir) := by
  unfold installStaged
  cases hkind : spec.archiveExecutable with
  | some executable =>
      refine (unpackArchive_ends htar suffix hdigest executable).attempt.bind fun r => ?_
      cases r with
      | ok _ => exact installArchive_ends htar suffix hkind
      | error e =>
          refine ((dropStage_ends htar decided_sound (away_stage suffix)).pre
            fun d hd => hd.1).bind fun _ => ?_
          exact Ends.of_throw fun _ hd => hd
  | none =>
      refine ((installSingleFile_ends htar suffix hdigest hkind).pre fun d hd => hd.1).attempt.bind
        fun r => ?_
      cases r with
      | ok _ =>
          refine ((dropStage_ends htar decided_verified (away_stage suffix)).weaken (fun _ h => h)
            (fun _ _ h => h) decided_verified.sound).bind fun _ => ?_
          exact Ends.settle fun _ hd => hd
      | error e =>
          refine ((dropStage_ends htar decided_sound (away_stage suffix)).pre
            fun d hd => hd.1).bind fun _ => ?_
          exact Ends.settle fun _ hd => hd

/-- Only a process that is online fetches, and only for an entry in doubt. -/
theorem fetch_ends (honline : offline = false) (url : String) :
    (setting tar sha256 spec dir calm offline).Ends (Doubtful tar sha256 spec dir calm) (fetch url)
      (fun _ => Doubtful tar sha256 spec dir calm) (Doubtful tar sha256 spec dir calm) := by
  refine kept_ends (.fetch url) rfl (fun answer => ⟨answer, rfl⟩) fun d c hd => ⟨?_, hd⟩
  refine ⟨hd.1, fun hcalm haccepts => ?_, fun _ _ => honline, by simp⟩
  rw [hd.2 hcalm] at haccepts
  cases haccepts

theorem install_ends (htar : tar.Contained) (honline : offline = false) :
    (setting tar sha256 spec dir calm offline).Ends (Doubtful tar sha256 spec dir calm)
      (install tar sha256 spec (rootPath spec dir)) (fun _ => Verified tar sha256 spec dir)
      (Sound tar sha256 spec dir) := by
  refine ((fetch_ends honline spec.url).mapErr.weaken (fun _ h => h) (fun _ _ h => h)
    fun _ h => h.1).bind fun bytes => ?_
  by_cases hdigest : sha256 bytes = spec.digest
  · simp only [hdigest, ne_eq, not_true_eq_false, if_false, parentOf_root]
    refine ((tempdirIn_ends htar).mapErr.weaken (fun _ h => h) (fun _ _ h => h)
      fun _ h => h.1).bind fun stage => Ends.known ?_
    rintro ⟨suffix, rfl⟩
    exact installStaged_ends htar suffix hdigest
  · simp only [ne_eq, hdigest, not_false_eq_true, if_true]
    exact Ends.of_throw fun _ hd => hd.1

/-! ## Resolving -/

/-- The place of an entry that is moved aside is empty. -/
theorem moved_node {d d' : Disk} (hp : Beside spec dir p)
    (h : renamed d (rootPath spec dir) p = .ok d') :
    d'.node (rootPath spec dir) = none := by
  obtain ⟨rfl, -⟩ := renamed_ok h
  have hnot : ¬ p <+: rootPath spec dir := by simpa using hp.not_prefix_root []
  simpa using d.node_graft_source hnot hp.root_not_prefix []

theorem doubtful_of_none {d : Disk} (h : d.node (rootPath spec dir) = none) :
    Doubtful tar sha256 spec dir calm d := by
  have hno : accepts sha256 spec dir d = false := by
    refine Bool.eq_false_iff.2 fun haccepts => ?_
    have hsome := isSome_of_accepts haccepts
    rw [h] at hsome
    cases hsome
  refine ⟨fun haccepts => ?_, fun _ => hno⟩
  rw [hno] at haccepts
  cases haccepts

theorem rename_aside_ends (hp : Beside spec dir p) :
    (setting tar sha256 spec dir calm offline).Ends (Doubtful tar sha256 spec dir calm)
      (rename (rootPath spec dir) p) (fun _ => Doubtful tar sha256 spec dir calm)
      (Doubtful tar sha256 spec dir calm) := by
  refine kept_ends (.rename (rootPath spec dir) p) rfl (fun answer => ⟨answer, rfl⟩)
    fun d c hd => ?_
  have hd' : Doubtful tar sha256 spec dir calm
      (changed c d (renamed d (rootPath spec dir) p) d).2 := by
    rcases changed_cases c d (renamed d (rootPath spec dir) p) d with ⟨d', h', h⟩ | ⟨e, h⟩ | ⟨e, h⟩
    · rw [h]
      exact doubtful_of_none (moved_node hp h')
    · rw [h]
      exact hd
    · rw [h]
      exact hd
  exact ⟨hd.guarantee (by simp [Op.Ordinary]) hd'.1, hd'⟩

theorem moveAside_ends (pid : ℕ) :
    (setting tar sha256 spec dir calm offline).Ends (Doubtful tar sha256 spec dir calm)
      (moveAside spec pid (rootPath spec dir))
      (fun stale d => Doubtful tar sha256 spec dir calm d ∧
        ∀ path, stale = some path → Away spec dir path) (Doubtful tar sha256 spec dir calm) := by
  intro d₀ hd₀
  refine Ends.bind (exists_ends hd₀.1 _) (fun b => Ends.known fun _ => ?_) d₀ rfl
  have hpre : ∀ d, d = d₀ → Doubtful tar sha256 spec dir calm d := by
    rintro d rfl
    exact hd₀
  cases b with
  | false => exact Ends.of_pure fun d hd => ⟨hpre d hd, by simp⟩
  | true =>
      simp only [parentOf_root, if_true]
      have hclock : (setting tar sha256 spec dir calm offline).Ends
          (Doubtful tar sha256 spec dir calm) sinceEpoch
          (fun _ => Doubtful tar sha256 spec dir calm) (Doubtful tar sha256 spec dir calm) :=
        kept_ends .sinceEpoch rfl (fun answer => ⟨answer, rfl⟩) fun d c hd =>
          ⟨look_guarantee hd.1 (by simp [Op.Ordinary]), hd⟩
      refine (hclock.mapErr.pre hpre).bind fun nanos => ?_
      refine (rename_aside_ends (away_stale pid nanos).beside).mapErr.bind fun _ => ?_
      refine Ends.of_pure fun d hd => ⟨hd, ?_⟩
      rintro path ⟨⟩
      exact away_stale pid nanos

theorem removeStale_ends (htar : tar.Contained) {stale : Option Path}
    (hstale : ∀ path, stale = some path → Away spec dir path) :
    (setting tar sha256 spec dir calm offline).Ends (Verified tar sha256 spec dir)
      (removeStale stale) (fun _ => Verified tar sha256 spec dir)
      (Verified tar sha256 spec dir) := by
  cases stale with
  | none => exact Ends.of_pure fun _ hd => hd
  | some path =>
      refine (isDir_ends decided_verified.sound path).bind fun b => Ends.mapErr ?_
      cases b with
      | true => exact removeDirAll_ends htar decided_verified (hstale path rfl)
      | false => exact removeFile_ends htar decided_verified (hstale path rfl)

theorem reinstall_ends (htar : tar.Contained) (honline : offline = false) (pid : ℕ) :
    (setting tar sha256 spec dir calm offline).Ends (Doubtful tar sha256 spec dir calm)
      (reinstall tar sha256 spec pid (rootPath spec dir))
      (fun path d => Verified tar sha256 spec dir d ∧ path = spec.executable (rootPath spec dir))
      (Sound tar sha256 spec dir) := by
  refine ((moveAside_ends pid).weaken (fun _ h => h) (fun _ _ h => h)
    fun _ h => h.1).bind fun stale => Ends.known fun hstale => ?_
  refine (install_ends htar honline).attempt.bind fun r => ?_
  cases r with
  | ok _ =>
      refine ((removeStale_ends htar hstale).weaken (fun _ h => h) (fun _ _ h => h)
        decided_verified.sound).bind fun _ => ?_
      exact Ends.of_pure fun _ hd => ⟨hd, rfl⟩
  | error e => exact Ends.of_throw fun _ hd => hd

theorem unavailable_ends {Q : Path → Disk → Prop} :
    (setting tar sha256 spec dir calm offline).Ends (Sound tar sha256 spec dir)
      (unavailable spec (rootPath spec dir)) Q (Sound tar sha256 spec dir) := by
  intro d₀ hd₀
  refine Ends.bind (exists_ends hd₀ _) (fun b => Ends.known fun _ => ?_) d₀ rfl
  cases b with
  | true => exact Ends.of_throw (sound_of_eq hd₀)
  | false => exact Ends.of_throw (sound_of_eq hd₀)

/-- A path comes back only beside a verified entry. -/
theorem resolveLocked_ends (htar : tar.Contained) (env : ToolEnv) (pid : ℕ) :
    (setting tar sha256 spec dir calm env.offline).Ends (Sound tar sha256 spec dir)
      (resolveLocked tar sha256 spec env pid (rootPath spec dir))
      (fun path d => Verified tar sha256 spec dir d ∧ path = spec.executable (rootPath spec dir))
      (Sound tar sha256 spec dir) := by
  refine (validCache_ends htar).bind fun b => ?_
  cases b with
  | true => exact Ends.of_pure fun d hd => ⟨hd.2.1 rfl, rfl⟩
  | false =>
      simp only [Bool.false_eq_true, if_false]
      cases hoffline : env.offline with
      | true => exact unavailable_ends.pre fun d hd => hd.1
      | false => exact (reinstall_ends htar rfl pid).pre fun d hd => ⟨hd.1, fun h => hd.2.2 h rfl⟩

/-! ## Processes -/

section

variable (tar : Tar) (sha256 : Bytes → String) (spec : ToolSpec) (base : Path)

/-- The directory of the tools. -/
def toolDir : Path := base ++ ["cja"]

abbrev Cached := State Op Answer Disk (Job spec base) Path String Path

abbrev Step := Action (Job spec base) Choice IoError

abbrev Report := Event Op (Job spec base) String Path

def cacheStep (st : Cached spec base) (a : Step spec base) :
    Option (Cached spec base × List (Report spec base)) :=
  step (effect tar) (resolve tar sha256 spec base) st a

/-- A path comes back only of a verified entry, nothing is fetched offline, and an entry
of an archive is placed in the staging directory. -/
structure StepSound (st st' : Cached spec base) (es : List (Report spec base)) : Prop where
  returned : ∀ job path, .returned job (.ok path) ∈ es →
    Verified tar sha256 spec (toolDir base) st'.shared ∧
      path = spec.executable (rootPath spec (toolDir base))
  online : ∀ job url, .performed job (.fetch url) ∈ es → job.env.offline = false
  staged : ∀ job dst e, .performed job (.unpackIn dst e) ∈ es →
    (∃ suffix, dst = stagePath (toolDir base) suffix) ∧
      ∀ q, ¬ dst <+: q → st'.shared.node q = st.shared.node q

/-- A valid entry stays as it is, and is not fetched again. -/
def StepKeeps (st st' : Cached spec base) (es : List (Report spec base)) : Prop :=
  accepts sha256 spec (toolDir base) st.shared = true →
    (∀ r, st'.shared.node (rootPath spec (toolDir base) ++ r) =
      st.shared.node (rootPath spec (toolDir base) ++ r)) ∧
    ∀ job url, .performed job (.fetch url) ∉ es

/-- No look at a valid entry fails in the step. -/
def CalmStep (st : Cached spec base) (a : Step spec base) : Prop :=
  Allowed (Undisturbed sha256 spec (toolDir base)) st a

/-- What a job returns is a path beside a verified entry, or an error. -/
def Result (_ : Job spec base) (r : Except String Path) (d : Disk) : Prop :=
  match r with
  | .ok path => Verified tar sha256 spec (toolDir base) d ∧
      path = spec.executable (rootPath spec (toolDir base))
  | .error _ => Sound tar sha256 spec (toolDir base) d

end

variable {base : Path}

theorem resolve_conduct (htar : tar.Contained) (calm : Prop) :
    Conduct (effect tar) (resolve tar sha256 spec base)
      (fun d op c => calm → Undisturbed sha256 spec (toolDir base) d op c)
      (Sound tar sha256 spec (toolDir base))
      (fun job => Guarantee tar sha256 spec (toolDir base) calm job.env.offline)
      (fun _ place => place = toolDir base) (Result tar sha256 spec base) where
  opening job := by
    have hquiet : ∀ op : Op, op.Ordinary → (∀ c d, (effect tar op c d).2 = d) →
        ∀ c d, Sound tar sha256 spec (toolDir base) d → (effect tar op c d).2 = d ∧
          Guarantee tar sha256 spec (toolDir base) calm job.env.offline d op d :=
      fun op ho hsame c d hd => ⟨hsame c d, look_guarantee hd ho⟩
    simp only [resolve, openCache, job.shared]
    refine ⟨hquiet (.createDirAll _) (by simp [Op.Ordinary]) fun c d => looked_snd c d _,
      fun answer => ?_⟩
    cases answer with
    | error e =>
        intro place hplace
        cases hplace
    | ok _ =>
        refine ⟨hquiet (.openLock _) (by simp [Op.Ordinary]) fun c d => looked_snd c d _,
          fun answer => ?_⟩
        cases answer with
        | error e =>
            intro place hplace
            cases hplace
        | ok _ =>
            rintro place ⟨⟩
            rfl
  critical := by
    rintro job place d rfl hd
    refine Safe.mono ?_ (resolveLocked_ends htar job.env job.pid d hd)
    intro r d' hr
    cases r with
    | ok path => exact hr
    | error e => exact hr
  keeps := fun _ _ _ _ h => h.sound

theorem sound_empty : Sound tar sha256 spec (toolDir base) [] := by
  have hdoubt : Doubtful tar sha256 spec (toolDir base) False [] := doubtful_of_none rfl
  exact hdoubt.1

section

variable {st st' : Cached spec base} {es : List (Report spec base)} {a : Step spec base}
variable {log : List (Report spec base)}

/-- The runs in which no look at a valid entry fails, or all of them. -/
def Calm (sha256 : Bytes → String) (calm : Prop) (st : Cached spec base) (a : Step spec base) :
    Prop := calm → CalmStep sha256 spec base st a

theorem allowed_of_calm (h : Calm sha256 calm st a) :
    Allowed (fun d op c => calm → Undisturbed sha256 spec (toolDir base) d op c) st a := by
  cases a with
  | act c =>
      simp only [Allowed]
      split
      · next hholder =>
          intro hcalm
          simpa only [CalmStep, Allowed, hholder] using h hcalm
      · trivial
      · trivial
  | start | opens | refuse | acquire | release | kill | killHolder => trivial

/-- What a step of a run reports. -/
theorem reported (htar : tar.Contained)
    (hrun : StepRun.Run (cacheStep tar sha256 spec base) (Calm sha256 calm) (State.initial []) log st)
    (ha : Calm sha256 calm st a) (hs : cacheStep tar sha256 spec base st a = some (st', es)) :
    ∀ e ∈ es, Reported
      (fun job => Guarantee tar sha256 spec (toolDir base) calm job.env.offline)
      (Result tar sha256 spec base) st st' e := by
  have hordered := ordered_run (resolve_conduct htar calm) sound_empty
    (fun st a h => allowed_of_calm h) hrun
  exact (hordered.step (resolve_conduct htar calm) (allowed_of_calm ha) hs).2

theorem stepSound_of_reported
    (h : ∀ e ∈ es, Reported
      (fun job => Guarantee tar sha256 spec (toolDir base) calm job.env.offline)
      (Result tar sha256 spec base) st st' e) : StepSound tar sha256 spec base st st' es where
  returned := fun _ _ hmem => h _ hmem
  online := fun _ url hmem => (h _ hmem).online url rfl
  staged := fun _ dst e hmem => (h _ hmem).staged dst e rfl

theorem stepKeeps_of_reported (hs : cacheStep tar sha256 spec base st a = some (st', es))
    (h : ∀ e ∈ es, Reported
      (fun job => Guarantee tar sha256 spec (toolDir base) True job.env.offline)
      (Result tar sha256 spec base) st st' e) : StepKeeps sha256 spec base st st' es := by
  intro haccepts
  constructor
  · intro r
    rcases step_shared hs with hsame | ⟨job, op, hmem⟩
    · rw [hsame]
    · exact ((h _ hmem).kept trivial haccepts).1 r
  · intro job url hmem
    exact ((h _ hmem).kept trivial haccepts).2 url rfl

end

/-- From an empty cache, in every run: a path comes back only of a verified entry,
nothing is fetched offline and nothing is unpacked outside the staging directory; and
where no look at a valid entry fails, a valid entry is never moved, replaced or fetched
again. -/
theorem verified_tool_cache (tar : Tar) (sha256 : Bytes → String) (spec : ToolSpec) (base : Path)
    (htar : tar.Contained) :
    (∀ log st, StepRun.Run (cacheStep tar sha256 spec base) StepRun.Free (State.initial []) log st →
      ∀ a st' es, cacheStep tar sha256 spec base st a = some (st', es) →
        StepSound tar sha256 spec base st st' es) ∧
    ∀ log st, StepRun.Run (cacheStep tar sha256 spec base) (CalmStep sha256 spec base)
        (State.initial []) log st →
      ∀ a st' es, CalmStep sha256 spec base st a →
        cacheStep tar sha256 spec base st a = some (st', es) →
        StepSound tar sha256 spec base st st' es ∧ StepKeeps sha256 spec base st st' es := by
  constructor
  · intro log st hrun a st' es hs
    have hfree : ∀ (st : Cached spec base) (a : Step spec base), StepRun.Free st a →
        Calm sha256 False st a := fun _ _ _ h => h.elim
    exact stepSound_of_reported (reported htar (hrun.mono hfree) (hfree st a trivial) hs)
  · intro log st hrun a st' es ha hs
    have hcalm : ∀ st a, CalmStep sha256 spec base st a → Calm sha256 True st a :=
      fun _ _ h _ => h
    have hreported := reported htar (hrun.mono hcalm) (hcalm st a ha) hs
    exact ⟨stepSound_of_reported hreported, stepKeeps_of_reported hs hreported⟩

/-! ## A check that fails -/

/-- A single file with the digest of `abc`. -/
def abcTool : ToolSpec where
  name := "abc"
  version := "1.0.0"
  platform := "linux-x64"
  url := "https://example.test/abc"
  digest := "ba7816bf8f01cfea414140de5dae2223b00361a396177a9cb410ff61f20015ad"
  archiveExecutable := none
  tool := .tailwind
  visible := ⟨'a', "bc".toList, rfl, by decide⟩

def abcSha256 (bytes : Bytes) : String := if bytes = [97, 98, 99] then abcTool.digest else ""

/-- An extractor for a tool without an archive. -/
def noTar : Tar where
  entries _ := .error "invalid gzip header"
  unpackIn _ _ d := (.ok (), d)
  partway _ _ _ d := d

def userCache : Path := ["/", "home", "me", ".cache"]

def abcJob (thread : ℕ) : Job abcTool userCache where
  env := ⟨none, none, none, some ["/", "home", "me"], false⟩
  pid := 100
  thread
  noOverride := rfl
  shared := rfl

def quietly : Choice := ⟨none, 0, fun _ => false, some 5, "x", .ok 7, .ok [97, 98, 99]⟩

/-- A job comes to hold the lock. -/
def enter (thread : ℕ) : List (Step abcTool userCache) :=
  .start (abcJob thread) :: List.replicate 3 (.opens (abcJob thread) quietly) ++
    [.acquire (abcJob thread)]

/-- One job installs the tool; the next one finds the entry, and its first look fails. -/
def disturbedRun : List (Step abcTool userCache) :=
  enter 0 ++ List.replicate 9 (.act quietly) ++ [.release] ++ enter 1 ++
    [.act { quietly with fault := some (.other "Input/output error (os error 5)") },
      .act quietly, .act quietly]

theorem noTar_contained : noTar.Contained := fun _ _ _ _ _ _ => ⟨rfl, fun _ => rfl⟩

def faultless : Step abcTool userCache → Bool
  | .act c => c.fault.isNone
  | .start _ | .opens .. | .refuse .. | .acquire _ | .release | .kill _ | .killHolder => true

theorem calmStep_of_faultless {st : Cached abcTool userCache} {a : Step abcTool userCache}
    (h : faultless a = true) : CalmStep abcSha256 abcTool userCache st a := by
  cases a with
  | act c =>
      have hfault : c.fault = none := Option.isNone_iff_eq_none.1 h
      simp only [CalmStep, Allowed]
      split
      · next op _ _ =>
          intro _
          cases op <;> simp [hfault]
      · trivial
      · trivial
  | start | opens | refuse | acquire | release | kill | killHolder => trivial

/-- The tool is installed, and from then on its entry stays. -/
theorem abc_tool_cache : ∃ log st, StepRun.Run (cacheStep noTar abcSha256 abcTool userCache)
    (CalmStep abcSha256 abcTool userCache) (State.initial []) log st ∧
    accepts abcSha256 abcTool (toolDir userCache) st.shared = true ∧
    ∀ a st' es, CalmStep abcSha256 abcTool userCache st a →
      cacheStep noTar abcSha256 abcTool userCache st a = some (st', es) →
      StepSound noTar abcSha256 abcTool userCache st st' es ∧
        StepKeeps abcSha256 abcTool userCache st st' es := by
  obtain ⟨log, st, hrun, haccepts⟩ := StepRun.exists_run
    (cacheStep noTar abcSha256 abcTool userCache) (fun _ a => faultless a) (State.initial [])
    (enter 0 ++ List.replicate 9 (.act quietly))
    (fun _ st => accepts abcSha256 abcTool (toolDir userCache) st.shared) (by decide +kernel)
  have hcalm : StepRun.Run (cacheStep noTar abcSha256 abcTool userCache)
      (CalmStep abcSha256 abcTool userCache) (State.initial []) log st :=
    hrun.mono fun _ _ h => calmStep_of_faultless h
  exact ⟨log, st, hcalm, haccepts,
    (verified_tool_cache noTar abcSha256 abcTool userCache noTar_contained).2 log st hcalm⟩

/-- Whether the next operation takes a valid entry away. -/
def losesEntry (st : Cached abcTool userCache) : Bool :=
  accepts abcSha256 abcTool (toolDir userCache) st.shared &&
    (cacheStep noTar abcSha256 abcTool userCache st (.act quietly)).any fun r =>
      (r.1.shared.node (rootPath abcTool (toolDir userCache) ++ [])).isNone

/-- A failing `exists` makes a later operation move a valid entry aside. -/
theorem valid_entry_moved : ¬ ∀ log st,
    StepRun.Run (cacheStep noTar abcSha256 abcTool userCache) StepRun.Free (State.initial []) log st →
    ∀ a st' es, cacheStep noTar abcSha256 abcTool userCache st a = some (st', es) →
      StepKeeps abcSha256 abcTool userCache st st' es := by
  intro hall
  obtain ⟨log, st, hrun, hloses⟩ := StepRun.exists_free_run
    (cacheStep noTar abcSha256 abcTool userCache) (State.initial []) disturbedRun
    (fun _ st => losesEntry st) (by decide +kernel)
  rw [losesEntry, Bool.and_eq_true, Option.any_eq_true] at hloses
  obtain ⟨haccepts, ⟨st', es⟩, hs, hmoved⟩ := hloses
  have hsome : (st.shared.node (rootPath abcTool (toolDir userCache) ++ [])).isSome = true := by
    rw [List.append_nil]
    exact isSome_of_accepts haccepts
  rw [← (hall log st hrun _ st' es hs haccepts).1 [], Option.isSome_iff_ne_none] at hsome
  exact hsome (Option.isNone_iff_eq_none.1 hmoved)

end Cja.ToolCache
