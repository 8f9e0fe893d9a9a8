import Cja.Tools.Verified

/-!
# The check of a cache entry

One lemma a function says from which cache it starts and what it leaves, with a value
and with an error. The check reads, and at most writes the marker of a verified file. A
yes means a verified entry whatever failed; a no means that there is none to accept
where no look at the entry failed.
-/
namespace Cja.ToolCache
open FileTree FileTree.Tree Locked Locked.Setting

variable {tar : Tar} {sha256 : Bytes → String} {spec : ToolSpec} {dir : Path}
variable {calm : Prop} {offline : Bool} {d₀ : Disk} {p : Path}

/-! ## Looks -/

section

variable {E : Disk → Prop} {ε : Type}

theorem look_guarantee {op : Op} {d : Disk} (hs : Sound tar sha256 spec dir d)
    (ho : op.Ordinary) : Guarantee tar sha256 spec dir calm offline d op d :=
  guarantee_of_same ho (fun _ => rfl) hs

/-- A check says what is there, or fails and says no. -/
theorem exists_ends (hs : Sound tar sha256 spec dir d₀) (p : Path) :
    (setting tar sha256 spec dir calm offline).Ends (· = d₀)
      (ask (Op.exists p) : Fallible Op Answer ε Bool)
      (fun b d => d = d₀ ∧ (b = true → (d₀.node p).isSome = true) ∧
        (calm → accepts sha256 spec dir d₀ = true → rootPath spec dir <+: p →
          b = (d₀.node p).isSome)) E := by
  refine Ends.ask ?_
  rintro d c rfl hc
  refine ⟨look_guarantee hs (by simp [Op.Ordinary]), rfl, ?_, ?_⟩
  · intro h
    exact (Bool.and_eq_true_iff.1 h).2
  · intro hcalm haccepts hroot
    have hfault : c.fault = none := hc hcalm haccepts hroot
    simp [setting, effect, hfault]

theorem isFile_ends (hs : Sound tar sha256 spec dir d₀) (p : Path) :
    (setting tar sha256 spec dir calm offline).Ends (· = d₀)
      (ask (Op.isFile p) : Fallible Op Answer ε Bool)
      (fun b d => d = d₀ ∧ (b = true → isFileNode (d₀.node p) = true) ∧
        (calm → accepts sha256 spec dir d₀ = true → rootPath spec dir <+: p →
          b = isFileNode (d₀.node p))) E := by
  refine Ends.ask ?_
  rintro d c rfl hc
  refine ⟨look_guarantee hs (by simp [Op.Ordinary]), rfl, ?_, ?_⟩
  · intro h
    exact (Bool.and_eq_true_iff.1 h).2
  · intro hcalm haccepts hroot
    have hfault : c.fault = none := hc hcalm haccepts hroot
    simp [setting, effect, hfault]

theorem isDir_ends {J : Disk → Prop} (hJ : ∀ d, J d → Sound tar sha256 spec dir d) (p : Path) :
    (setting tar sha256 spec dir calm offline).Ends J
      (ask (Op.isDir p) : Fallible Op Answer ε Bool) (fun _ => J) E :=
  Ends.ask fun d _ hd _ => ⟨look_guarantee (hJ d hd) (by simp [Op.Ordinary]), hd⟩

theorem looked_ok {α : Type} {c : Choice} {d : Disk} {answer : Except IoError α} {a : α}
    (h : (looked c d answer).1 = .ok a) : answer = .ok a := by
  unfold looked at h
  split at h
  · cases h
  · exact h

theorem looked_error {α : Type} {c : Choice} {d : Disk} {answer : Except IoError α} {e : IoError}
    (h : (looked c d answer).1 = .error e) (hc : c.fault = none) : answer = .error e := by
  unfold looked at h
  rw [hc] at h
  exact h

/-- A look that answers with a result. -/
theorem looked_ends {α : Type} (op : Op) {m : Io α} {P : Disk → Prop}
    {answer : Choice → Disk → Except IoError α} {k : Answer op → Program Op Answer (Except IoError α)}
    (hm : m.run = .perform op k) (ho : op.Ordinary) (hP : ∀ d, P d → Sound tar sha256 spec dir d)
    (heffect : ∀ c d, k (effect tar op c d).1 = .done (looked c d (answer c d)).1 ∧
      (effect tar op c d).2 = d) {Q : α → Disk → Prop}
    (hQ : ∀ d c a, P d → answer c d = .ok a → Q a d) (hE : ∀ d, P d → E d) :
    (setting tar sha256 spec dir calm offline).Ends P m Q E := by
  intro d hd
  rw [hm]
  intro c hc
  obtain ⟨hk, hsame⟩ := heffect c d
  change Guarantee tar sha256 spec dir calm offline d op (effect tar op c d).2 ∧
    (setting tar sha256 spec dir calm offline).Safe _ (k (effect tar op c d).1)
      (effect tar op c d).2
  rw [hk, hsame]
  refine ⟨look_guarantee (hP d hd) ho, Safe.result ?_ fun _ _ => hE d hd⟩
  intro a ha
  exact hQ d c a hd (looked_ok ha)

theorem metadata_ends (hs : Sound tar sha256 spec dir d₀) {bytes : Bytes} {m : Option ℕ} {x : Bool}
    (hp : d₀.node p = some (.file bytes m x)) :
    (setting tar sha256 spec dir calm offline).Ends (· = d₀) (metadata p)
      (fun len d => d = d₀ ∧ len = bytes.length) (· = d₀) := by
  refine looked_ends (.metadata p) rfl (by simp [Op.Ordinary]) (by rintro d rfl; exact hs)
    (fun c d => ⟨rfl, looked_snd c d _⟩)
    ?_ fun d hd => hd
  rintro d c len rfl hlen
  rw [hp] at hlen
  exact ⟨rfl, (Except.ok.inj hlen).symm⟩

theorem modifiedTime_ends (hs : Sound tar sha256 spec dir d₀) {bytes : Bytes} {m : Option ℕ}
    {x : Bool} (hp : d₀.node p = some (.file bytes m x)) :
    (setting tar sha256 spec dir calm offline).Ends (· = d₀) (modifiedTime p)
      (fun time d => d = d₀ ∧ time = m) (· = d₀) := by
  refine looked_ends (.modified p) rfl (by simp [Op.Ordinary]) (by rintro d rfl; exact hs)
    (fun c d => ⟨rfl, looked_snd c d _⟩)
    ?_ fun d hd => hd
  rintro d c time rfl htime
  rw [hp] at htime
  exact ⟨rfl, (Except.ok.inj htime).symm⟩

theorem openFile_ends (hs : Sound tar sha256 spec dir d₀) (p : Path) :
    (setting tar sha256 spec dir calm offline).Ends (· = d₀) (openFile p)
      (fun _ d => d = d₀) (· = d₀) := by
  refine looked_ends (.openFile p) rfl (by simp [Op.Ordinary]) (by rintro d rfl; exact hs)
    (fun c d => ⟨rfl, looked_snd c d _⟩)
    (fun d c _ hd _ => hd) fun d hd => hd

theorem readBytes_ends (hs : Sound tar sha256 spec dir d₀) (p : Path) :
    (setting tar sha256 spec dir calm offline).Ends (· = d₀) (readBytes p)
      (fun bytes d => d = d₀ ∧ bytesAt d₀ p = .ok bytes) (· = d₀) := by
  refine looked_ends (.readBytes p) rfl (by simp [Op.Ordinary]) (by rintro d rfl; exact hs)
    (fun c d => ⟨rfl, looked_snd c d _⟩)
    ?_ fun d hd => hd
  rintro d c bytes rfl hbytes
  exact ⟨rfl, hbytes⟩

/-- The digest marker of an entry that the check accepts is read. -/
theorem readToString_ends (hs : Sound tar sha256 spec dir d₀) (p : Path) :
    (setting tar sha256 spec dir calm offline).Ends (· = d₀) (readToString p)
      (fun text d => d = d₀ ∧ textAt d₀ p = .ok text)
      (fun d => d = d₀ ∧ (calm → accepts sha256 spec dir d₀ = true →
        p = rootPath spec dir ++ [digestMarker] → (textAt d₀ p).toOption = none)) := by
  rintro d rfl c hc
  change Guarantee tar sha256 spec dir calm offline d (.readToString p)
      (looked c d (textAt d p)).2 ∧
    (setting tar sha256 spec dir calm offline).Safe _ (.done (looked c d (textAt d p)).1)
      (looked c d (textAt d p)).2
  rw [looked_snd]
  refine ⟨look_guarantee hs (by simp [Op.Ordinary]), Safe.result ?_ ?_⟩
  · intro text htext
    exact ⟨rfl, looked_ok htext⟩
  · intro e he
    refine ⟨rfl, fun hcalm haccepts hp => ?_⟩
    rw [looked_error he (hc hcalm haccepts hp)]
    rfl

end

/-- An operation with the same condition before it and after it. -/
theorem kept_ends {α ε : Type} (op : Op) {m : Fallible Op Answer ε α} {J : Disk → Prop}
    {k : Answer op → Program Op Answer (Except ε α)} (hm : m.run = .perform op k)
    (hk : ∀ answer, ∃ r, k answer = .done r)
    (hstep : ∀ d c, J d → Guarantee tar sha256 spec dir calm offline d op (effect tar op c d).2 ∧
      J (effect tar op c d).2) :
    (setting tar sha256 spec dir calm offline).Ends J m (fun _ => J) J := by
  intro d hd
  rw [hm]
  intro c _
  obtain ⟨hg, hJ⟩ := hstep d c hd
  obtain ⟨r, hr⟩ := hk (effect tar op c d).1
  refine ⟨hg, ?_⟩
  change (setting tar sha256 spec dir calm offline).Safe _ (k (effect tar op c d).1)
    (effect tar op c d).2
  rw [hr]
  exact Safe.result (fun _ _ => hJ) fun _ _ => hJ

/-! ## The check -/

/-- What the answer of the check says of the cache it leaves. -/
def Checked (tar : Tar) (sha256 : Bytes → String) (spec : ToolSpec) (dir : Path) (calm : Prop)
    (b : Bool) (d : Disk) : Prop :=
  Sound tar sha256 spec dir d ∧ (b = true → Verified tar sha256 spec dir d) ∧
    (calm → b = false → accepts sha256 spec dir d = false)

theorem marked_ends (hs : Sound tar sha256 spec dir d₀) (marker : Path)
    (expected : Option (List Char)) :
    (setting tar sha256 spec dir calm offline).Ends (· = d₀) (marked marker expected)
      (fun b d => d = d₀ ∧ (b = true → ∃ text, expected = some text ∧
        (textAt d₀ marker).toOption = some text)) (Sound tar sha256 spec dir) := by
  cases expected with
  | none => exact Ends.of_pure fun d hd => ⟨hd, nofun⟩
  | some text =>
      refine (readToString_ends hs marker).attempt.bind fun answer => ?_
      cases answer with
      | error e => exact Ends.of_pure fun d hd => ⟨hd.1, nofun⟩
      | ok value =>
          refine Ends.known fun hvalue => Ends.of_pure fun d hd => ⟨hd, fun heq => ?_⟩
          exact ⟨text, rfl, by rw [hvalue, ← LawfulBEq.eq_of_beq heq]; rfl⟩

theorem hashFile_ends (hs : Sound tar sha256 spec dir d₀) {bytes : Bytes} {m : Option ℕ} {x : Bool}
    (hp : d₀.node p = some (.file bytes m x)) :
    (setting tar sha256 spec dir calm offline).Ends (· = d₀) (hashFile sha256 spec p)
      (fun actual d => d = d₀ ∧ actual = sha256 bytes) (· = d₀) := by
  refine (openFile_ends hs p).mapErr.bind fun _ => ?_
  refine (readBytes_ends hs p).mapErr.bind fun read => Ends.known fun hread => ?_
  refine Ends.of_pure fun d hd => ⟨hd, ?_⟩
  simp only [bytesAt, hp, Except.ok.injEq] at hread
  rw [hread]

theorem markerPath_root (spec : ToolSpec) (dir : Path) :
    markerPath spec (rootPath spec dir) = dir ++ [spec.verifiedName] := by
  simp [markerPath, rootPath]

theorem writeMarker_ends (htar : tar.Contained) (expected : Option (List Char)) :
    (setting tar sha256 spec dir calm offline).Ends (Verified tar sha256 spec dir)
      (writeMarker spec (rootPath spec dir) expected) (fun _ => Verified tar sha256 spec dir)
      (Verified tar sha256 spec dir) := by
  cases expected with
  | none => exact Ends.of_pure fun _ hd => hd
  | some text =>
      refine (kept_ends (.write (markerPath spec (rootPath spec dir)) (Utf8.bytes text)) rfl
        (fun answer => ⟨answer, rfl⟩) fun d c hd => ?_).mapErr
      refine hd.step htar (by simp [Op.Ordinary]) ?_
      intro p hp
      rw [Op.places, List.mem_singleton] at hp
      rw [hp, markerPath_root]
      exact beside_marker

theorem accepts_file (hkind : spec.archiveExecutable = none) {bytes : Bytes} {m : Option ℕ}
    {x : Bool} (hroot : d₀.node (rootPath spec dir) = some (.file bytes m x)) :
    accepts sha256 spec dir d₀ = true ↔
      (∃ nanos, m = some nanos ∧ (textAt d₀ (dir ++ [spec.verifiedName])).toOption =
        some (stamp spec bytes.length nanos)) ∨ sha256 bytes = spec.digest := by
  simp only [accepts, hkind, hroot, Bool.or_eq_true, decide_eq_true_eq, Option.any_eq_true]

theorem isFileNode_iff {n : Option Node} :
    isFileNode n = true ↔ ∃ bytes m x, n = some (.file bytes m x) := by
  cases n with
  | none => simp [isFileNode]
  | some n => cases n <;> simp [isFileNode]

theorem isFileNode_of_accepts (hkind : spec.archiveExecutable = none)
    (h : accepts sha256 spec dir d₀ = true) :
    isFileNode (d₀.node (rootPath spec dir)) = true := by
  unfold accepts at h
  rw [hkind] at h
  cases hroot : d₀.node (rootPath spec dir) with
  | none =>
      rw [hroot] at h
      cases h
  | some n =>
      cases n with
      | file bytes m x => rfl
      | dir =>
          rw [hroot] at h
          cases h

theorem digest_of_accepts (hs : Sound tar sha256 spec dir d₀)
    (hkind : spec.archiveExecutable = none) {bytes : Bytes} {m : Option ℕ} {x : Bool}
    (hroot : d₀.node (rootPath spec dir) = some (.file bytes m x))
    (h : accepts sha256 spec dir d₀ = true) : sha256 bytes = spec.digest := by
  have hverified := hs h
  unfold Verified at hverified
  rw [hkind] at hverified
  obtain ⟨bytes', m', hnode, hdigest⟩ := hverified
  rw [hroot] at hnode
  cases hnode
  exact hdigest

theorem sound_of_eq (hs : Sound tar sha256 spec dir d₀) (d : Disk) (h : d = d₀) :
    Sound tar sha256 spec dir d := h ▸ hs

/-- The hash of a file decides where its marker does not. -/
theorem rehash_ends (htar : tar.Contained) (hs : Sound tar sha256 spec dir d₀)
    (hkind : spec.archiveExecutable = none) {bytes : Bytes} {m : Option ℕ} {x : Bool}
    (hroot : d₀.node (rootPath spec dir) = some (.file bytes m x)) (expected : Option (List Char)) :
    (setting tar sha256 spec dir calm offline).Ends (· = d₀)
      (do
        let actual ← hashFile sha256 spec (rootPath spec dir)
        if actual = spec.digest then do
          writeMarker spec (rootPath spec dir) expected
          pure true
        else pure false) (Checked tar sha256 spec dir calm) (Sound tar sha256 spec dir) := by
  refine ((hashFile_ends hs hroot).weaken (fun _ h => h) (fun _ _ h => h)
    (sound_of_eq hs)).bind fun actual => Ends.known ?_
  rintro rfl
  by_cases hdigest : sha256 bytes = spec.digest
  · have hverified : Verified tar sha256 spec dir d₀ :=
      hs ((accepts_file hkind hroot).2 (.inr hdigest))
    rw [if_pos hdigest]
    refine ((writeMarker_ends htar _).weaken (by rintro d rfl; exact hverified)
      (fun _ _ h => h) decided_verified.sound).bind fun _ => ?_
    exact Ends.of_pure fun d hd => ⟨decided_verified.sound d hd, fun _ => hd, nofun⟩
  · rw [if_neg hdigest]
    refine Ends.of_pure ?_
    rintro d rfl
    exact ⟨hs, nofun, fun _ _ => Bool.eq_false_iff.2 fun h =>
      hdigest (digest_of_accepts hs hkind hroot h)⟩

theorem validFileCache_ends (htar : tar.Contained) (hs : Sound tar sha256 spec dir d₀)
    (hkind : spec.archiveExecutable = none) :
    (setting tar sha256 spec dir calm offline).Ends (· = d₀)
      (validFileCache sha256 spec (rootPath spec dir)) (Checked tar sha256 spec dir calm)
      (Sound tar sha256 spec dir) := by
  refine (isFile_ends hs _).bind fun b => Ends.known ?_
  rintro ⟨hfile, hcheck⟩
  cases b with
  | false =>
      refine Ends.of_pure ?_
      rintro d rfl
      refine ⟨hs, nofun, fun hcalm _ => Bool.eq_false_iff.2 fun haccepts => ?_⟩
      have hfalse := hcheck hcalm haccepts (List.prefix_refl _)
      rw [isFileNode_of_accepts hkind haccepts] at hfalse
      cases hfalse
  | true =>
      obtain ⟨bytes, m, x, hroot⟩ := isFileNode_iff.1 (hfile rfl)
      refine ((metadata_ends hs hroot).mapErr.weaken (fun _ h => h) (fun _ _ h => h)
        (sound_of_eq hs)).bind fun len => Ends.known ?_
      rintro rfl
      refine ((modifiedTime_ends hs hroot).mapErr.weaken (fun _ h => h) (fun _ _ h => h)
        (sound_of_eq hs)).bind fun time => Ends.known ?_
      rintro rfl
      refine (marked_ends hs _ _).bind fun b => Ends.known fun hmarked => ?_
      cases b with
      | true =>
          refine Ends.of_pure ?_
          rintro d rfl
          refine ⟨hs, fun _ => hs ((accepts_file hkind hroot).2 (.inl ?_)), nofun⟩
          obtain ⟨text, htext, hread⟩ := hmarked rfl
          obtain ⟨nanos, rfl, rfl⟩ := Option.map_eq_some_iff.1 htext
          rw [markerPath_root] at hread
          exact ⟨nanos, rfl, hread⟩
      | false => exact rehash_ends htar hs hkind hroot _

/-- Two files are there, if the answer is yes and, undisturbed below the entry, only then. -/
theorem bothFiles_ends {E : Disk → Prop} (hs : Sound tar sha256 spec dir d₀) (p q : Path) :
    (setting tar sha256 spec dir calm offline).Ends (· = d₀) (bothFiles p q)
      (fun b d => d = d₀ ∧ (b = true → isFileNode (d₀.node p) = true ∧
          isFileNode (d₀.node q) = true) ∧
        (calm → accepts sha256 spec dir d₀ = true → rootPath spec dir <+: p →
          rootPath spec dir <+: q → b = (isFileNode (d₀.node p) && isFileNode (d₀.node q)))) E := by
  refine (isFile_ends hs p).bind fun b => Ends.known ?_
  rintro ⟨hp, hpCalm⟩
  cases b with
  | false =>
      refine Ends.of_pure fun d hd => ⟨hd, nofun, fun hcalm haccepts hroot _ => ?_⟩
      rw [← hpCalm hcalm haccepts hroot, Bool.false_and]
  | true =>
      refine (isFile_ends hs q).weaken (fun _ h => h) ?_ (fun _ h => h)
      rintro b d ⟨hd, hq, hqCalm⟩
      refine ⟨hd, fun hb => ⟨hp rfl, hq hb⟩, fun hcalm haccepts hroot hroot' => ?_⟩
      rw [← hpCalm hcalm haccepts hroot, ← hqCalm hcalm haccepts hroot', Bool.true_and]

theorem accepts_archive {executable : Path} (hkind : spec.archiveExecutable = some executable) :
    accepts sha256 spec dir d₀ = true ↔
      (∃ text, (textAt d₀ (rootPath spec dir ++ [digestMarker])).toOption = some text ∧
        Text.trim text = spec.digest.toList) ∧
      isFileNode (d₀.node (spec.executable (rootPath spec dir))) = true ∧
      isFileNode (d₀.node (rootPath spec dir ++ declarations)) = true ∧
      (d₀.node (rootPath spec dir)).isSome = true := by
  simp only [accepts, hkind, Bool.and_eq_true, decide_eq_true_eq, Option.any_eq_true, and_assoc]

/-- An entry of an archive is looked at and left as it is. -/
theorem validArchiveCache_ends (hs : Sound tar sha256 spec dir d₀) {executable : Path}
    (hkind : spec.archiveExecutable = some executable)
    (hroot : (d₀.node (rootPath spec dir)).isSome = true) :
    (setting tar sha256 spec dir calm offline).Ends (· = d₀)
      (validArchiveCache spec (rootPath spec dir)) (Checked tar sha256 spec dir calm)
      (Sound tar sha256 spec dir) := by
  have haccepts : accepts sha256 spec dir d₀ = true ↔ _ := accepts_archive hkind
  -- an answer that is no, where the check would have accepted, is a disturbed one
  have hno : (calm → accepts sha256 spec dir d₀ = true → False) → ∀ d, d = d₀ →
      Checked tar sha256 spec dir calm false d := by
    rintro hfalse d rfl
    exact ⟨hs, nofun, fun hcalm _ => Bool.eq_false_iff.2 (hfalse hcalm)⟩
  refine (readToString_ends hs _).attempt.bind fun answer => ?_
  cases answer with
  | error e =>
      refine Ends.known fun hunread => Ends.of_pure (hno fun hcalm hyes => ?_)
      obtain ⟨⟨text, htext, -⟩, -⟩ := haccepts.1 hyes
      rw [hunread hcalm hyes rfl] at htext
      cases htext
  | ok text =>
      refine Ends.known fun htext => ?_
      have hread : (textAt d₀ (rootPath spec dir ++ [digestMarker])).toOption = some text := by
        rw [htext]
        rfl
      by_cases htrim : Text.trim text = spec.digest.toList
      · simp only [htrim, if_true]
        refine (bothFiles_ends hs _ _).weaken (fun _ h => h) ?_ (fun _ h => h)
        rintro b d ⟨rfl, hfiles, hcheck⟩
        refine ⟨hs, fun hb => hs (haccepts.2 ⟨⟨text, hread, htrim⟩, (hfiles hb).1, (hfiles hb).2,
          hroot⟩), fun hcalm hb => Bool.eq_false_iff.2 fun hyes => ?_⟩
        have hfalse := hcheck hcalm hyes (List.prefix_append _ _) (List.prefix_append _ _)
        rw [(haccepts.1 hyes).2.1, (haccepts.1 hyes).2.2.1, hb] at hfalse
        cases hfalse
      · simp only [htrim, if_false]
        refine Ends.of_pure (hno fun _ hyes => ?_)
        obtain ⟨⟨text', htext', htrim'⟩, -⟩ := haccepts.1 hyes
        rw [hread] at htext'
        cases htext'
        exact htrim htrim'

theorem isSome_of_accepts (h : accepts sha256 spec dir d₀ = true) :
    (d₀.node (rootPath spec dir)).isSome = true := by
  cases hkind : spec.archiveExecutable with
  | some executable => exact ((accepts_archive hkind).1 h).2.2.2
  | none =>
      obtain ⟨bytes, m, x, hroot⟩ := isFileNode_iff.1 (isFileNode_of_accepts hkind h)
      rw [hroot]
      rfl

/-- A yes means a verified entry; a no, undisturbed, that there is none to accept. -/
theorem validCache_ends (htar : tar.Contained) :
    (setting tar sha256 spec dir calm offline).Ends (Sound tar sha256 spec dir)
      (validCache sha256 spec (rootPath spec dir)) (Checked tar sha256 spec dir calm)
      (Sound tar sha256 spec dir) := by
  intro d₀ hs
  refine Ends.bind (exists_ends hs _) (fun b => Ends.known ?_) d₀ rfl
  rintro ⟨hsome, hcheck⟩
  cases b with
  | false =>
      refine Ends.of_pure ?_
      rintro d rfl
      refine ⟨hs, nofun, fun hcalm _ => Bool.eq_false_iff.2 fun haccepts => ?_⟩
      have hfalse := hcheck hcalm haccepts (List.prefix_refl _)
      rw [isSome_of_accepts haccepts] at hfalse
      cases hfalse
  | true =>
      cases hkind : spec.archiveExecutable with
      | some executable =>
          exact validArchiveCache_ends hs hkind (hsome rfl)
      | none =>
          exact validFileCache_ends htar hs hkind

end Cja.ToolCache
