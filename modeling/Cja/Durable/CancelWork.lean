import Cja.Durable.Wire

/-!
# A requested cancel stops the work

A waiting run carries no request. Under the flag an attempt can still begin the
call it was about to make, one at most: everything it commits answers with the
flag, and a claim that finds the flag drives nothing.
-/
namespace Cja.Durable

open Jobs (Uuid)

/-! ## The flag -/

section

variable {J : Type} {tx : Tx J} {now : ℕ} {r r' : RunRow J}

theorem Tx.update_flagged (h : tx.update now r = some r') (hf : r.cancelRequested = true) :
    r'.cancelRequested = true := by
  rcases update_flag h with hsame | ⟨-, hset, -⟩
  · rw [hsame, hf]
  · exact hset

/-- Only a suspension leaves a row waiting. -/
theorem Tx.update_waiting (h : tx.update now r = some r') (hw : r'.status = .waiting) :
    ∃ me state callId question rows, tx = .setWaiting me state callId question rows := by
  have hheld : ∀ {me : LeaseToken}, r.leasedBy me = true → r'.status = r.status → False := by
    intro me hl hsame
    rw [hsame, (RunRow.leasedBy_iff.mp hl).2] at hw
    cases hw
  cases tx with
  | setWaiting me state callId question rows => exact ⟨me, state, callId, question, rows, rfl⟩
  | failUnstorable me code =>
      simp only [update, RunRow.failUnstorable] at h
      split_ifs at h
      cases h
      cases hw
  | tryClaim me takeover =>
      simp only [update, RunRow.tryClaim] at h
      split_ifs at h
      cases h
      cases hw
  | releaseLease me =>
      simp only [update, RunRow.releaseLease] at h
      split_ifs at h with hl
      cases h
      exact (hheld hl rfl).elim
  | heartbeat me =>
      simp only [update, RunRow.heartbeat] at h
      split_ifs at h with hl
      cases h
      exact (hheld hl rfl).elim
  | persistStep me snap rows =>
      simp only [update, RunRow.persistStep] at h
      split_ifs at h with hl
      cases h
      exact (hheld hl rfl).elim
  | finish me ending snap rows =>
      simp only [update, RunRow.finish] at h
      split_ifs at h
      cases h
      cases ending <;> cases hw
  | answerWaiting state rows =>
      simp only [update, RunRow.answerWaiting] at h
      split_ifs at h
      cases h
      cases hw
  | cancelRun takeover =>
      cases h
      have hspec := r.cancelAction_spec takeover now
      rw [RunRow.cancelRun_eq] at hw
      cases ha : r.cancelAction takeover now with
      | cancelNow => rw [ha] at hw; cases hw
      | request => rw [ha] at hw hspec; exact absurd (hspec.symm.trans hw) (by simp)
      | noop => rw [ha] at hw hspec; exact absurd (hspec.symm.trans hw) (by simp)
      | terminal =>
          rw [ha] at hw hspec
          rcases hspec with hs | hs <;> exact absurd (hs.symm.trans hw) (by simp)

/-- A flagged row does not park. -/
theorem Tx.update_parked (h : tx.update now r = some r') (hw : r'.status = .waiting) :
    r'.cancelRequested = false := by
  obtain ⟨me, state, callId, question, rows, rfl⟩ := update_waiting h hw
  simp only [update, RunRow.setWaiting] at h
  split at h
  · cases hc : r.cancelRequested with
    | false => cases h; exact hc
    | true =>
        rw [hc] at h
        cases h
        cases hw
  · cases h

end

variable {R : Rig} {cfg : Config}

def Engine.Flagged (s : Engine R) (id : Uuid) : Prop :=
  ∃ r, s.db.runs id = some r ∧ r.cancelRequested = true

theorem Took.flagged {s s' : Engine R} {a : Action R} {es : List Event} {id : Uuid}
    (h : Took cfg s a s' es) (hf : s.Flagged id) : s'.Flagged id := by
  obtain ⟨r, hr, hflag⟩ := hf
  have hrow := h.rowStep id
  rw [hr] at hrow
  generalize ho' : s'.db.runs id = o' at hrow
  cases hrow with
  | same => exact ⟨r, ho', hflag⟩
  | updated happ hu => exact ⟨_, ho', Tx.update_flagged hu hflag⟩

/-- No run is parked with a request. -/
theorem never_parked {C : Engine R → Action R → Prop} {log : List Event} {s : Engine R}
    (h : EngineRun cfg C log s) :
    ∀ id r, s.db.runs id = some r → r.status = .waiting → r.cancelRequested = false := by
  refine h.safe (I := fun s => ∀ id r, s.db.runs id = some r → r.status = .waiting →
    r.cancelRequested = false) (by simp [Engine.init, Db.empty]) ?_
  intro s a s' es hi _ hs id r' hr'
  have hrow := (step_took hs).rowStep id
  rw [hr'] at hrow
  generalize ho : s.db.runs id = o at hrow
  cases hrow with
  | same => exact hi id r' ho
  | started => exact fun _ => rfl
  | updated happ hu => exact fun hw => Tx.update_parked hu hw

/-! ## What an attempt can still begin -/

/-- The attempt may begin a call without another statement. -/
def Advance.poised : Advance R → Bool
  | driving _ (.top _) | driving _ (.guarded _) => true
  | _ => false

namespace Advance

variable {pc pc' : Advance R}

theorem poised_of_over (h : pc.over = true) : pc.poised = false := by
  cases pc with
  | driving a st => cases st <;> first | rfl | cases h
  | _ => rfl

theorem poised_of_unclaimed (h : pc.unclaimed = true) : pc.poised = false := by
  cases pc <;> first | rfl | cases h

theorem answeredCall_poised (a : Attempt) (rest : List R.Call)
    (p : R.AgentRun × Except PromptError Unit) :
    (driving a (Stage.answeredCall rest p)).poised = false := by
  obtain ⟨run, e⟩ := p
  cases e <;> rfl

theorem settle_beating (p : R.AgentRun × Except PromptError ModelTurnOutcome) (g : Guarded R) :
    Stage.settle p ≠ .beating g := by
  obtain ⟨run, e⟩ := p
  cases e with
  | error error => rintro ⟨⟩
  | ok outcome => cases outcome <;> rintro ⟨⟩

theorem callToolsStep_beating (run : R.AgentRun) (calls : List R.Call) (g : Guarded R) :
    Stage.callToolsStep run calls ≠ .beating g := by
  have hanswered : ∀ (rest : List R.Call) p, Stage.answeredCall rest p ≠ .beating g := by
    rintro rest ⟨run, e⟩
    cases e <;> rintro ⟨⟩
  cases calls with
  | nil => rintro ⟨⟩
  | cons call rest =>
      cases call with
      | malformed call => exact hanswered _ _
      | execute exec =>
          dsimp only [Stage.callToolsStep]
          split_ifs
          · unfold Stage.askStep
            split
            · rintro ⟨⟩
            · exact hanswered _ _
          · rintro ⟨⟩

theorem drive_beating (a : Attempt) (run : R.AgentRun) (g : Guarded R) :
    Stage.drive a run ≠ .beating g := by
  unfold Stage.drive
  split
  · rintro ⟨⟩
  · unfold Stage.callModelStep
    split <;> rintro ⟨⟩
  · exact callToolsStep_beating _ _ g
  · rintro ⟨⟩

theorem proceed_beating {a : Attempt} {run : R.AgentRun} {next : Next R} {g : Guarded R} :
    Stage.proceed a run next ≠ .beating g := by
  cases next with
  | callModel => rintro ⟨⟩
  | succeed => rintro ⟨⟩
  | callTools rest => exact callToolsStep_beating run rest g
  | checkBudget =>
      unfold Stage.proceed
      split_ifs <;> rintro ⟨⟩

theorem settle_poised (a : Attempt) (p : R.AgentRun × Except PromptError ModelTurnOutcome) :
    (driving a (Stage.settle p)).poised = false := by
  obtain ⟨run, e⟩ := p
  cases e with
  | error error => rfl
  | ok outcome => cases outcome <;> rfl

/-- An input leaves an attempt poised only from the top of the loop. -/
theorem inputs_poised {i : Input R} (h : Inputs i pc pc') (hp : pc'.poised = true) :
    ∃ a run, pc = driving a (.top run) := by
  cases h with
  | drive a run => exact ⟨a, run, rfl⟩
  | stop a run => exact ⟨a, run, rfl⟩
  | resolve a run => rw [settle_poised] at hp; cases hp
  | abandon => cases hp
  | beat => cases hp
  | replied a run prepared request hresp =>
      rename_i response
      cases response with
      | error e => cases hp
      | ok response =>
          rw [Stage.replied, settle_poised] at hp
          cases hp
  | retryable a => rw [poised_of_over (retry_over a)] at hp; cases hp
  | toolReturns a run exec rest result =>
      rw [Stage.toolReturned, answeredCall_poised] at hp
      cases hp

/-- A committed transaction leaves an attempt poised only over a row without a request. -/
theorem answers_poised {ret : Option (RunRow Json)} (h : Answers cfg pc ret pc')
    (hp : pc'.poised = true) : ∃ row, ret = some row ∧ row.cancelRequested = false := by
  cases h with
  | claimed row =>
      refine ⟨row, rfl, ?_⟩
      unfold claimed at hp
      dsimp only at hp
      split_ifs at hp with hc
      · cases hp
      · simpa using hc
  | landed a w rows row =>
      refine ⟨row, rfl, ?_⟩
      cases w with
      | persist run advanced next =>
          simp only [landed] at hp
          split_ifs at hp with hc
          · cases hp
          · simpa using hc
      | suspend => cases hp
      | finish => cases hp
  | beat a g hc => exact ⟨_, rfl, hc⟩
  | abandoned a => rw [poised_of_over (retry_over a)] at hp; cases hp
  | _ => cases hp

/-- A heartbeat starts at the tick of the interval only. -/
theorem answers_beating {ret : Option (RunRow Json)} {a : Attempt} {g : Guarded R}
    (h : Answers cfg pc ret (.driving a (.beating g))) : False := by
  generalize ho : (Advance.driving a (.beating g) : Advance R) = pc' at h
  cases h with
  | claimed row =>
      unfold claimed at ho
      dsimp only at ho
      split_ifs at ho
      split at ho <;> cases ho
  | landed a' w rows row =>
      cases w with
      | persist run advanced next =>
          simp only [landed] at ho
          split_ifs at ho
          · cases ho
          · injection ho with _ hstage
            exact proceed_beating hstage.symm
      | suspend => cases ho
      | finish => cases ho
  | abandoned a' =>
      have hover := retry_over (R := R) a'
      rw [← ho] at hover
      cases hover
  | _ => cases ho

end Advance

/-- How many calls attempt `me` can still begin for run `id` under the flag. -/
def Wire.allowance (w : Wire R) (id : Uuid) (me : LeaseToken) : ℕ :=
  match w.engine.attempts me with
  | some ⟨run, .driving _ (.top _)⟩ => if run = id then 1 else 0
  | some ⟨run, .driving _ (.guarded _)⟩ => if run = id ∧ (w.lines me).calls = false then 1 else 0
  | _ => 0

/-- An attempt that is seen under the guards has its call in flight. -/
def Wire.CallingAt (w : Wire R) (me : LeaseToken) : Prop :=
  ∀ j, w.engine.attempts me = some j →
    (∀ a g, j.pc = .driving a (.beating g) → (w.lines me).calls = true) ∧
    (∀ a g, j.pc = .driving a (.guarded g) → (w.lines me).unheard = false →
      (w.lines me).calls = true)

def Wire.Calling (w : Wire R) : Prop := ∀ me, w.CallingAt me

namespace Wire

variable {w : Wire R} {id : Uuid} {me : LeaseToken}

theorem allowance_le : w.allowance id me ≤ 1 := by
  unfold allowance
  split <;> (try split_ifs) <;> omega

theorem allowance_of_not_poised {j : JobAttempt R} (hj : w.engine.attempts me = some j)
    (h : j.pc.poised = false) : w.allowance id me = 0 := by
  obtain ⟨run, pc⟩ := j
  unfold allowance
  rw [hj]
  cases pc with
  | driving a st => cases st <;> first | rfl | cases h
  | _ => rfl

theorem allowance_of_none (h : w.engine.attempts me = none) : w.allowance id me = 0 := by
  unfold allowance
  rw [h]

theorem allowance_of_foreign {j : JobAttempt R} (hj : w.engine.attempts me = some j)
    (h : j.run ≠ id) : w.allowance id me = 0 := by
  obtain ⟨run, pc⟩ := j
  have hrun : ¬run = id := h
  unfold allowance
  rw [hj]
  split <;> simp_all

theorem allows_input {i : Input R} (h : w.allows (.input me i) = true) :
    (w.lines me).unheard = false := by
  cases i <;> simp_all [allows]

theorem allowance_of_calls {j : JobAttempt R} (hj : w.engine.attempts me = some j)
    (hc : (w.lines me).calls = true) (h : ∀ a run, j.pc ≠ .driving a (.top run)) :
    w.allowance id me = 0 := by
  obtain ⟨run, pc⟩ := j
  unfold allowance
  rw [hj]
  cases pc with
  | driving a st =>
      cases st with
      | top run' => exact absurd rfl (h a run')
      | guarded g => simp [hc]
      | _ => rfl
  | _ => rfl

theorem allowance_congr {w' : Wire R} (ha : w'.engine.attempts me = w.engine.attempts me)
    (hc : (w'.lines me).calls = (w.lines me).calls) : w'.allowance id me = w.allowance id me := by
  unfold allowance
  rw [ha, hc]

end Wire

/-- The calls that attempt `me` began for run `id`. -/
def begun (me : LeaseToken) (id : Uuid) (log : List WireEvent) : ℕ := log.count (.began me id)

/-- What an attempt that gets to `pc` begins there, and can still begin. -/
def Advance.begins (calls : Bool) : Advance R → ℕ
  | driving _ (.top _) => 1
  | driving _ (.guarded _) | driving _ (.beating _) => if calls then 0 else 1
  | _ => 0

theorem Advance.begins_le (calls : Bool) (pc : Advance R) : pc.begins calls ≤ 1 := by
  unfold begins
  split <;> (try split_ifs) <;> omega

/-- Under the lease guards. -/
def Advance.guards : Advance R → Bool
  | driving _ (.guarded _) | driving _ (.beating _) => true
  | _ => false

namespace Advance

variable {pc : Advance R}

theorem callsAfter_guards (h : pc.guards = true) (calls : Bool) : pc.callsAfter calls = true := by
  cases pc with
  | driving a st => cases st <;> first | rfl | cases h
  | _ => cases h

theorem callsAfter_idle (h : pc.guards = false) : pc.callsAfter false = false := by
  unfold guards at h
  split at h
  · cases h
  · cases h
  · unfold callsAfter
    split <;> simp_all

theorem guards_top (h : pc.guards = true) (a : Attempt) (run : R.AgentRun) :
    pc ≠ .driving a (.top run) := by
  rintro rfl
  cases h

theorem guards_cases (h : pc.guards = true) :
    (∃ a g, pc = .driving a (.guarded g)) ∨ ∃ a g, pc = .driving a (.beating g) := by
  cases pc with
  | driving a st =>
      cases st with
      | guarded g => exact .inl ⟨a, g, rfl⟩
      | beating g => exact .inr ⟨a, g, rfl⟩
      | _ => cases h
  | _ => cases h

theorem begins_ne_zero {calls : Bool} (h : pc.begins calls ≠ 0) : pc.poised = true ∨
    ∃ a g, pc = .driving a (.beating g) ∧ calls = false := by
  cases pc with
  | driving a st =>
      cases st with
      | top run => exact .inl rfl
      | guarded g => exact .inl rfl
      | beating g =>
          cases calls with
          | true => exact absurd rfl h
          | false => exact .inr ⟨a, g, rfl, rfl⟩
      | _ => exact absurd rfl h
  | _ => exact absurd rfl h

theorem inputs_beating {i : Input R} {a : Attempt} {g : Guarded R}
    (h : Inputs i pc (.driving a (.beating g))) : pc.guards = true := by
  generalize ho : (Advance.driving a (.beating g) : Advance R) = pc' at h
  cases h with
  | beat => rfl
  | abandon => rfl
  | replied => rfl
  | retryable => rfl
  | toolReturns => rfl
  | stop a' run =>
      have hover := retry_over (R := R) a'
      rw [← ho] at hover
      cases hover
  | drive a' run =>
      injection ho with _ hstage
      exact absurd hstage.symm (drive_beating a' run g)
  | resolve a' run =>
      injection ho with _ hstage
      exact absurd hstage.symm (settle_beating _ g)

theorem begins_guards (h : pc.guards = true) (calls : Bool) :
    pc.begins calls = if calls then 0 else 1 := by
  cases pc with
  | driving a st => cases st <;> first | rfl | cases h
  | _ => cases h

theorem top_of_poised (hp : pc.poised = true) (hg : pc.guards = false) :
    ∃ a run, pc = .driving a (.top run) := by
  cases pc with
  | driving a st =>
      cases st with
      | top run => exact ⟨a, run, rfl⟩
      | guarded g => cases hg
      | _ => cases hp
  | _ => cases hp

theorem begins_of_not_poised {calls : Bool} (hp : pc.poised = false) (hg : pc.guards = false) :
    pc.begins calls = 0 := by
  cases pc with
  | driving a st =>
      cases st with
      | top run => cases hp
      | guarded g => cases hg
      | beating g => cases hg
      | _ => rfl
  | _ => rfl

end Advance

section

variable {window : ℕ} {w w' : Wire R} {b : WireAction R} {fs : List WireEvent} {id : Uuid}
variable {me : LeaseToken}

theorem begun_arrive_other {v : LeaseToken} (h : me ≠ v) :
    begun me id (w.arrive window v).2 = 0 := by
  have hmem : WireEvent.began me id ∉ (w.arrive window v).2 := by
    unfold Wire.arrive
    split
    · dsimp only [Wire.beganEvents]
      split_ifs <;> simp [h]
    · simp
  exact List.count_eq_zero.mpr hmem

theorem begun_enter (run : Uuid) (clock : ℕ) (pc : Advance R) (line : Line) :
    begun me id (Wire.beganEvents me run line (line.enter window clock pc)) =
      if run = id ∧ line.calls = false ∧ pc.callsAfter line.calls = true then 1 else 0 := by
  unfold begun Wire.beganEvents Line.enter
  dsimp only
  cases hc : line.calls with
  | true => simp
  | false =>
      cases hafter : pc.callsAfter false with
      | false => simp
      | true => by_cases hid : run = id <;> simp [hid]

/-- What an attempt begins where it arrives, and can begin from there. -/
theorem begun_arrive {j : JobAttempt R} (hj : w.engine.attempts me = some j) :
    begun me id (w.arrive window me).2 + (w.arrive window me).1.allowance id me =
      if j.run = id then j.pc.begins (w.lines me).calls else 0 := by
  obtain ⟨hline, hevents⟩ := Wire.arrive_some window hj
  have hj' : (w.arrive window me).1.engine.attempts me = some j := by
    rw [Wire.arrive_engine]
    exact hj
  rw [hevents, begun_enter]
  by_cases hid : j.run = id
  · obtain ⟨run, pc⟩ := j
    obtain rfl : run = id := hid
    by_cases hg : pc.guards = true
    · have hafter : pc.callsAfter (w.lines me).calls = true := Advance.callsAfter_guards hg _
      have hzero : (w.arrive window me).1.allowance run me = 0 := by
        refine Wire.allowance_of_calls hj' ?_ (Advance.guards_top hg)
        rw [hline]
        exact hafter
      rw [hzero, Advance.begins_guards hg]
      cases hc : (w.lines me).calls with
      | true => simp
      | false => rw [hc] at hafter; simp [hafter]
    · have hafter : (w.lines me).calls = false → pc.callsAfter (w.lines me).calls = false :=
        fun hc => by rw [hc]; exact Advance.callsAfter_idle (by simpa using hg)
      have hnone : ¬(run = run ∧ (w.lines me).calls = false ∧
          pc.callsAfter (w.lines me).calls = true) := by
        rintro ⟨-, hc, ht⟩
        rw [hafter hc] at ht
        cases ht
      rw [if_neg hnone, if_pos rfl, Nat.zero_add]
      by_cases hp : pc.poised = true
      · obtain ⟨a, st, rfl⟩ := Advance.top_of_poised hp (by simpa using hg)
        unfold Wire.allowance
        rw [hj']
        simp [Advance.begins]
      · rw [Wire.allowance_of_not_poised hj' (by simpa using hp),
          Advance.begins_of_not_poised (by simpa using hp) (by simpa using hg)]
  · rw [Wire.allowance_of_foreign hj' hid]
    simp [hid]

/-! ## One step and one run -/

/-- What a step that is not heard yet leaves of the attempt it is about. -/
theorem Took.remote_rule {Q : Advance R → Prop} {s s' : Engine R} {a : Action R} {es : List Event}
    {j : JobAttempt R} (h : Took cfg s a s' es) (ha : a.actor = some me) (hr : a.remote = true)
    (hj : s'.attempts me = some j) (hover : ∀ pc, pc.over = true → Q pc)
    (hwriting : ∀ a w rows, Q (.driving a (.writing w rows)))
    (hrejected : ∀ (pc : Advance R) pc' code, pc.rejected code = some pc' → Q pc')
    (hanswers : ∀ pc ret pc', Answers cfg pc ret pc' →
      (∀ row, ret = some row → s'.db.runs j.run = some row) → Q pc') : Q j.pc := by
  have hset : ∀ {v : LeaseToken} {k : Option (JobAttempt R)} {t : Engine R}, v = me →
      (t.setAttempt v k).attempts me = some j → k = some j := by
    rintro v k t rfl hk
    rwa [Engine.setAttempt_self] at hk
  have hended : ∀ {v : LeaseToken} {k : JobAttempt R} {k' : Option (JobAttempt R)} {fate : Fate}
      {now : ℕ} {t : Engine R}, Ended cfg v k fate now a k' →
      (t.setAttempt v k').attempts me = some j → Q j.pc := by
    intro v k k' fate now t he hk
    have hk' := hset (by cases he <;> exact Option.some.inj ha) hk
    cases he with
    | fails hawait => cases hk'; exact hover _ (Advance.errored_over hawait)
    | vanish => cases hk'
  cases h with
  | begin => cases hr
  | here hk hl =>
      cases hl with
      | readStatus => cases hset (Option.some.inj ha) hj; exact hover _ rfl
      | readSeq => cases hset (Option.some.inj ha) hj; exact hwriting _ _ _
      | rejects hrej => cases hset (Option.some.inj ha) hj; exact hrejected _ _ _ hrej
      | input => cases hr
  | commit hk htx hdb hans =>
      cases hset (Option.some.inj ha) hj
      refine hanswers _ _ _ hans ?_
      rintro row rfl
      rcases (Db.exec_at hdb).2 with ⟨hnone, -⟩ | ⟨r₀, r', hret, -, -, hr', -⟩
      · cases hnone
      · rw [hret]
        exact hr'
  | lost hk he => exact hended he hj
  | applied hk he => exact hended he hj
  | left hk he => exact hended he hj
  | _ => cases ha

theorem Took.remote_poised {s s' : Engine R} {a : Action R} {es : List Event}
    {j : JobAttempt R} (h : Took cfg s a s' es) (ha : a.actor = some me) (hr : a.remote = true)
    (hf : s.Flagged id) (hj : s'.attempts me = some j) (hid : j.run = id) :
    j.pc.poised = false := by
  refine h.remote_rule (Q := fun pc => pc.poised = false) ha hr hj
    (fun pc => Advance.poised_of_over) (fun a w rows => rfl) ?_ ?_
  · intro pc pc' code hrej
    unfold Advance.rejected at hrej
    split at hrej <;> cases hrej <;> rfl
  · intro pc ret pc' hans hrow
    by_contra hp
    obtain ⟨row, hret, hc⟩ := Advance.answers_poised hans (by simpa using hp)
    obtain ⟨r, hr', hset⟩ := h.flagged hf
    have hsame := hrow row hret
    rw [hid, hr', Option.some.injEq] at hsame
    rw [← hsame, hset] at hc
    cases hc

theorem Took.remote_beating {s s' : Engine R} {a : Action R} {es : List Event}
    {j : JobAttempt R} (h : Took cfg s a s' es) (ha : a.actor = some me) (hr : a.remote = true)
    (hj : s'.attempts me = some j) (at' : Attempt) (g : Guarded R) :
    j.pc ≠ .driving at' (.beating g) := by
  refine h.remote_rule (Q := fun pc => pc ≠ .driving at' (.beating g)) ha hr hj ?_ ?_ ?_ ?_
  · rintro pc hover rfl
    cases hover
  · rintro a w rows ⟨⟩
  · rintro pc pc' code hrej rfl
    unfold Advance.rejected at hrej
    split at hrej <;> cases hrej
  · rintro pc ret pc' hans - rfl
    exact Advance.answers_beating hans

theorem Wire.calling_arrive
    (hw : ∀ v, v ≠ me → w.CallingAt v) : (w.arrive window me).1.Calling := by
  intro v j hj
  rw [Wire.arrive_engine] at hj
  by_cases hv : v = me
  · subst hv
    rw [(Wire.arrive_some window hj).1]
    constructor
    · intro a g hpc
      exact Advance.callsAfter_guards (by rw [hpc]; rfl) _
    · intro a g hpc _
      exact Advance.callsAfter_guards (by rw [hpc]; rfl) _
  · rw [Wire.arrive_other window w hv]
    exact hw v hv j hj

theorem Wire.CallingAt.congr {v : LeaseToken} (hw : w.CallingAt v)
    (ha : w'.engine.attempts v = w.engine.attempts v) (hl : w'.lines v = w.lines v) :
    w'.CallingAt v := by
  intro j hj
  rw [ha] at hj
  rw [hl]
  exact hw j hj

theorem WireTook.calling (h : WireTook cfg window w b w' fs) (hw : w.Calling) : w'.Calling := by
  cases h with
  | wait => exact hw
  | quiet hallow hs ha =>
      intro v
      exact (hw v).congr ((step_took hs).attempts_other (by simp [ha])) rfl
  | @remote a me s es hallow hs ha hr =>
      intro v
      by_cases hv : v = me
      · subst hv
        intro j hj
        rw [Wire.setLine_self]
        constructor
        · intro at' g hpc
          exact absurd hpc ((step_took hs).remote_beating ha hr hj at' g)
        · intro at' g _ hu
          cases hu
      · refine (hw v).congr ?_ (Wire.setLine_other _ _ hv)
        exact (step_took hs).attempts_other fun he => hv (Option.some.inj (ha.symm.trans he)).symm
  | @near a me s es hallow hs ha hr =>
      refine Wire.calling_arrive fun v hv => (hw v).congr ?_ rfl
      exact (step_took hs).attempts_other fun he => hv (Option.some.inj (ha.symm.trans he)).symm
  | hear hu => exact Wire.calling_arrive fun v _ => hw v

theorem begins_le_allowance (hw : w.Calling) {j : JobAttempt R}
    (hj : w.engine.attempts me = some j) :
    (if j.run = id then j.pc.begins (w.lines me).calls else 0) ≤ w.allowance id me := by
  split_ifs with hid
  · obtain ⟨run, pc⟩ := j
    obtain rfl : run = id := hid
    unfold Wire.allowance
    rw [hj]
    cases pc with
    | driving a st =>
        cases st with
        | top run' => simp [Advance.begins]
        | guarded g => cases hc : (w.lines me).calls <;> simp [Advance.begins]
        | beating g => simp [Advance.begins, (hw me _ hj).1 a g rfl]
        | _ => exact Nat.le_refl 0
    | _ => exact Nat.le_refl 0
  · exact Nat.zero_le _

/-- An input begins a call only from the top of the loop. -/
theorem inputs_begin {i : Input R} {pc pc' : Advance R} (h : Inputs i pc pc') {calls : Bool}
    (hcalls : pc.guards = true → calls = true) (hb : pc'.begins calls ≠ 0) :
    ∃ a run, pc = .driving a (.top run) := by
  rcases Advance.begins_ne_zero hb with hp | ⟨a, g, rfl, hfalse⟩
  · exact Advance.inputs_poised h hp
  · have htrue := hcalls (Advance.inputs_beating h)
    rw [hfalse] at htrue
    cases htrue

theorem begins_input {i : Input R} {run : Uuid} {pc pc' : Advance R}
    (hw : w.Calling) (hj : w.engine.attempts me = some ⟨run, pc⟩)
    (hu : (w.lines me).unheard = false) (h : Inputs i pc pc') :
    (if run = id then pc'.begins (w.lines me).calls else 0) ≤ w.allowance id me := by
  split_ifs with hid
  · by_cases hb : pc'.begins (w.lines me).calls = 0
    · omega
    · have hcalls : pc.guards = true → (w.lines me).calls = true := by
        intro hg
        rcases Advance.guards_cases hg with ⟨a, g, rfl⟩ | ⟨a, g, rfl⟩
        · exact (hw me _ hj).2 a g rfl hu
        · exact (hw me _ hj).1 a g rfl
      obtain ⟨a, r, rfl⟩ := inputs_begin h hcalls hb
      have hle := Advance.begins_le (w.lines me).calls pc'
      unfold Wire.allowance
      rw [hj]
      simp only [hid, if_true]
      exact hle
  · exact Nat.zero_le _

theorem begins_near {s : Engine R} {a : Action R} {es : List Event} {j : JobAttempt R}
    (h : Took cfg w.engine a s es) (hw : w.Calling) (hallow : w.allows a = true)
    (ha : a.actor = some me) (hr : a.remote = false) (hj : s.attempts me = some j) :
    (if j.run = id then j.pc.begins (w.lines me).calls else 0) ≤ w.allowance id me := by
  have hset : ∀ {v : LeaseToken} {k : Option (JobAttempt R)} {t : Engine R}, v = me →
      (t.setAttempt v k).attempts me = some j → k = some j := by
    rintro v k t rfl hk
    rwa [Engine.setAttempt_self] at hk
  have hgone : ∀ {v : LeaseToken} {k : JobAttempt R} {k' : Option (JobAttempt R)} {fate : Fate}
      {now : ℕ} {t : Engine R}, Ended cfg v k fate now a k' →
      (t.setAttempt v k').attempts me = some j → False := by
    intro v k k' fate now t he hk
    cases he with
    | fails => cases hr
    | vanish => cases hset (Option.some.inj ha) hk
  cases h with
  | begin =>
      cases hset (Option.some.inj ha) hj
      simp [Advance.begins]
  | here hk hl =>
      cases hl with
      | @input _ _ i hi =>
          obtain rfl := Option.some.inj ha
          cases hset rfl hj
          exact begins_input hw hk (Wire.allows_input hallow) hi
      | _ => cases hr
  | commit => cases hr
  | lost hk he => exact (hgone he hj).elim
  | applied hk he => exact (hgone he hj).elim
  | left hk he => exact (hgone he hj).elim
  | _ => cases ha

/-- What attempt `me` can still begin for a flagged run only shrinks, by each call it
begins. -/
theorem WireTook.allowance (h : WireTook cfg window w b w' fs) (hw : w.Calling)
    (hf : w.engine.Flagged id) : begun me id fs + w'.allowance id me ≤ w.allowance id me := by
  have hself : ∀ {t : Wire R} {v : LeaseToken}, me ≠ v →
      t.engine.attempts me = w.engine.attempts me → t.lines = w.lines →
      begun me id (t.arrive window v).2 + (t.arrive window v).1.allowance id me ≤
        w.allowance id me := by
    intro t v hv ha hl
    rw [begun_arrive_other hv, Nat.zero_add]
    refine Nat.le_of_eq (Wire.allowance_congr ?_ ?_)
    · rw [Wire.arrive_engine]
      exact ha
    · rw [Wire.arrive_other window t hv, hl]
  cases h with
  | wait => simp [begun, Wire.allowance]
  | quiet hallow hs ha =>
      have hsame : (w.setEngine _).allowance id me = w.allowance id me :=
        Wire.allowance_congr ((step_took hs).attempts_other (v := me) (by simp [ha])) rfl
      rw [hsame]
      simp [begun]
  | @remote a v s es hallow hs ha hr =>
      rw [begun, List.count_nil, Nat.zero_add]
      by_cases hv : me = v
      · subst hv
        cases hj : s.attempts me with
        | none => rw [Wire.allowance_of_none hj]; exact Nat.zero_le _
        | some j =>
            by_cases hid : j.run = id
            · rw [Wire.allowance_of_not_poised hj ((step_took hs).remote_poised ha hr hf hj hid)]
              exact Nat.zero_le _
            · rw [Wire.allowance_of_foreign hj hid]
              exact Nat.zero_le _
      · refine Nat.le_of_eq (Wire.allowance_congr ?_ ?_)
        · exact (step_took hs).attempts_other fun he => hv (Option.some.inj (he.symm.trans ha))
        · rw [Wire.setLine_other _ _ hv]
          rfl
  | @near a v s es hallow hs ha hr =>
      by_cases hv : me = v
      · subst hv
        cases hj : s.attempts me with
        | none =>
            rw [(Wire.arrive_none window (w := w.setEngine s) hj).2, Wire.allowance_of_none (by simpa using hj)]
            simp [begun]
        | some j =>
            rw [begun_arrive (w := w.setEngine s) hj]
            exact begins_near (step_took hs) hw hallow ha hr hj
      · refine hself hv ?_ rfl
        exact (step_took hs).attempts_other fun he => hv (Option.some.inj (he.symm.trans ha))
  | @hear v hu =>
      by_cases hv : me = v
      · subst hv
        cases hj : w.engine.attempts me with
        | none =>
            rw [(Wire.arrive_none window hj).2, Wire.allowance_of_none (by simpa using hj)]
            simp [begun]
        | some j =>
            rw [begun_arrive hj]
            exact begins_le_allowance hw hj
      · exact hself hv rfl rfl

theorem WireRun.calling {log : List WireEvent} (h : WireRun cfg window StepRun.Free log w) :
    w.Calling := by
  refine h.safe (I := Wire.Calling) (by intro v j hj; cases hj) ?_
  intro w b w' fs hi _ hs
  exact (wire_took hs).calling hi

/-- What an attempt begins over a run that is flagged from its first state on. -/
theorem begun_le {log : List WireEvent} (hw : w.Calling) (hf : w.engine.Flagged id)
    (h : StepRun.Run (Wire.step cfg window) StepRun.Free w log w') :
    begun me id log + w'.allowance id me ≤ w.allowance id me := by
  have hinv : (w'.Calling ∧ w'.engine.Flagged id) ∧
      begun me id log + w'.allowance id me ≤ w.allowance id me := by
    refine h.invariant (I := fun log w' => (w'.Calling ∧ w'.engine.Flagged id) ∧
      begun me id log + w'.allowance id me ≤ w.allowance id me) ⟨⟨hw, hf⟩, ?_⟩ ?_
    · simp [begun]
    · rintro log w₁ b w₂ fs - ⟨⟨hc₁, hf₁⟩, hle⟩ - hs
      have ht := wire_took hs
      refine ⟨⟨ht.calling hc₁, ?_⟩, ?_⟩
      · rcases ht.engine with heq | ⟨a, es, -, hstep⟩
        · rw [heq]
          exact hf₁
        · exact (step_took hstep).flagged hf₁
      · have hstep : begun me id fs + w₂.allowance id me ≤ w₁.allowance id me :=
          ht.allowance hc₁ hf₁
        unfold begun at hle hstep ⊢
        rw [List.count_append]
        omega
  exact hinv.2

/-- No run is parked with a cancel request, and once a request is stored every
attempt begins at most one more call for the run, an attempt that has yet to claim
it none. -/
theorem cancel_stops_work {log : List WireEvent} (h : WireRun cfg window StepRun.Free log w) :
    (∀ id r, w.engine.db.runs id = some r → r.status = .waiting → r.cancelRequested = false) ∧
      ∀ id r, w.engine.db.runs id = some r → r.cancelRequested = true →
        ∀ log' w', StepRun.Run (Wire.step cfg window) StepRun.Free w log' w' →
          ∀ me, begun me id log' ≤ 1 ∧
            ((∀ j, w.engine.attempts me = some j → j.pc.unclaimed = true) →
              begun me id log' = 0) := by
  obtain ⟨log₀, hengine⟩ := h.engine
  refine ⟨never_parked hengine, ?_⟩
  intro id r hr hc log' w' hrun me
  have hle : begun me id log' + w'.allowance id me ≤ w.allowance id me :=
    begun_le (WireRun.calling h) ⟨r, hr, hc⟩ hrun
  refine ⟨?_, ?_⟩
  · have hone : w.allowance id me ≤ 1 := w.allowance_le
    omega
  · intro hun
    have hzero : w.allowance id me = 0 := by
      cases hj : w.engine.attempts me with
      | none => exact Wire.allowance_of_none hj
      | some j => exact Wire.allowance_of_not_poised hj (Advance.poised_of_unclaimed (hun j hj))
    omega

end

/-- The request lands behind the persist before the model call: the call begins,
and the next claim begins nothing. -/
theorem cancel_stops_work_scripted : ∃ (log log' : List WireEvent) (w w' : Wire Rig.scripted),
    WireRun scriptedConfig 30000000000 StepRun.Free log w ∧
      StepRun.Run (Wire.step scriptedConfig 30000000000) StepRun.Free w log' w' ∧
      (∃ r, w.engine.db.runs 1 = some r ∧ r.cancelRequested = true) ∧
      begun 7 1 log' = 1 ∧ begun 8 1 log' = 0 := by
  obtain ⟨log, w, hrun, hdone⟩ := StepRun.exists_free_run
    (Wire.step scriptedConfig 30000000000) Wire.init
    [.act (.start 1 "greeter" "greet me" 0), .act (.begin 7 1), .act (.commit 7 0), .hear 7,
      .act (.input 7 .proceed), .act (.readSeq 7), .hear 7, .act (.commit 7 0),
      .act (.cancel 1 0)]
    (fun _ w => ((w.engine.db.runs 1).any fun r => r.cancelRequested) &&
      ((w.engine.attempts 8).all fun j : JobAttempt Rig.scripted => j.pc.unclaimed) &&
      (StepRun.execute (Wire.step scriptedConfig 30000000000) (fun _ _ => true)
        [.hear 7, .wait 1000000, .act (.vanish 7 .lost 0), .act (.begin 8 1),
          .act (.commit 8 1000), .hear 8] w).any
        fun q : Wire Rig.scripted × List WireEvent => begun 7 1 q.2 == 1) (by decide)
  simp only [Bool.and_eq_true, Option.any_eq_true, Option.all_eq_true, beq_iff_eq] at hdone
  obtain ⟨⟨⟨r, hr, hc⟩, hun⟩, ⟨w', log'⟩, hexec, hone⟩ := hdone
  have hfree := (StepRun.run_of_execute hexec).free
  have h := (cancel_stops_work hrun).2 1 r hr hc log' w' hfree 8
  exact ⟨log, log', w, w', hrun, hfree, ⟨r, hr, hc⟩, hone, h.2 hun⟩

end Cja.Durable
