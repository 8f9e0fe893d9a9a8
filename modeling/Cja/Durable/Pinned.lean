import Cja.Durable.Holders

/-!
# When an attempt may return `Ok`

An attempt that lost its lease returns `Ok`, and so does one that finds its run at rest. As
long as the run is to be advanced and the attempt holds its lease it is pinned: only a write of
its own lets it return. A step leaves the attempts of an active run pinned, unless it enqueues
a job of the run or a claim takes the lease.
-/
namespace Cja.Durable

open Jobs (Uuid)

variable {R : Rig} {cfg : Config}

/-- The statuses of a run that is still to be advanced. -/
def RunStatus.active : RunStatus → Bool
  | .queued | .running => true
  | _ => false

/-- An attempt does not return `Ok` but by a write of its own, or to a run that is at rest. -/
def Advance.pinned (me : LeaseToken) (r : RunRow Json) : Advance R → Bool
  | .claiming => true
  | .checking => r.status != .queued
  | .returned ok => !ok
  | pc => pc.over || r.leasedBy me

/-! ## What a transaction leaves of a row -/

namespace Tx

variable {tx : Tx Json} {now : ℕ} {r r' : RunRow Json} {me : LeaseToken}

def isAnswer {J : Type} : Tx J → Bool
  | answerWaiting .. => true
  | _ => false

theorem not_answer_of_token (h : tx.token = some me) : tx.isAnswer = false := by
  cases tx <;> first | rfl | cases h

theorem update_active (h : tx.update now r = some r') (hans : tx.isAnswer = false)
    (ha : r'.status.active = true) : r.status.active = true := by
  have hleased : ∀ {v : LeaseToken}, r.leasedBy v = true → r.status.active = true := by
    intro v hl
    rw [(RunRow.leasedBy_iff.mp hl).2]
    rfl
  cases tx with
  | tryClaim v takeover =>
      simp only [update, RunRow.tryClaim] at h
      split_ifs at h with hc
      simp only [RunRow.claimable, Bool.or_eq_true, Bool.and_eq_true, beq_iff_eq] at hc
      rcases hc with hq | ⟨hr, -⟩
      · rw [hq]
        rfl
      · rw [hr]
        rfl
  | cancelRun takeover =>
      cases h
      simp only [RunRow.cancelRun] at ha
      split_ifs at ha
      · cases ha
      · exact ha
  | answerWaiting state rows => cases hans
  | _ => exact hleased (leased_of_update rfl rfl h)

theorem update_queued (h : tx.update now r = some r') (hq : r'.status = .queued) :
    r.status = .queued := by
  cases tx with
  | tryClaim v takeover =>
      simp only [update, RunRow.tryClaim] at h
      split_ifs at h
      cases h
      cases hq
  | cancelRun takeover =>
      cases h
      simp only [RunRow.cancelRun] at hq
      split_ifs at hq
      exact hq
  | answerWaiting state rows =>
      simp only [update, RunRow.answerWaiting] at h
      split_ifs at h
      cases h
      cases hq
  | failUnstorable v code =>
      simp only [update, RunRow.failUnstorable] at h
      split_ifs at h
      cases h
      cases hq
  | releaseLease v =>
      simp only [update, RunRow.releaseLease] at h
      split_ifs at h
      cases h
      exact hq
  | heartbeat v =>
      simp only [update, RunRow.heartbeat] at h
      split_ifs at h
      cases h
      exact hq
  | persistStep v snap rows =>
      simp only [update, RunRow.persistStep] at h
      split_ifs at h
      cases h
      exact hq
  | setWaiting v state callId question rows =>
      simp only [update, RunRow.setWaiting] at h
      split_ifs at h with hl hc
      · cases h
        cases hq
      · cases h
        cases hq
  | finish v ending snap rows =>
      simp only [update, RunRow.finish] at h
      split_ifs at h
      cases h
      cases ending <;> cases hq

/-- Others end a lease by a claim, or with the run. -/
theorem update_keeps (hl : r.leasedBy me = true) (h : tx.update now r = some r')
    (htoken : tx.token ≠ some me) (hclaim : tx.isClaim = false)
    (ha : r'.status.active = true) : r'.leasedBy me = true := by
  cases ht : tx.token with
  | some v =>
      have hv := (RunRow.leasedBy_iff.mp (leased_of_update ht hclaim h)).1
      rw [(RunRow.leasedBy_iff.mp hl).1] at hv
      cases hv
      exact absurd ht htoken
  | none =>
      cases tx with
      | cancelRun takeover =>
          cases h
          rw [RunRow.leasedBy_iff] at hl ⊢
          simp only [RunRow.cancelRun] at ha ⊢
          split_ifs at ha ⊢
          · cases ha
          · exact hl
      | answerWaiting state rows =>
          simp only [update, RunRow.answerWaiting] at h
          split_ifs at h with hw
          rw [(RunRow.leasedBy_iff.mp hl).2] at hw
          cases hw
      | _ => cases ht

end Tx

/-! ## What binds an attempt -/

namespace Advance

variable {me : LeaseToken} {r r' : RunRow Json} {pc pc' : Advance R}

theorem pinned_of_over (h : pc.over = true) (hne : pc ≠ .returned true) : pc.pinned me r = true := by
  cases pc with
  | returned ok =>
      cases ok with
      | true => exact absurd rfl hne
      | false => rfl
  | driving a st => simp [pinned, h]
  | releasing => rfl
  | _ => cases h

theorem pinned_of_leased (h : r.leasedBy me = true) (hun : pc.unclaimed = false)
    (hne : pc ≠ .returned true) : pc.pinned me r = true := by
  cases pc with
  | returned ok =>
      cases ok with
      | true => exact absurd rfl hne
      | false => rfl
  | claiming => cases hun
  | checking => cases hun
  | _ => simp [pinned, h]

theorem leased_of_pinned (h : pc.pinned me r = true) (hover : pc.over = false)
    (hun : pc.unclaimed = false) : r.leasedBy me = true := by
  cases pc with
  | claiming => cases hun
  | checking => cases hun
  | returned ok => cases hover
  | releasing => cases hover
  | _ => simpa [pinned, hover] using h

theorem retry_ne (a : Attempt) : (retry a : Advance R) ≠ .returned true := by
  unfold retry
  split_ifs <;> simp

theorem pinned_retry (a : Attempt) : (retry a : Advance R).pinned me r = true :=
  pinned_of_over (retry_over a) (retry_ne a)

theorem errored_ne (h : pc.awaits cfg me = true) : pc.errored ≠ .returned true := by
  have hgive : ∀ (a : Attempt) (direct : Bool), (giveUp a direct : Advance R) ≠ .returned true := by
    intro a direct
    unfold giveUp
    split_ifs
    · simp
    · exact retry_ne a
  cases pc with
  | driving a st =>
      cases st with
      | projecting w => exact hgive a w.direct
      | writing w rows => exact hgive a w.direct
      | failing code direct => exact hgive a direct
      | beating g => exact retry_ne a
      | abandoning => exact retry_ne a
      | _ => simp [errored]
  | returned ok => cases h
  | _ => simp [errored]

/-- An error never binds: the attempt returns `Err`, or hands the run on. -/
theorem pinned_errored (h : pc.awaits cfg me = true) : pc.errored.pinned me r = true :=
  pinned_of_over (errored_over h) (errored_ne h)

/-- Without a transaction only a run at rest makes an attempt return `Ok`. -/
theorem pinned_local {s : Engine R} {run : Uuid} {a : Action R} (h : Local s me run pc a pc')
    (hr : s.db.runs run = some r) (ha : r.status.active = true) (hb : pc.pinned me r = true) :
    pc'.pinned me r = true := by
  have hover := local_over h
  cases h with
  | readStatus =>
      have hrunning : r.status = .running := by
        have hne : r.status ≠ .queued := by simpa [pinned] using hb
        cases hs : r.status with
        | queued => exact absurd hs hne
        | running => rfl
        | _ => rw [hs] at ha; cases ha
      simp [pinned, hr, hrunning]
  | readSeq => exact pinned_of_leased (leased_of_pinned hb hover rfl) rfl (by simp)
  | rejects h =>
      cases pc with
      | driving at' st =>
          cases st with
          | writing w rows =>
              cases h
              exact pinned_of_leased (leased_of_pinned hb hover rfl) rfl (by simp)
          | _ => cases h
      | closing ending snap =>
          cases h
          exact pinned_of_leased (leased_of_pinned hb hover rfl) rfl (by simp)
      | _ => cases h
  | input h =>
      cases h with
      | stop a => exact pinned_retry a
      | retryable a => exact pinned_retry a
      | _ => exact pinned_of_leased (leased_of_pinned hb hover rfl) rfl (by simp)

/-- A transaction of others that leaves the run active leaves the attempt pinned, but for a
claim that takes its lease. -/
theorem pinned_update {tx : Tx Json} {now : ℕ} (h : tx.update now r = some r')
    (ha : r'.status.active = true) (htoken : tx.token = some me → pc.over = true)
    (hclaim : tx.isClaim = true → r.leasedBy me = true → pc.over = true)
    (hb : pc.pinned me r = true) : pc.pinned me r' = true := by
  have hrest : pc.unclaimed = false → (pc.over || r.leasedBy me) = true →
      (pc.over || r'.leasedBy me) = true := by
    intro hun hpinned
    cases hover : pc.over with
    | true => rfl
    | false =>
        rw [hover, Bool.false_or] at hpinned
        rw [Bool.false_or]
        refine Tx.update_keeps hpinned h (fun ht => ?_) ?_ ha
        · rw [htoken ht] at hover
          cases hover
        · cases hc : tx.isClaim with
          | false => rfl
          | true =>
              rw [hclaim hc hpinned] at hover
              cases hover
  cases pc with
  | claiming => rfl
  | returned ok => exact hb
  | checking =>
      have hne : r.status ≠ .queued := by simpa [pinned] using hb
      simpa [pinned] using fun hq => hne (Tx.update_queued h hq)
  | _ => exact hrest rfl hb

/-- A transaction that matched nothing. -/
theorem pinned_unmatched {tx : Tx Json} {now : ℕ} (h : Answers cfg pc none pc')
    (htx : pc.tx cfg me = some tx) (hu : tx.update now r = none) (henq : pc.enqueues = false)
    (hb : pc.pinned me r = true) : pc'.pinned me r = true := by
  have hmatches : pc.over = false → pc.unclaimed = false → False := by
    intro hover hun
    have hc : tx.isClaim = false := by
      cases hc : tx.isClaim with
      | false => rfl
      | true =>
          obtain rfl := claiming_of_isClaim htx hc
          cases hun
    exact Tx.update_leased (token_of_tx htx) hc (leased_of_pinned hb hover hun) now hu
  cases h with
  | unclaimed =>
      cases htx
      simp only [Tx.update, RunRow.tryClaim] at hu
      split_ifs at hu with hc
      simp only [RunRow.claimable, Bool.or_eq_true, not_or, beq_iff_eq] at hc
      simpa [pinned] using hc.1
  | abandoned a => exact pinned_retry a
  | requeued => cases henq
  | released => rfl
  | _ => exact (hmatches rfl rfl).elim

theorem claimed_ne (row : RunRow Json) : (claimed cfg row : Advance R) ≠ .returned true := by
  unfold claimed
  dsimp only
  split_ifs
  · simp
  · split <;> simp

/-- A transaction that matched and left the run active. -/
theorem pinned_matched {tx : Tx Json} {now : ℕ} (h : Answers cfg pc (some r') pc')
    (htx : pc.tx cfg me = some tx) (hu : tx.update now r = some r')
    (ha : r'.status.active = true) (henq : pc.enqueues = false) : pc'.pinned me r' = true := by
  have hended : ∀ {code : String}, Tx.failUnstorable me code = tx → False := by
    rintro code rfl
    simp only [Tx.update, RunRow.failUnstorable] at hu
    split_ifs at hu
    cases hu
    cases ha
  have hfinished : ∀ {ending : Ending} {snap : RunSnapshot Json} {rows : List (MessageRow Json)},
      Tx.finish me ending snap rows = tx → False := by
    rintro ending snap rows rfl
    simp only [Tx.update, RunRow.finish] at hu
    split_ifs at hu
    cases hu
    cases ending <;> cases ha
  have hbeat : Tx.heartbeat me = tx → r'.leasedBy me = true := by
    rintro rfl
    simp only [Tx.update, RunRow.heartbeat] at hu
    split_ifs at hu with hl
    cases hu
    exact hl
  cases h with
  | claimed =>
      cases htx
      simp only [Tx.update, RunRow.tryClaim] at hu
      split_ifs at hu
      cases hu
      exact pinned_of_leased (by simp [RunRow.leasedBy]) (claimed_unclaimed _) (claimed_ne _)
  | closed => exact (hfinished (Option.some.inj htx)).elim
  | closedFailed => exact (hended (Option.some.inj htx)).elim
  | failed => exact (hended (Option.some.inj htx)).elim
  | beatCancelled a g hc =>
      exact pinned_of_leased (hbeat (Option.some.inj htx)) rfl (by simp)
  | beat a g hc => exact pinned_of_leased (hbeat (Option.some.inj htx)) rfl (by simp)
  | abandoned a => exact pinned_retry a
  | requeued => cases henq
  | released => rfl
  | landed a w rows =>
      cases w with
      | persist run advanced next =>
          cases htx
          simp only [Write.tx, Tx.update, RunRow.persistStep] at hu
          split_ifs at hu with hl
          cases hu
          simp only [landed]
          split_ifs <;> exact pinned_of_leased hl rfl (by simp)
      | suspend run callId question =>
          cases htx
          simp only [Write.tx, Tx.update, RunRow.setWaiting] at hu
          split_ifs at hu with hl hc
          · cases hu
            cases ha
          · cases hu
            cases ha
      | finish run ending direct => exact (hfinished (Option.some.inj htx)).elim

end Advance

/-! ## What a step leaves of a run -/

/-- The run and the attempt whose claim, applied in a step, takes the lease from an attempt
that still drives the run. -/
def Engine.seizes (cfg : Config) (s : Engine R) (a : Action R) : Option (Uuid × LeaseToken) :=
  match s.applies cfg a with
  | some (run, .tryClaim me takeover) =>
      if (s.db.runs run).any fun r => r.claimable a.now takeover &&
          r.lockedBy.any fun v => (s.attempts v).any fun j => !j.pc.over then
        some (run, me)
      else none
  | _ => none

section

variable {s s' : Engine R} {a : Action R} {es : List Event} {id : Uuid} {r r' : RunRow Json}

/-- A claim that does not seize takes the lease from attempts that are over only. -/
theorem Engine.over_of_claim {tx : Tx Json} (happ : s.applies cfg a = some (id, tx))
    (hseize : ∀ v, s.seizes cfg a ≠ some (id, v)) (hr : s.db.runs id = some r)
    (hu : tx.update a.now r = some r') (hc : tx.isClaim = true) {me : LeaseToken}
    {j : JobAttempt R} (hj : s.attempts me = some j) (hl : r.leasedBy me = true) :
    j.pc.over = true := by
  cases tx with
  | tryClaim v takeover =>
      have hclaimable : r.claimable a.now takeover = true := by
        simp only [Tx.update, RunRow.tryClaim] at hu
        split_ifs at hu with hclaimable
        exact hclaimable
      by_contra hover
      refine hseize v ?_
      simp [seizes, happ, hr, hclaimable, (RunRow.leasedBy_iff.mp hl).1, hj, hover]
  | _ => cases hc

/-- The run was active before the step that left it as `r'`, and its attempts are pinned as
before. -/
def StaysPinned (s s' : Engine R) (id : Uuid) (r' : RunRow Json) : Prop :=
  ∃ r, s.db.runs id = some r ∧ r.status.active = true ∧ ∀ me pc pc',
    s.attempts me = some ⟨id, pc⟩ → s'.attempts me = some ⟨id, pc'⟩ → pc.pinned me r = true →
    pc'.pinned me r' = true

/-- The tables stay, and so do the attempts but for one. -/
theorem StaysPinned.of_tables (hr' : s'.db.runs id = some r') (ha : r'.status.active = true)
    (hdb : s'.db = s.db)
    (hpc : ∀ me pc pc', s.attempts me = some ⟨id, pc⟩ → s'.attempts me = some ⟨id, pc'⟩ →
      pc' = pc ∨ pc'.pinned me r' = true ∨ Local s me id pc a pc') :
    StaysPinned s s' id r' := by
  rw [hdb] at hr'
  refine ⟨r', hr', ha, fun me pc pc' hj hj' hpinned => ?_⟩
  rcases hpc me pc pc' hj hj' with rfl | hdone | hl
  · exact hpinned
  · exact hdone
  · exact Advance.pinned_local hl hr' ha hpinned

/-- A transaction is committed, and the attempts but its own stay. -/
theorem StaysPinned.of_exec (hr' : s'.db.runs id = some r') (ha : r'.status.active = true)
    (hseize : ∀ v, s.seizes cfg a ≠ some (id, v)) {run : Uuid} {tx : Tx Json}
    {ret : Option (RunRow Json)} (happ : s.applies cfg a = some (run, tx))
    (hdb : s.db.exec run tx a.now = some (s'.db, ret)) (hans : run = id → tx.isAnswer = false)
    (hpc : ∀ me pc pc', s.attempts me = some ⟨id, pc⟩ → s'.attempts me = some ⟨id, pc'⟩ →
      pc' = pc ∧ (tx.token = some me → pc.over = true) ∨ pc'.pinned me r' = true ∨
        (run = id ∧ pc.tx cfg me = some tx ∧ pc.enqueues = false ∧ Answers cfg pc ret pc')) :
    StaysPinned s s' id r' := by
  obtain ⟨hother, hrun⟩ := Db.exec_at hdb
  by_cases hid : id = run
  swap
  · rw [(hother id hid).1] at hr'
    refine ⟨r', hr', ha, fun me pc pc' hj hj' hpinned => ?_⟩
    rcases hpc me pc pc' hj hj' with ⟨rfl, -⟩ | hdone | ⟨he, -⟩
    · exact hpinned
    · exact hdone
    · exact absurd he.symm hid
  subst hid
  rcases hrun with ⟨rfl, hsame, hnone⟩ | ⟨r₀, r₁, rfl, hr₀, hu, hr₁, -⟩
  · rw [hsame] at hr'
    refine ⟨r', hr', ha, fun me pc pc' hj hj' hpinned => ?_⟩
    rcases hpc me pc pc' hj hj' with ⟨rfl, -⟩ | hdone | ⟨-, htx, henq, hanswer⟩
    · exact hpinned
    · exact hdone
    · rw [hr', Option.bind_some] at hnone
      exact Advance.pinned_unmatched hanswer htx hnone henq hpinned
  · rw [hr'] at hr₁
    cases hr₁
    refine ⟨r₀, hr₀, Tx.update_active hu (hans rfl) ha, fun me pc pc' hj hj' hpinned => ?_⟩
    rcases hpc me pc pc' hj hj' with ⟨rfl, htoken⟩ | hdone | ⟨-, htx, henq, hanswer⟩
    · exact Advance.pinned_update hu ha htoken
        (fun hc hl => Engine.over_of_claim happ hseize hr₀ hu hc hj hl) hpinned
    · exact hdone
    · exact Advance.pinned_matched hanswer htx hu ha henq

/-- An attempt that ends is gone or has failed, and the others stay. -/
theorem Ended.others {me v : LeaseToken} {t : Engine R} {j : JobAttempt R}
    {j' : Option (JobAttempt R)} {pc pc' : Advance R} {fate : Fate} {now : ℕ}
    (he : Ended cfg v j fate now a j') (ht : t.attempts = s.attempts)
    (hj : s.attempts me = some ⟨id, pc⟩)
    (hj' : (t.setAttempt v j').attempts me = some ⟨id, pc'⟩) :
    pc' = pc ∧ me ≠ v ∨ pc'.pinned me r' = true := by
  by_cases hme : me = v
  · subst hme
    rw [Engine.setAttempt_self] at hj'
    cases he with
    | fails hawait =>
        cases hj'
        exact .inr (Advance.pinned_errored hawait)
    | vanish => cases hj'
  · rw [Engine.setAttempt_other _ _ hme, ht, hj] at hj'
    cases hj'
    exact .inl ⟨rfl, hme⟩

/-- The attempt whose transaction is committed is answered, and the others stay. -/
theorem Answers.others {v : LeaseToken} {run : Uuid} {pc₀ pc₁ : Advance R} {tx : Tx Json}
    {db : Db Json} {ret : Option (RunRow Json)} (hv : s.attempts v = some ⟨run, pc₀⟩)
    (htx : pc₀.tx cfg v = some tx) (hanswer : Answers cfg pc₀ ret pc₁)
    (henq : run = id → pc₀.enqueues = false) {me : LeaseToken} {pc pc' : Advance R}
    (hj : s.attempts me = some ⟨id, pc⟩)
    (hj' : ((s.setDb db).setAt v run pc₁).attempts me = some ⟨id, pc'⟩) :
    pc' = pc ∧ (tx.token = some me → pc.over = true) ∨ pc'.pinned me r' = true ∨
      (run = id ∧ pc.tx cfg me = some tx ∧ pc.enqueues = false ∧ Answers cfg pc ret pc') := by
  by_cases hme : me = v
  · subst hme
    rw [Engine.setAt, Engine.setAttempt_self] at hj'
    rw [hv] at hj
    cases hj
    cases hj'
    exact .inr (.inr ⟨rfl, htx, henq rfl, hanswer⟩)
  · rw [Engine.setAt, Engine.setAttempt_other _ _ hme] at hj'
    rw [Engine.setDb_attempts, hj] at hj'
    cases hj'
    refine .inl ⟨rfl, fun ht => ?_⟩
    rw [Advance.token_of_tx htx] at ht
    cases ht
    exact absurd rfl hme

/-- A run that is active after a step was so before, and its attempts are pinned as before,
unless the step enqueued a job of the run or seized its lease. -/
theorem Took.pinned (hb : s.Basic) (h : Took cfg s a s' es) (hr' : s'.db.runs id = some r')
    (ha : r'.status.active = true) (hnew : .enqueued id ∉ es)
    (hseize : ∀ v, s.seizes cfg a ≠ some (id, v)) : StaysPinned s s' id r' := by
  cases h with
  | @begin v run hv =>
      refine .of_tables (a := .begin v run) hr' ha rfl fun me pc pc' hj hj' => .inl ?_
      have hne : me ≠ v := by
        rintro rfl
        exact hv (hb.attempts _ _ hj)
      rw [show (Engine.setAt s v run .claiming).attempts me = s.attempts me from
        Engine.setAttempt_other _ _ hne, hj] at hj'
      cases hj'
      rfl
  | @here a v run pc₀ pc₁ hv hl =>
      refine .of_tables (a := a) hr' ha rfl fun me pc pc' hj hj' => ?_
      by_cases hme : me = v
      · subst hme
        rw [Engine.setAt, Engine.setAttempt_self] at hj'
        rw [hv] at hj
        cases hj
        cases hj'
        exact .inr (.inr hl)
      · rw [Engine.setAt, Engine.setAttempt_other _ _ hme, hj] at hj'
        cases hj'
        exact .inl rfl
  | @commit v run pc₀ pc₁ tx now db ret hv htx hdb hanswer =>
      have htoken := Advance.token_of_tx htx
      have henq : run = id → pc₀.enqueues = false := by
        rintro rfl
        cases henq : pc₀.enqueues with
        | false => rfl
        | true => simp [enqueuedEvents, henq] at hnew
      refine .of_exec hr' ha hseize (by simp [Engine.applies, hv, htx]) hdb
        (fun _ => Tx.not_answer_of_token htoken) fun me pc pc' hj hj' => ?_
      exact hanswer.others hv htx henq hj hj'
  | lost hv he =>
      refine .of_tables (a := a) hr' ha rfl fun me pc pc' hj hj' => ?_
      rcases he.others rfl hj hj' with ⟨rfl, -⟩ | hdone
      · exact .inl rfl
      · exact .inr (.inl hdone)
  | @left a v j j' tx now hv he htx hl =>
      refine .of_tables (a := a) hr' ha rfl fun me pc pc' hj hj' => ?_
      rcases he.others rfl hj hj' with ⟨rfl, -⟩ | hdone
      · exact .inl rfl
      · exact .inr (.inl hdone)
  | @applied a v j j' tx now db ret hv he htx hdb =>
      have htoken := Advance.token_of_tx htx
      have happ : s.applies cfg a = some (j.run, tx) := by
        cases he <;> simp [Engine.applies, hv, htx]
      have hnow : s.db.exec j.run tx a.now = some (db, ret) := by
        cases he <;> exact hdb
      refine .of_exec hr' ha hseize happ hnow (fun _ => Tx.not_answer_of_token htoken)
        fun me pc pc' hj hj' => ?_
      rcases he.others rfl hj hj' with ⟨rfl, hme⟩ | hdone
      · refine .inl ⟨rfl, fun ht => ?_⟩
        rw [htoken] at ht
        cases ht
        exact absurd rfl hme
      · exact .inr (.inl hdone)
  | @late i now l db ret hl hdb =>
      have hmem : l ∈ s.late := List.mem_of_getElem? hl
      refine .of_exec hr' ha hseize (by simp [Engine.applies, hl]) hdb (fun _ => ?_)
        fun me pc pc' hj hj' => ?_
      · have hlinger := (hb.late l hmem).1
        cases htx : l.tx <;> first | rfl | (rw [htx] at hlinger; cases hlinger)
      · cases hj.symm.trans hj'
        exact .inl ⟨rfl, fun ht => ((hb.late l hmem).2 me ht).2 _ hj⟩
  | @start run kind prompt now k db hk hdb =>
      have hne : id ≠ run := by
        rintro rfl
        exact hnew (List.mem_singleton_self _)
      unfold Db.insertRun at hdb
      split_ifs at hdb
      cases hdb
      rw [Engine.setDb_db, Db.setRun_runs, if_neg hne] at hr'
      refine ⟨r', hr', ha, fun me pc pc' hj hj' hpinned => ?_⟩
      rw [Engine.setDb_attempts, hj] at hj'
      cases hj'
      exact hpinned
  | refused =>
      refine ⟨r', hr', ha, fun me pc pc' hj hj' hpinned => ?_⟩
      cases hj.symm.trans hj'
      exact hpinned
  | @answer run text agentRun db ret hans hdb =>
      have hne : run ≠ id := by
        rintro rfl
        simp at hnew
      refine .of_exec hr' ha hseize (by simp [Engine.applies, hans]) hdb (fun he => absurd he hne)
        fun me pc pc' hj hj' => ?_
      rw [Engine.setDb_attempts, hj] at hj'
      cases hj'
      exact .inl ⟨rfl, fun ht => by cases ht⟩
  | cancel hdb =>
      refine .of_exec hr' ha hseize rfl hdb (fun _ => rfl) fun me pc pc' hj hj' => ?_
      rw [Engine.setDb_attempts, hj] at hj'
      cases hj'
      exact .inl ⟨rfl, fun ht => by cases ht⟩

/-- A step executes the transaction it applies. -/
theorem Took.exec_applied (h : Took cfg s a s' es) {tx : Tx Json}
    (happ : s.applies cfg a = some (id, tx)) :
    ∃ ret, s.db.exec id tx a.now = some (s'.db, ret) := by
  cases h with
  | begin => cases happ
  | here hj hl => cases hl <;> cases happ
  | @commit me run pc pc' tx' now db ret hj htx hdb ha =>
      simp only [Engine.applies, hj, Option.bind_some, htx, Option.map_some, Option.some.injEq,
        Prod.mk.injEq] at happ
      obtain ⟨rfl, rfl⟩ := happ
      exact ⟨ret, hdb⟩
  | lost hj he => cases he <;> cases happ
  | left hj he => cases he <;> cases happ
  | @applied a me j j' tx' now db ret hj he htx hdb =>
      have htx' : j.run = id ∧ tx' = tx := by
        cases he <;> simpa [Engine.applies, hj, htx] using happ
      obtain ⟨rfl, rfl⟩ := htx'
      refine ⟨ret, ?_⟩
      cases he <;> exact hdb
  | @late i now l db ret hl hdb =>
      simp only [Engine.applies, hl, Option.map_some, Option.some.injEq, Prod.mk.injEq] at happ
      obtain ⟨rfl, rfl⟩ := happ
      exact ⟨ret, hdb⟩
  | start => cases happ
  | refused hans =>
      simp only [Engine.applies, hans] at happ
      cases happ
  | @answer run text agentRun db ret hans hdb =>
      simp only [Engine.applies, hans, Option.some.injEq, Prod.mk.injEq] at happ
      obtain ⟨rfl, rfl⟩ := happ
      exact ⟨ret, hdb⟩
  | @cancel run now db ret hdb =>
      cases happ
      exact ⟨ret, hdb⟩

/-- The attempt that seizes a lease holds it, and is pinned by it. -/
theorem Took.seized (hb : s.Basic) (h : Took cfg s a s' es) {me : LeaseToken}
    (hseize : s.seizes cfg a = some (id, me)) (hr' : s'.db.runs id = some r') {run : Uuid}
    {pc pc' : Advance R} (hj : s.attempts me = some ⟨run, pc⟩) (hne : pc ≠ .returned true)
    (hj' : s'.attempts me = some ⟨run, pc'⟩) : pc'.pinned me r' = true := by
  obtain ⟨takeover, r, happ, hr, hclaimable⟩ : ∃ takeover r,
      s.applies cfg a = some (id, .tryClaim me takeover) ∧ s.db.runs id = some r ∧
        r.claimable a.now takeover = true := by
    unfold Engine.seizes at hseize
    split at hseize
    · next run' v takeover happ =>
        split_ifs at hseize with hany
        cases hseize
        obtain ⟨r, hr, htest⟩ := Option.any_eq_true _ _ |>.1 hany
        exact ⟨takeover, r, happ, hr, (Bool.and_eq_true_iff.1 htest).1⟩
    · cases hseize
  obtain ⟨ret, hexec⟩ := h.exec_applied happ
  have hmatch : ret ≠ none ∧ r'.leasedBy me = true := by
    rcases (Db.exec_at hexec).2 with ⟨-, -, hnone⟩ | ⟨r₀, r₁, rfl, hr₀, hu, hr₁, -⟩
    · simp [hr, Tx.update, RunRow.tryClaim, hclaimable] at hnone
    · rw [hr'] at hr₁
      cases hr₁
      simp only [Tx.update, RunRow.tryClaim] at hu
      split_ifs at hu
      cases hu
      simp [RunRow.leasedBy]
  have hclaiming : ∀ {v : LeaseToken} {pc₀ : Advance R} {tx : Tx Json},
      pc₀.tx cfg v = some tx → tx = .tryClaim me takeover → v = me ∧ pc₀ = .claiming := by
    rintro v pc₀ tx htx rfl
    exact ⟨(Option.some.inj (Advance.token_of_tx htx)).symm, Advance.claiming_of_isClaim htx rfl⟩
  cases h with
  | begin => cases happ
  | here hv hl => cases hl <;> cases happ
  | @commit v run₀ pc₀ pc₁ tx now db ret₀ hv htx hdb ha =>
      have htx' : run₀ = id ∧ tx = .tryClaim me takeover := by
        simpa [Engine.applies, hv, htx] using happ
      obtain ⟨rfl, htx''⟩ := htx'
      obtain ⟨rfl, rfl⟩ := hclaiming htx htx''
      rw [Engine.setAt, Engine.setAttempt_self] at hj'
      cases hj'
      subst htx''
      have hret : ret₀ = ret := by
        have heq := hdb.symm.trans hexec
        exact (Prod.mk.inj (Option.some.inj heq)).2
      cases ha with
      | claimed row =>
          exact Advance.pinned_of_leased hmatch.2 (Advance.claimed_unclaimed row)
            (Advance.claimed_ne row)
      | unclaimed => exact absurd hret.symm hmatch.1
  | lost hv he => cases he <;> cases happ
  | left hv he => cases he <;> cases happ
  | @applied a v j j' tx now db ret₀ hv he htx hdb =>
      have htx' : tx = .tryClaim me takeover := by
        have hboth : j.run = id ∧ tx = .tryClaim me takeover := by
          cases he <;> simpa [Engine.applies, hv, htx] using happ
        exact hboth.2
      obtain ⟨rfl, -⟩ := hclaiming htx htx'
      rw [Engine.setAttempt_self] at hj'
      cases he with
      | fails hawait =>
          cases hj'
          exact Advance.pinned_errored hawait
      | vanish => cases hj'
  | @late i now l db ret₀ hl hdb =>
      have htx' : l.tx = .tryClaim me takeover := by
        have hboth : l.run = id ∧ l.tx = .tryClaim me takeover := by
          simpa [Engine.applies, hl] using happ
        exact hboth.2
      cases hj.symm.trans hj'
      have hover := ((hb.late l (List.mem_of_getElem? hl)).2 me (by rw [htx']; rfl)).2 _ hj
      exact Advance.pinned_of_over hover hne
  | start => cases happ
  | refused hans =>
      simp only [Engine.applies, hans] at happ
      cases happ
  | answer hans hdb =>
      simp only [Engine.applies, hans] at happ
      cases happ
  | cancel hdb => cases happ

end

end Cja.Durable
