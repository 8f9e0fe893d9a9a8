import Cja.Durable.EngineSteps

/-!
# What a step does to a row and to its lease holder

A step changes a run row by the one transaction it applies. What is known of the
attempt that holds a lease survives what everybody else commits, since nobody
else touches the row but for its cancel flag; `Engine.Holders.step` states this
once for every such invariant.
-/
namespace Cja.Durable

open Jobs (Uuid)

variable {R : Rig} {cfg : Config} {s s' : Engine R} {a : Action R} {es : List Event}

/-! ## What a step does to one row -/

/-- The transaction that the database applies in a step. -/
def Engine.applies (cfg : Config) (s : Engine R) : Action R → Option (Uuid × Tx Json)
  | .commit me _ | .fails me .applied _ | .vanish me .applied _ =>
      (s.attempts me).bind fun j => (j.pc.tx cfg me).map fun tx => (j.run, tx)
  | .applyLate i _ => s.late[i]?.map fun l => (l.run, l.tx)
  | .answer run text =>
      match answerRow R text (s.db.runs run) with
      | .ok agentRun => some (run, .answerWaiting (R.toValue agentRun)
          (R.projectRows (nextMessageSeq (s.db.messages run)) agentRun))
      | .error _ => none
  | .cancel run _ => some (run, .cancelRun cfg.leaseTakeover)
  | _ => none

/-- `NOW()` of the transaction that a step applies. -/
def Action.now : Action R → ℕ
  | .commit _ now | .fails _ _ now | .vanish _ _ now | .applyLate _ now | .start _ _ _ now
  | .cancel _ now => now
  | _ => 0

inductive RowStep (cfg : Config) (s : Engine R) (a : Action R) (id : Uuid) :
    Option (RunRow Json) → Option (RunRow Json) → Prop
  | same (o : Option (RunRow Json)) : RowStep cfg s a id o o
  | started {k : AgentKind} {kind prompt : String} {now : ℕ} (hk : cfg.kindNamed kind = some k)
      (ha : a = .start id kind prompt now) :
      RowStep cfg s a id none (some (NewRun.row ⟨k.name, prompt, k.model, cfg.appName,
        R.toValue (R.fromSpec k prompt), now⟩))
  | updated {tx : Tx Json} {r r' : RunRow Json} (h : s.applies cfg a = some (id, tx))
      (hu : tx.update a.now r = some r') : RowStep cfg s a id (some r) (some r')

theorem RowStep.of_exec {run id : Uuid} {tx : Tx Json} {db : Db Json}
    {ret : Option (RunRow Json)} (h : s.applies cfg a = some (run, tx))
    (hdb : s.db.exec run tx a.now = some (db, ret)) :
    RowStep cfg s a id (s.db.runs id) (db.runs id) := by
  obtain ⟨hother, hrun⟩ := Db.exec_at hdb
  by_cases hid : id = run
  · subst hid
    rcases hrun with ⟨-, rfl, -⟩ | ⟨r, r', -, hr, hu, hr', -⟩
    · exact .same _
    · rw [hr, hr']
      exact .updated h hu
  · rw [(hother id hid).1]
    exact .same _

theorem Took.rowStep (h : Took cfg s a s' es) (id : Uuid) :
    RowStep cfg s a id (s.db.runs id) (s'.db.runs id) := by
  cases h with
  | begin => exact .same _
  | here => exact .same _
  | commit hj htx hdb => exact .of_exec (by simp [Engine.applies, hj, htx]) hdb
  | lost => exact .same _
  | @applied a me j j' tx now db ret hj he htx hdb =>
      have happ : s.applies cfg a = some (j.run, tx) := by
        cases he <;> simp [Engine.applies, hj, htx]
      have hnow : s.db.exec j.run tx a.now = some (db, ret) := by
        cases he <;> exact hdb
      exact .of_exec happ hnow
  | left => exact .same _
  | late hl hdb => exact .of_exec (by simp [Engine.applies, hl]) hdb
  | @start run kind prompt now k db hk hdb =>
      unfold Db.insertRun at hdb
      split_ifs at hdb with hnone
      cases hdb
      rw [Engine.setDb_db, Db.setRun_runs]
      split_ifs with hid
      · subst hid
        rw [Bool.and_eq_true, Option.isNone_iff_eq_none] at hnone
        rw [hnone.1]
        exact .started hk rfl
      · exact .same _
  | refused => exact .same _
  | answer hans hdb => exact .of_exec (by simp [Engine.applies, hans]) hdb
  | cancel hdb => exact .of_exec rfl hdb

/-- Whose transaction a step applies. -/
inductive Applies (s : Engine R) (cfg : Config) (id : Uuid) : Tx Json → Prop
  | attempt {me : LeaseToken} {pc : Advance R} {tx : Tx Json} (h : s.attempts me = some ⟨id, pc⟩)
      (htx : pc.tx cfg me = some tx) : Applies s cfg id tx
  | late {l : LateTx} (h : l ∈ s.late) (hid : l.run = id) : Applies s cfg id l.tx
  | answer {text : String} {agentRun : R.AgentRun}
      (h : answerRow R text (s.db.runs id) = .ok agentRun) :
      Applies s cfg id (.answerWaiting (R.toValue agentRun)
        (R.projectRows (nextMessageSeq (s.db.messages id)) agentRun))
  | cancel : Applies s cfg id (.cancelRun cfg.leaseTakeover)

theorem applies_spec {id : Uuid} {tx : Tx Json} (h : s.applies cfg a = some (id, tx)) :
    Applies s cfg id tx := by
  have hattempt : ∀ {me : LeaseToken}, ((s.attempts me).bind fun j =>
      (j.pc.tx cfg me).map fun tx => (j.run, tx)) = some (id, tx) → Applies s cfg id tx := by
    intro me h
    simp only [Option.bind_eq_some_iff, Option.map_eq_some_iff, Prod.mk.injEq] at h
    obtain ⟨⟨run, pc⟩, hj, tx', htx, rfl, rfl⟩ := h
    exact .attempt hj htx
  cases a with
  | commit me now => exact hattempt h
  | fails me fate now =>
      cases fate with
      | applied => exact hattempt h
      | _ => cases h
  | vanish me fate now =>
      cases fate with
      | applied => exact hattempt h
      | _ => cases h
  | applyLate i now =>
      simp only [Engine.applies, Option.map_eq_some_iff, Prod.mk.injEq] at h
      obtain ⟨l, hl, rfl, rfl⟩ := h
      exact .late (List.mem_of_getElem? hl) rfl
  | answer run text =>
      simp only [Engine.applies] at h
      split at h
      · case _ hans =>
          cases h
          exact .answer hans
      · cases h
  | cancel run now =>
      cases h
      exact .cancel
  | _ => cases h

/-- Only the answer to a release, or to nothing, is still to come. -/
def Advance.done : Advance R → Bool
  | releasing | returned _ => true
  | _ => false

theorem Advance.over_of_done {pc : Advance R} (h : pc.done = true) : pc.over = true := by
  cases pc <;> first | rfl | cases h

theorem Advance.tx_of_over {pc : Advance R} {me : LeaseToken} {tx : Tx Json}
    (hover : pc.over = true) (h : pc.tx cfg me = some tx) : tx = .releaseLease me := by
  cases pc with
  | releasing => cases h; rfl
  | driving a st =>
      cases st with
      | requeueing => cases h; rfl
      | _ => cases hover
  | returned ok => cases h
  | _ => cases hover

/-- An attempt that is done stays so. -/
theorem Took.done (h : Took cfg s a s' es) {me : LeaseToken} (hissued : me ∈ s.issued)
    (hd : ∀ j, s.attempts me = some j → j.pc.done = true) :
    ∀ j, s'.attempts me = some j → j.pc.done = true := by
  have hset : ∀ {v : LeaseToken} {j' : Option (JobAttempt R)},
      (v = me → ∀ j, j' = some j → j.pc.done = true) →
      ∀ j, (s.setAttempt v j').attempts me = some j → j.pc.done = true := by
    intro v j' hv j hj
    by_cases hme : v = me
    · subst hme
      rw [Engine.setAttempt_self] at hj
      exact hv rfl j hj
    · rw [Engine.setAttempt_other _ _ fun he => hme he.symm] at hj
      exact hd j hj
  have hended : ∀ {v : LeaseToken} {j : JobAttempt R} {j' : Option (JobAttempt R)} {fate : Fate}
      {now : ℕ}, s.attempts v = some j → Ended cfg v j fate now a j' → v = me →
      ∀ k, j' = some k → k.pc.done = true := by
    rintro v j j' fate now hj he rfl k rfl
    have hdone := hd j hj
    cases he with
    | fails hawait =>
        cases hpc : j.pc with
        | releasing => rfl
        | returned ok => rw [hpc] at hawait; cases hawait
        | _ => rw [hpc] at hdone; cases hdone
  cases h with
  | @begin v run hv => exact hset fun he => absurd hissued (he ▸ hv)
  | @here a v run pc pc' hj hl =>
      refine hset ?_
      rintro rfl
      have hover := Advance.over_of_done (hd _ hj)
      rw [Advance.local_over hl] at hover
      cases hover
  | @commit v run pc pc' tx now db ret hj htx hdb ha =>
      refine hset ?_
      rintro rfl j ⟨⟩
      have hdone := hd _ hj
      cases ha with
      | released => rfl
      | _ => cases hdone
  | lost hj he => exact hset (hended hj he)
  | applied hj he => exact hset (hended hj he)
  | left hj he => exact hset (hended hj he)
  | late => exact hd
  | start => exact hd
  | refused => exact hd
  | answer => exact hd
  | cancel => exact hd

/-- A statement stays behind only with the attempt whose it was. -/
theorem Took.late_mem (h : Took cfg s a s' es) {l : LateTx} (hl : l ∈ s'.late) : l ∈ s.late ∨
    ∃ me j, s.attempts me = some j ∧ l.run = j.run ∧ j.pc.tx cfg me = some l.tx ∧
      ∀ k, s'.attempts me = some k → k.pc = j.pc.errored := by
  cases h with
  | @left a me j j' tx now hj he htx hlinger =>
      rcases List.mem_append.mp hl with hold | hnew
      · exact .inl hold
      · rw [List.mem_singleton] at hnew
        subst hnew
        refine .inr ⟨me, j, hj, rfl, htx, ?_⟩
        intro k hk
        rw [Engine.setAttempt_self] at hk
        cases he with
        | fails => cases hk; rfl
        | vanish => cases hk
  | late hmem => exact .inl (List.mem_of_mem_eraseIdx hl)
  | _ => exact .inl hl

/-! ## Who acts -/

/-- The attempt that acts. -/
def Action.actor : Action R → Option LeaseToken
  | .begin me _ | .readStatus me | .readSeq me | .commit me _ | .fails me _ _ | .rejects me _
  | .input me _ | .vanish me _ _ => some me
  | .applyLate _ _ | .start _ _ _ _ | .answer _ _ | .cancel _ _ => none

/-- A step leaves the attempts alone that do not act. -/
theorem Took.attempts_other (h : Took cfg s a s' es) {v : LeaseToken} (hv : a.actor ≠ some v) :
    s'.attempts v = s.attempts v := by
  have hended : ∀ {me : LeaseToken} {j : JobAttempt R} {j' : Option (JobAttempt R)} {fate : Fate}
      {now : ℕ}, Ended cfg me j fate now a j' → v ≠ me := by
    rintro me j j' fate now he rfl
    cases he <;> exact hv rfl
  cases h with
  | begin => exact Engine.setAttempt_other _ _ fun he => hv (congrArg some he.symm)
  | here hj hl =>
      refine Engine.setAttempt_other _ _ ?_
      rintro rfl
      cases hl <;> exact hv rfl
  | commit => exact Engine.setAttempt_other _ _ fun he => hv (congrArg some he.symm)
  | lost hj he => exact Engine.setAttempt_other _ _ (hended he)
  | applied hj he => exact Engine.setAttempt_other _ _ (hended he)
  | left hj he => exact Engine.setAttempt_other _ _ (hended he)
  | _ => rfl

/-! ## What holds of every lease holder -/

/-- `P` holds of every attempt that holds the lease of its run. -/
def Engine.Holders (P : RunRow Json → List (MessageRow Json) → Advance R → Prop)
    (s : Engine R) : Prop :=
  ∀ me j r, s.attempts me = some j → s.db.runs j.run = some r → r.leasedBy me = true →
    P r (s.db.messages j.run) j.pc

/-- While an attempt holds the lease, nobody else changes its row but for the flag,
which a cancel sets. -/
theorem Tx.update_held {J : Type} {tx : Tx J} {now : ℕ} {r r' : RunRow J} {me : LeaseToken}
    (hl : r.leasedBy me = true) (htoken : tx.token ≠ some me) (h : tx.update now r = some r')
    (hl' : r'.leasedBy me = true) : tx.newMessages = [] ∧
      (r' = r ∨ ∃ takeover, tx = .cancelRun takeover ∧ r' = { r with cancelRequested := true }) := by
  rcases update_foreign hl htoken h with hlost | ⟨-, hm, hnew⟩
  · rw [hl'] at hlost
    cases hlost
  refine ⟨hm, ?_⟩
  obtain ⟨-, hrun⟩ := RunRow.leasedBy_iff.mp hl
  cases ht : tx.token with
  | some v =>
      have hclaim : tx.isClaim = true := by
        by_contra hc
        have hv := leased_of_update ht (by simpa using hc) h
        rw [RunRow.leasedBy_iff] at hl hv
        rw [hl.1, Option.some.injEq] at hv
        exact htoken (by rw [ht, hv.1])
      cases tx with
      | tryClaim u takeover =>
          simp only [update, RunRow.tryClaim] at h
          split_ifs at h
          cases h
          have hu : u = me := by simpa using (RunRow.leasedBy_iff.mp hl').1
          exact absurd (by rw [token, hu]) htoken
      | _ => cases hclaim
  | none =>
      cases tx with
      | cancelRun takeover =>
          cases h
          rw [RunRow.cancelRun_eq] at hl' ⊢
          cases ha : r.cancelAction takeover now with
          | cancelNow => rw [ha] at hl'; simp [RunRow.leasedBy] at hl'
          | request => exact .inr ⟨takeover, rfl, rfl⟩
          | noop => exact .inl rfl
          | terminal => exact .inl rfl
      | answerWaiting state rows => cases hnew
      | _ => cases ht

/-- A lease in place after a step was there before, on the same run, or the step
applied a transaction of its holder. -/
theorem Took.leased (hb : s.Basic) (h : Took cfg s a s' es) {id : Uuid} {me : LeaseToken}
    {r' : RunRow Json} (hr' : s'.db.runs id = some r') (hl' : r'.leasedBy me = true) :
    (∃ r, s.db.runs id = some r ∧ r.leasedBy me = true ∧ r'.kind = r.kind ∧
        r'.runState = r.runState) ∨
      ∃ tx r, s.applies cfg a = some (id, tx) ∧ tx.token = some me ∧ s.db.runs id = some r ∧
        tx.update a.now r = some r' := by
  have hrow := h.rowStep id
  generalize ho : s.db.runs id = o at hrow
  rw [hr'] at hrow
  cases hrow with
  | same => exact .inl ⟨r', rfl, hl', rfl, rfl⟩
  | started => cases (RunRow.leasedBy_iff.mp hl').1
  | @updated tx r _ happ hu =>
      by_cases ht : tx.token = some me
      · exact .inr ⟨tx, r, happ, ht, rfl, hu⟩
      · have hl : r.leasedBy me = true := by
          rcases Tx.update_lockedBy hu (RunRow.leasedBy_iff.mp hl').1 with h₀ | ⟨-, ht'⟩
          · exact RunRow.leasedBy_iff.mpr ⟨h₀, (hb.rows id r ho).leased (by simp [h₀])⟩
          · exact absurd ht' ht
        obtain ⟨-, rfl | ⟨takeover, -, rfl⟩⟩ := Tx.update_held hl ht hu hl'
        · exact .inl ⟨_, rfl, hl, rfl, rfl⟩
        · exact .inl ⟨r, rfl, hl, rfl, rfl⟩

/-- A cancel comes from its caller and from nobody else. -/
theorem applies_cancelRun {run : Uuid} {takeover : ℕ} (hb : s.Basic)
    (h : s.applies cfg a = some (run, .cancelRun takeover)) : ∃ now, a = .cancel run now := by
  have hattempt : ∀ {me : LeaseToken}, ((s.attempts me).bind fun j =>
      (j.pc.tx cfg me).map fun tx => (j.run, tx)) = some (run, .cancelRun takeover) → False := by
    intro me h
    simp only [Option.bind_eq_some_iff, Option.map_eq_some_iff, Prod.mk.injEq] at h
    obtain ⟨j, -, tx, htx, -, rfl⟩ := h
    cases Advance.token_of_tx htx
  cases a with
  | commit me now => exact (hattempt h).elim
  | fails me fate now =>
      cases fate with
      | applied => exact (hattempt h).elim
      | _ => cases h
  | vanish me fate now =>
      cases fate with
      | applied => exact (hattempt h).elim
      | _ => cases h
  | applyLate i now =>
      simp only [Engine.applies, Option.map_eq_some_iff, Prod.mk.injEq] at h
      obtain ⟨l, hl, -, htx⟩ := h
      have hlinger := (hb.late l (List.mem_of_getElem? hl)).1
      rw [htx] at hlinger
      cases hlinger
  | answer id text =>
      simp only [Engine.applies] at h
      split at h <;> cases h
  | cancel id now =>
      cases h
      exact ⟨now, rfl⟩
  | _ => cases h

/-- `P` holds of every attempt that holds the lease of its run, with the row and the rows
of messages it holds it on. -/
def Engine.HeldBy (s : Engine R)
    (P : LeaseToken → RunRow Json → List (MessageRow Json) → Advance R → Prop) : Prop :=
  ∀ me j r, s.attempts me = some j → s.db.runs j.run = some r → r.leasedBy me = true →
    P me r (s.db.messages j.run) j.pc

/-- What an action has to leave of the lease holders that had `P`, for `Q` to hold of them:
an attempt that is over has it, whoever does not act keeps it, also where a cancel is
requested, and the attempt itself keeps it. -/
structure Engine.Transfers (cfg : Config) (s : Engine R) (a : Action R)
    (P Q : LeaseToken → RunRow Json → List (MessageRow Json) → Advance R → Prop) : Prop where
  ended : ∀ me r rows pc, pc.over = true → Q me r rows pc
  keep : ∀ me r rows pc, a.actor ≠ some me → P me r rows pc → Q me r rows pc
  flag : ∀ me run now r rows pc, a = .cancel run now → s.db.runs run = some r →
    r.leasedBy me = true → ((r.cancelRun cfg.leaseTakeover now).leasedBy me = true) →
    P me r rows pc → Q me { r with cancelRequested := true } rows pc
  here : ∀ me run pc pc' r, Local s me run pc a pc' → s.attempts me = some ⟨run, pc⟩ →
    s.db.runs run = some r → r.leasedBy me = true → P me r (s.db.messages run) pc →
    Q me r (s.db.messages run) pc'
  own : ∀ me run pc pc' tx r r', s.attempts me = some ⟨run, pc⟩ →
    s.applies cfg a = some (run, tx) → pc.tx cfg me = some tx → s.db.runs run = some r →
    tx.update a.now r = some r' → Answers cfg pc (some r') pc' →
    (r.leasedBy me = true → P me r (s.db.messages run) pc) →
    Q me r' (insertMessages (s.db.messages run) tx.newMessages) pc'

theorem Ended.acts {me : LeaseToken} {j : JobAttempt R} {j' : Option (JobAttempt R)} {fate : Fate}
    {now : ℕ} (he : Ended cfg me j fate now a j') : a.actor = some me ∧ a.now = now := by
  cases he <;> exact ⟨rfl, rfl⟩

namespace Engine.Transfers

variable {P Q : LeaseToken → RunRow Json → List (MessageRow Json) → Advance R → Prop}

/-- Whoever keeps the lease over a foreign transaction keeps what held of it. -/
theorem others (T : Transfers cfg s a P Q) (hb : s.Basic) (hP : s.HeldBy P) {t : Engine R}
    {run : Uuid} {tx : Tx Json} {ret : Option (RunRow Json)}
    (happ : s.applies cfg a = some (run, tx))
    (hdb : s.db.exec run tx a.now = some (t.db, ret))
    (hattempts : ∀ v, tx.token ≠ some v → a.actor ≠ some v ∧ t.attempts v = s.attempts v)
    (hself : ∀ v j r, tx.token = some v → t.attempts v = some j → t.db.runs j.run = some r →
      r.leasedBy v = true → Q v r (t.db.messages j.run) j.pc) : t.HeldBy Q := by
  intro v j r hj hk hl
  by_cases hv : tx.token = some v
  · exact hself v j r hv hj hk hl
  obtain ⟨hactor, heq⟩ := hattempts v hv
  rw [heq] at hj
  obtain ⟨hother, hrun⟩ := Db.exec_at hdb
  by_cases hkr : j.run = run
  swap
  · rw [(hother j.run hkr).1] at hk
    rw [(hother j.run hkr).2]
    exact T.keep _ _ _ _ hactor (hP v j r hj hk hl)
  rw [hkr] at hk ⊢
  rcases hrun with ⟨-, heq, -⟩ | ⟨r₀, r', -, hr₀, hu, hr', hm⟩
  · rw [heq] at hk ⊢
    have hfit := hP v j r hj (hkr ▸ hk) hl
    rw [hkr] at hfit
    exact T.keep _ _ _ _ hactor hfit
  · rw [hr'] at hk
    cases hk
    have hl₀ : r₀.leasedBy v = true := by
      rcases Tx.update_lockedBy hu (RunRow.leasedBy_iff.mp hl).1 with h₀ | ⟨-, ht⟩
      · exact RunRow.leasedBy_iff.mpr ⟨h₀, (hb.rows run r₀ hr₀).leased (by simp [h₀])⟩
      · exact absurd ht hv
    have hfit := hP v j r₀ hj (hkr ▸ hr₀) hl₀
    rw [hkr] at hfit
    obtain ⟨hnew, hsame⟩ := Tx.update_held hl₀ hv hu hl
    rw [hm, hnew]
    rcases hsame with rfl | ⟨takeover, rfl, rfl⟩
    · exact T.keep _ _ _ _ hactor hfit
    · obtain ⟨now, rfl⟩ := applies_cancelRun hb happ
      cases happ
      have hcancel : r₀.cancelRun cfg.leaseTakeover now = _ := Option.some.inj hu
      exact T.flag v run now r₀ _ _ rfl hr₀ hl₀ (hcancel ▸ hl) hfit

/-- Only the attempt that acts is replaced. -/
theorem set (T : Transfers cfg s a P Q) (hP : s.HeldBy P) {me : LeaseToken}
    {j' : Option (JobAttempt R)} (hme : a.actor = some me)
    (hfits : ∀ j r, j' = some j → s.db.runs j.run = some r → r.leasedBy me = true →
      Q me r (s.db.messages j.run) j.pc) : (s.setAttempt me j').HeldBy Q := by
  intro v j r hj
  by_cases hv : v = me
  · subst hv
    rw [Engine.setAttempt_self] at hj
    exact hfits j r hj
  · rw [Engine.setAttempt_other _ _ hv] at hj
    intro hk hl
    have hactor : a.actor ≠ some v := by
      rw [hme]
      exact fun he => hv (Option.some.inj he).symm
    exact T.keep _ _ _ _ hactor (hP v j r hj hk hl)

/-- An attempt commits its transaction, or finds that it matches nothing. -/
theorem commit {me : LeaseToken} {now : ℕ} (T : Transfers cfg s (.commit me now) P Q)
    (hb : s.Basic) (hP : s.HeldBy P) {run : Uuid} {pc pc' : Advance R} {tx : Tx Json} {db : Db Json}
    {ret : Option (RunRow Json)} (hj : s.attempts me = some ⟨run, pc⟩)
    (htx : pc.tx cfg me = some tx) (hdb : s.db.exec run tx now = some (db, ret))
    (hans : Answers cfg pc ret pc') : ((s.setDb db).setAt me run pc').HeldBy Q := by
  have htoken := Advance.token_of_tx htx
  have happ : s.applies cfg (.commit me now) = some (run, tx) := by
    simp [Engine.applies, hj, htx]
  refine T.others hb hP (t := (s.setDb db).setAt me run pc') happ hdb ?_ ?_
  · intro v hv
    have hne : v ≠ me := fun he => hv (he ▸ htoken)
    exact ⟨fun he => hne (Option.some.inj he).symm, Engine.setAttempt_other _ _ hne⟩
  · intro v j r hv hj' hrow hl
    obtain rfl : me = v := Option.some.inj (htoken.symm.trans hv)
    rw [Engine.setAt, Engine.setAttempt_self] at hj'
    cases hj'
    change db.runs run = some r at hrow
    change Q me r (db.messages run) pc'
    rcases (Db.exec_at hdb).2 with ⟨hret, rfl, hnone⟩ | ⟨r₀, r', hret, hr₀, hu, hr', hm⟩
    · -- a transaction that matched nothing leaves no lease of the attempt
      cases hc : tx.isClaim with
      | true =>
          obtain rfl := Advance.claiming_of_isClaim htx hc
          exact absurd (RunRow.leasedBy_iff.mp hl).1 (hb.unclaimed me _ hj rfl run r hrow)
      | false =>
          rw [hrow, Option.bind_some] at hnone
          exact absurd hnone (Tx.update_leased htoken hc hl now)
    · rw [hr'] at hrow
      cases hrow
      subst hret
      rw [hm]
      exact T.own me run pc pc' tx r₀ _ hj happ htx hr₀ hu hans (hP me _ r₀ hj hr₀)

/-- An attempt ends, and the transaction it had sent is applied. -/
theorem applied (T : Transfers cfg s a P Q) (hb : s.Basic) (hP : s.HeldBy P) {me : LeaseToken}
    {j : JobAttempt R} {j' : Option (JobAttempt R)} {tx : Tx Json} {now : ℕ} {db : Db Json}
    {ret : Option (RunRow Json)} (hj : s.attempts me = some j)
    (he : Ended cfg me j .applied now a j') (htx : j.pc.tx cfg me = some tx)
    (hdb : s.db.exec j.run tx now = some (db, ret)) : ((s.setDb db).setAttempt me j').HeldBy Q := by
  have htoken := Advance.token_of_tx htx
  have happ : s.applies cfg a = some (j.run, tx) := by
    cases he <;> simp [Engine.applies, hj, htx]
  rw [← he.acts.2] at hdb
  refine T.others hb hP (t := (s.setDb db).setAttempt me j') happ hdb ?_ ?_
  · intro v hv
    have hne : v ≠ me := fun he => hv (he ▸ htoken)
    rw [he.acts.1]
    exact ⟨fun he => hne (Option.some.inj he).symm, Engine.setAttempt_other _ _ hne⟩
  · intro v k r hv hk _ _
    obtain rfl : me = v := Option.some.inj (htoken.symm.trans hv)
    rw [Engine.setAttempt_self] at hk
    exact T.ended _ _ _ _ ((hb.ended hj he).2 k hk)

end Engine.Transfers

/-- The rule for what holds of every lease holder, with what held of it before the step. -/
theorem Engine.Holders.transfer
    {P Q : LeaseToken → RunRow Json → List (MessageRow Json) → Advance R → Prop} (hb : s.Basic)
    (hP : s.HeldBy P) (h : Took cfg s a s' es) (T : Transfers cfg s a P Q) : s'.HeldBy Q := by
  cases h with
  | @begin me run hme =>
      refine T.set hP rfl ?_
      rintro j r ⟨⟩ hk hl
      exact absurd (hb.leases run r me hk (RunRow.leasedBy_iff.mp hl).1) hme
  | @here a me run pc pc' hj hl =>
      refine T.set hP (by cases hl <;> rfl) ?_
      rintro j r ⟨⟩ hrow hleased
      exact T.here me run pc pc' r hl hj hrow hleased (hP me _ r hj hrow hleased)
  | commit hj htx hdb hans => exact T.commit hb hP hj htx hdb hans
  | lost hj he =>
      refine T.set hP he.acts.1 ?_
      intro j r hj' _ _
      exact T.ended _ _ _ _ ((hb.ended hj he).2 j hj')
  | applied hj he htx hdb => exact T.applied hb hP hj he htx hdb
  | left hj he htx hl =>
      refine T.set hP he.acts.1 ?_
      intro k r hk _ _
      exact T.ended _ _ _ _ ((hb.ended hj he).2 k hk)
  | @late i now l db ret hl hdb =>
      have hmem : l ∈ s.late := List.mem_of_getElem? hl
      refine T.others hb hP (t := { s.setDb db with late := s.late.eraseIdx i })
        (by simp [Engine.applies, hl]) hdb ?_ ?_
      · exact fun v _ => ⟨(Option.some_ne_none v).symm, rfl⟩
      · intro v j r hv hj _ _
        exact T.ended _ _ _ _ (((hb.late l hmem).2 v hv).2 j hj)
  | @start run kind prompt now k db hk hdb =>
      unfold Db.insertRun at hdb
      split_ifs at hdb with hnone
      cases hdb
      intro me j r hj hrow hl
      rw [Engine.setDb_db, Db.setRun_runs] at hrow
      split_ifs at hrow
      · cases hrow
        cases (RunRow.leasedBy_iff.mp hl).1
      · exact T.keep _ _ _ _ (Option.some_ne_none me).symm (hP me j r hj hrow hl)
  | refused =>
      intro me j r hj hr hl
      exact T.keep _ _ _ _ (Option.some_ne_none me).symm (hP me j r hj hr hl)
  | answer hans hdb =>
      exact T.others hb hP (by simp [Engine.applies, hans]) hdb
        (fun v _ => ⟨(Option.some_ne_none v).symm, rfl⟩) (by simp [Tx.token])
  | cancel hdb =>
      exact T.others hb hP rfl hdb (fun v _ => ⟨(Option.some_ne_none v).symm, rfl⟩)
        (by simp [Tx.token])

/-- The rule for what reads nothing of the row that a cancel request changes. -/
theorem Engine.Holders.step {P : RunRow Json → List (MessageRow Json) → Advance R → Prop}
    (hb : s.Basic) (hP : s.Holders P) (h : Took cfg s a s' es)
    (hover : ∀ r rows pc, pc.over = true → P r rows pc)
    (hflag : ∀ r rows pc, P r rows pc → P { r with cancelRequested := true } rows pc)
    (hlocal : ∀ me run pc pc' r, Local s me run pc a pc' → s.attempts me = some ⟨run, pc⟩ →
      s.db.runs run = some r → r.leasedBy me = true → P r (s.db.messages run) pc →
      P r (s.db.messages run) pc')
    (hown : ∀ me run pc pc' tx r r', s.attempts me = some ⟨run, pc⟩ →
      s.applies cfg a = some (run, tx) → pc.tx cfg me = some tx → s.db.runs run = some r →
      tx.update a.now r = some r' → Answers cfg pc (some r') pc' →
      (r.leasedBy me = true → P r (s.db.messages run) pc) →
      P r' (insertMessages (s.db.messages run) tx.newMessages) pc') : s'.Holders P :=
  transfer (P := fun _ => P) (Q := fun _ => P) hb hP h {
    ended := fun _ => hover
    keep := fun _ _ _ _ _ hfit => hfit
    flag := fun _ _ _ r rows pc _ _ _ _ => hflag r rows pc
    here := hlocal
    own := hown }

/-! ## Claims applied late -/

/-- An attempt whose claim is applied late only releases and returns. -/
structure Engine.LateClaims (s : Engine R) (me : LeaseToken) : Prop where
  attempt : ∀ j, s.attempts me = some j → j.pc.done = true
  fails : ∀ l ∈ s.late, ∀ code, l.tx ≠ .failUnstorable me code

/-- Whoever claims late is done, and left no other write behind. -/
def Engine.ClaimsLate (s : Engine R) : Prop :=
  ∀ l ∈ s.late, ∀ me takeover, l.tx = .tryClaim me takeover → s.LateClaims me

theorem Engine.ClaimsLate.step (hb : s.Basic) (hi : s.ClaimsLate) (htook : Took cfg s a s' es) :
    s'.ClaimsLate := by
  intro l hl me takeover htx
  rcases htook.late_mem hl with hold | ⟨v, j, hj, -, hjtx, herrored⟩
  · -- the claim was behind already: its attempt is done and sends no failure
    have hlate := hi l hold me takeover htx
    refine ⟨htook.done (((hb.late l hold).2 me (by rw [htx]; rfl)).1) hlate.attempt, ?_⟩
    intro q hq code hqtx
    rcases htook.late_mem hq with hqold | ⟨u, i, hiu, -, hitx, -⟩
    · exact hlate.fails q hqold code hqtx
    · rw [hqtx] at hitx
      obtain rfl : u = me := by simpa [Tx.token] using (Advance.token_of_tx hitx).symm
      have hover := Advance.over_of_done (hlate.attempt i hiu)
      cases Advance.tx_of_over hover hitx
  · rw [htx] at hjtx
    obtain rfl : v = me := by simpa [Tx.token] using (Advance.token_of_tx hjtx).symm
    have hclaiming := Advance.claiming_of_isClaim hjtx rfl
    constructor
    case attempt =>
      intro k hk
      rw [herrored k hk, hclaiming]
      rfl
    case fails =>
      intro q hq code hqtx
      rcases htook.late_mem hq with hqold | ⟨u, i, hiu, -, hitx, -⟩
      · have hover := ((hb.late q hqold).2 v (by rw [hqtx]; rfl)).2 j hj
        rw [hclaiming] at hover
        cases hover
      · rw [hqtx] at hitx
        obtain rfl : u = v := by simpa [Tx.token] using (Advance.token_of_tx hitx).symm
        rw [hj] at hiu
        cases hiu
        rw [hjtx] at hitx
        cases hitx

end Cja.Durable
