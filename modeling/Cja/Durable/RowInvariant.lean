import Cja.Durable.Db

/-!
# The invariant of every `agent_runs` row

Any caller may run any transaction on any run at any time. Each of them keeps
what `RunRow.Inv` says of a row and leaves a terminal row as it is, so the
constraint of the table never rejects one.
-/
namespace Cja.Durable

open Jobs (Uuid)

variable {J : Type}

/-- The columns of a row agree with its status. -/
structure RunRow.Inv (r : RunRow J) : Prop where
  leased : r.lockedBy.isSome = true → r.status = .running
  locked : r.lockedBy.isNone = r.lockedAt.isNone
  waiting : r.status = .waiting ↔ r.pendingCallId.isSome = true ∧ r.pendingQuestion.isSome = true
  unasked : r.status ≠ .waiting → r.pendingCallId = none ∧ r.pendingQuestion = none
  finished : r.finishedAt.isSome = r.status.terminal
  failed : r.failReason.isSome = true ↔ r.status = .failed
  succeeded : r.output.isSome = true ↔ r.status = .succeeded

namespace RunRow

theorem leasedBy_iff {me : LeaseToken} {r : RunRow J} :
    r.leasedBy me = true ↔ r.lockedBy = some me ∧ r.status = .running := by
  simp [leasedBy]

theorem Inv.unfinished {r : RunRow J} (h : r.Inv) (ht : r.status.terminal = false) :
    r.finishedAt = none ∧ r.failReason = none ∧ r.output = none := by
  have hfin := h.finished
  have hfail : ¬r.failReason.isSome = true := by
    intro hf
    rw [h.failed.mp hf] at ht
    cases ht
  have hout : ¬r.output.isSome = true := by
    intro ho
    rw [h.succeeded.mp ho] at ht
    cases ht
  rw [ht] at hfin
  simp only [Bool.not_eq_true, Option.isSome_eq_false_iff, Option.isNone_iff_eq_none] at hfin hfail hout
  exact ⟨hfin, hfail, hout⟩

/-- What a queued or running row says besides its lease. -/
theorem Inv.active {r : RunRow J} (h : r.Inv) (hs : r.status = .queued ∨ r.status = .running) :
    r.pendingCallId = none ∧ r.pendingQuestion = none ∧ r.finishedAt = none ∧
      r.failReason = none ∧ r.output = none := by
  have hw : r.status ≠ .waiting := by
    rcases hs with hs | hs <;> simp [hs]
  have ht : r.status.terminal = false := by
    rcases hs with hs | hs <;> simp [hs, RunStatus.terminal]
  obtain ⟨hcall, hquestion⟩ := h.unasked hw
  exact ⟨hcall, hquestion, h.unfinished ht⟩

theorem Inv.of_active {r : RunRow J} (hs : r.status = .queued ∨ r.status = .running)
    (hleased : r.lockedBy.isSome = true → r.status = .running)
    (hlocked : r.lockedBy.isNone = r.lockedAt.isNone)
    (h : r.pendingCallId = none ∧ r.pendingQuestion = none ∧ r.finishedAt = none ∧
      r.failReason = none ∧ r.output = none) : r.Inv := by
  obtain ⟨hcall, hquestion, hfin, hfail, hout⟩ := h
  rcases hs with hs | hs
  · constructor <;> simp_all [RunStatus.terminal]
  · constructor <;> simp_all [RunStatus.terminal]

/-! ## Each statement -/

variable {r r' : RunRow J} {me : LeaseToken} {now takeover : ℕ}

theorem failUnstorable_inv {code : String} (h : r.Inv)
    (hu : r.failUnstorable me code now = some r') : r'.Inv := by
  unfold failUnstorable at hu
  split_ifs at hu with hl
  cases hu
  obtain ⟨hcall, hquestion, -, -, hout⟩ := h.active (.inr (leasedBy_iff.mp hl).2)
  constructor <;> simp [hcall, hquestion, hout, RunStatus.terminal]

theorem tryClaim_inv (h : r.Inv) (hu : r.tryClaim me takeover now = some r') : r'.Inv := by
  unfold tryClaim at hu
  split_ifs at hu with hc
  cases hu
  simp only [claimable, Bool.or_eq_true, Bool.and_eq_true, beq_iff_eq] at hc
  rcases hc with hq | ⟨hr, -⟩
  · exact .of_active (.inr rfl) (fun _ => rfl) rfl (h.active (.inl hq))
  · exact .of_active (.inr rfl) (fun _ => rfl) rfl (h.active (.inr hr))

theorem releaseLease_inv (h : r.Inv) (hu : r.releaseLease me = some r') : r'.Inv := by
  unfold releaseLease at hu
  split_ifs at hu with hl
  cases hu
  have hs := (leasedBy_iff.mp hl).2
  exact .of_active (.inr hs) (fun _ => hs) rfl (h.active (.inr hs))

theorem heartbeat_inv (h : r.Inv) (hu : r.heartbeat me now = some r') : r'.Inv := by
  unfold heartbeat at hu
  split_ifs at hu with hl
  cases hu
  obtain ⟨hlock, hs⟩ := leasedBy_iff.mp hl
  exact .of_active (.inr hs) (fun _ => hs) (by simp [hlock]) (h.active (.inr hs))

theorem persistStep_inv {snap : RunSnapshot J} (h : r.Inv)
    (hu : r.persistStep me snap now = some r') : r'.Inv := by
  unfold persistStep at hu
  split_ifs at hu with hl
  cases hu
  obtain ⟨hlock, hs⟩ := leasedBy_iff.mp hl
  exact .of_active (.inr hs) (fun _ => hs) (by simp [hlock]) (h.active (.inr hs))

theorem setWaiting_inv {state : J} {callId question : String} (h : r.Inv)
    (hu : r.setWaiting me state callId question now = some r') : r'.Inv := by
  unfold setWaiting at hu
  split_ifs at hu with hl hcancel
  · cases hu
    obtain ⟨-, -, -, hfail, hout⟩ := h.active (.inr (leasedBy_iff.mp hl).2)
    constructor <;> simp [hfail, hout, RunStatus.terminal]
  · cases hu
    obtain ⟨-, -, hfin, hfail, hout⟩ := h.active (.inr (leasedBy_iff.mp hl).2)
    constructor <;> simp [hfin, hfail, hout, RunStatus.terminal]

theorem finish_inv {ending : Ending} {snap : RunSnapshot J} (h : r.Inv)
    (hu : r.finish me ending snap now = some r') : r'.Inv := by
  unfold finish at hu
  split_ifs at hu with hl
  cases hu
  obtain ⟨hcall, hquestion, -⟩ := h.active (.inr (leasedBy_iff.mp hl).2)
  cases ending with
  | succeeded output =>
      constructor <;> simp [hcall, hquestion, Ending.status, Ending.failReason, Ending.output,
        RunStatus.terminal]
  | failed reason message =>
      constructor <;> simp [hcall, hquestion, Ending.status, Ending.failReason, Ending.output,
        RunStatus.terminal]
  | cancelled =>
      constructor <;> simp [hcall, hquestion, Ending.status, Ending.failReason, Ending.output,
        RunStatus.terminal]

theorem answerWaiting_inv {state : J} (h : r.Inv) (hu : r.answerWaiting state = some r') :
    r'.Inv := by
  unfold answerWaiting at hu
  split_ifs at hu with hw
  cases hu
  exact .of_active (.inr rfl) (fun _ => rfl) rfl ⟨rfl, rfl, h.unfinished (by simp [hw, RunStatus.terminal])⟩

/-- What `cancel_run` leaves, by the action it decided on. -/
theorem cancelRun_eq (r : RunRow J) (takeover now : ℕ) :
    r.cancelRun takeover now = match r.cancelAction takeover now with
      | .cancelNow => { r with
          status := .cancelled
          pendingCallId := none
          pendingQuestion := none
          lockedBy := none
          lockedAt := none
          finishedAt := some now }
      | .request => { r with cancelRequested := true }
      | .noop | .terminal => r := by
  unfold cancelRun
  cases r.cancelAction takeover now <;> rfl

theorem cancelAction_spec (r : RunRow J) (takeover now : ℕ) :
    match r.cancelAction takeover now with
    | .cancelNow => r.status = .queued ∨ r.status = .waiting ∨ r.status = .running
    | .request => r.status = .running
    | .noop => r.status = .cancelled
    | .terminal => r.status = .succeeded ∨ r.status = .failed := by
  unfold cancelAction
  cases hs : r.status with
  | running => simp only; split_ifs <;> simp
  | _ => simp

theorem cancelRun_inv (h : r.Inv) : (r.cancelRun takeover now).Inv := by
  have hspec := r.cancelAction_spec takeover now
  rw [cancelRun_eq]
  cases ha : r.cancelAction takeover now with
  | cancelNow =>
      rw [ha] at hspec
      have hquiet : r.failReason = none ∧ r.output = none := by
        rcases hspec with hs | hs | hs
        · exact (h.active (.inl hs)).2.2.2
        · exact (h.unfinished (by simp [hs, RunStatus.terminal])).2
        · exact (h.active (.inr hs)).2.2.2
      constructor <;> simp [hquiet.1, hquiet.2, RunStatus.terminal]
  | request =>
      rw [ha] at hspec
      exact .of_active (.inr hspec) h.leased h.locked (h.active (.inr hspec))
  | noop => exact h
  | terminal => exact h

theorem cancelRun_terminal (ht : r.status.terminal = true) : r.cancelRun takeover now = r := by
  have hspec := r.cancelAction_spec takeover now
  rw [cancelRun_eq]
  cases ha : r.cancelAction takeover now with
  | cancelNow =>
      rw [ha] at hspec
      rcases hspec with hs | hs | hs <;> simp [hs, RunStatus.terminal] at ht
  | request =>
      rw [ha] at hspec
      simp [show r.status = .running from hspec, RunStatus.terminal] at ht
  | noop => rfl
  | terminal => rfl

end RunRow

/-! ## Every transaction -/

namespace Tx

variable {tx : Tx J} {now : ℕ} {r r' : RunRow J}

theorem update_inv (h : r.Inv) (hu : tx.update now r = some r') : r'.Inv := by
  cases tx with
  | failUnstorable me code => exact r.failUnstorable_inv h hu
  | tryClaim me takeover => exact r.tryClaim_inv h hu
  | releaseLease me => exact r.releaseLease_inv h hu
  | heartbeat me => exact r.heartbeat_inv h hu
  | persistStep me snap rows => exact r.persistStep_inv h hu
  | setWaiting me state callId question rows => exact r.setWaiting_inv h hu
  | finish me ending snap rows => exact r.finish_inv h hu
  | answerWaiting state rows => exact r.answerWaiting_inv h hu
  | cancelRun takeover =>
      cases hu
      exact r.cancelRun_inv h

/-- No guard matches a terminal row, and `cancel_run` rewrites its own values. -/
theorem update_terminal (ht : r.status.terminal = true) (hu : tx.update now r = some r') :
    r' = r := by
  have hrunning : ∀ me, r.leasedBy me = false := by
    intro me
    cases hl : r.leasedBy me with
    | false => rfl
    | true =>
        rw [RunRow.leasedBy_iff] at hl
        simp [hl.2, RunStatus.terminal] at ht
  cases tx with
  | tryClaim me takeover =>
      have hc : r.claimable now takeover = false := by
        cases hs : r.status <;> simp_all [RunRow.claimable, RunStatus.terminal]
      simp [update, RunRow.tryClaim, hc] at hu
  | answerWaiting state rows =>
      have hw : r.status ≠ .waiting := by
        intro hs
        simp [hs, RunStatus.terminal] at ht
      simp [update, RunRow.answerWaiting, hw] at hu
  | cancelRun takeover =>
      cases hu
      exact r.cancelRun_terminal ht
  | failUnstorable me code => simp [update, RunRow.failUnstorable, hrunning] at hu
  | releaseLease me => simp [update, RunRow.releaseLease, hrunning] at hu
  | heartbeat me => simp [update, RunRow.heartbeat, hrunning] at hu
  | persistStep me snap rows => simp [update, RunRow.persistStep, hrunning] at hu
  | setWaiting me state callId question rows =>
      simp [update, RunRow.setWaiting, hrunning] at hu
  | finish me ending snap rows => simp [update, RunRow.finish, hrunning] at hu

end Tx

/-- A row that keeps the invariant passes the constraint. -/
theorem RunRow.Inv.checked {r : RunRow J} (h : r.Inv) : r.waitingHasPendingAsk = true := by
  unfold waitingHasPendingAsk
  rw [beq_iff_eq, Bool.eq_iff_iff, beq_iff_eq, Bool.and_eq_true]
  exact h.waiting

theorem NewRun.row_inv (n : NewRun J) : n.row.Inv := by
  constructor <;> simp [NewRun.row, RunStatus.terminal]

/-! ## Every run of transactions -/

inductive DbAction (J : Type)
  | start (id : Uuid) (new : NewRun J)
  | exec (id : Uuid) (tx : Tx J) (now : ℕ)

/-- A transaction that the constraint rejected. -/
inductive DbEvent
  | rejected (id : Uuid)
deriving Repr, DecidableEq

def Db.step (db : Db J) : DbAction J → Option (Db J × List DbEvent)
  | .start id n => (db.insertRun id n).map fun db' => (db', [])
  | .exec id tx now =>
      match db.exec id tx now with
      | some (db', _) => some (db', [])
      | none => some (db, [.rejected id])

abbrev DbRun (db₀ : Db J) : List DbEvent → Db J → Prop :=
  StepRun.Run Db.step StepRun.Free db₀

def Db.Inv (db : Db J) : Prop := ∀ id r, db.runs id = some r → r.Inv

theorem Db.setRun_runs (db : Db J) (id k : Uuid) (r : RunRow J) :
    (db.setRun id r).runs k = if k = id then some r else db.runs k := by
  simp [Db.setRun, Function.update_apply]

/-- What a committed transaction did to the rows. -/
theorem Db.exec_some {db db' : Db J} {id : Uuid} {tx : Tx J} {now : ℕ}
    {ret : Option (RunRow J)} (h : db.exec id tx now = some (db', ret)) :
    (ret = none ∧ db' = db ∧ (db.runs id).bind (tx.update now) = none) ∨
      ∃ r r', ret = some r' ∧ db.runs id = some r ∧ tx.update now r = some r' ∧
        db' = (db.setRun id r').addMessages id tx.newMessages := by
  unfold Db.exec at h
  split at h
  · case _ hu =>
      cases h
      exact .inl ⟨rfl, rfl, hu⟩
  · case _ r' hu =>
      split_ifs at h
      cases h
      rw [Option.bind_eq_some_iff] at hu
      obtain ⟨r, hr, hu⟩ := hu
      exact .inr ⟨r, r', rfl, hr, hu, rfl⟩

namespace Db

variable {db db' : Db J}

theorem Inv.exec {id : Uuid} {tx : Tx J} {now : ℕ} {ret : Option (RunRow J)} (hi : db.Inv)
    (h : db.exec id tx now = some (db', ret)) : db'.Inv := by
  rcases exec_some h with ⟨-, rfl, -⟩ | ⟨r, r', -, hr, hu, rfl⟩
  · exact hi
  · intro k q hq
    have hq' : (db.setRun id r').runs k = some q := hq
    rw [setRun_runs] at hq'
    split_ifs at hq' with hk
    · cases hq'
      exact Tx.update_inv (hi id r hr) hu
    · exact hi k q hq'

/-- The constraint rejects nothing. -/
theorem Inv.accepts (hi : db.Inv) (id : Uuid) (tx : Tx J) (now : ℕ) :
    (db.exec id tx now).isSome = true := by
  unfold Db.exec
  split
  · rfl
  · case _ r' hu =>
      rw [Option.bind_eq_some_iff] at hu
      obtain ⟨r, hr, hu⟩ := hu
      have hcheck := (Tx.update_inv (hi id r hr) hu).checked
      simp [hcheck]

theorem Inv.start {id : Uuid} {n : NewRun J} (hi : db.Inv)
    (h : db.insertRun id n = some db') : db'.Inv := by
  unfold insertRun at h
  split_ifs at h
  cases h
  intro k q hq
  rw [setRun_runs] at hq
  split_ifs at hq with hk
  · cases hq
    exact n.row_inv
  · exact hi k q hq

theorem exec_terminal {id k : Uuid} {tx : Tx J} {now : ℕ} {ret : Option (RunRow J)}
    {r : RunRow J} (hr : db.runs k = some r) (ht : r.status.terminal = true)
    (h : db.exec id tx now = some (db', ret)) : db'.runs k = some r := by
  rcases exec_some h with ⟨-, rfl, -⟩ | ⟨q, q', -, hq, hu, rfl⟩
  · exact hr
  · change (db.setRun id q').runs k = some r
    rw [setRun_runs]
    split_ifs with hk
    · subst hk
      rw [hr] at hq
      cases hq
      rw [Tx.update_terminal ht hu]
    · exact hr

theorem step_spec {a : DbAction J} {es : List DbEvent} (hi : db.Inv)
    (h : db.step a = some (db', es)) : db'.Inv ∧ es = [] := by
  cases a with
  | start id n =>
      simp only [step, Option.map_eq_some_iff, Prod.mk.injEq] at h
      obtain ⟨db₁, hdb, rfl, rfl⟩ := h
      exact ⟨hi.start hdb, rfl⟩
  | exec id tx now =>
      simp only [step] at h
      split at h
      · case _ hx =>
          cases h
          exact ⟨hi.exec hx, rfl⟩
      · case _ hx =>
          have := hi.accepts id tx now
          rw [hx] at this
          cases this

theorem step_terminal {a : DbAction J} {es : List DbEvent} {k : Uuid} {r : RunRow J}
    (hr : db.runs k = some r) (ht : r.status.terminal = true)
    (h : db.step a = some (db', es)) : db'.runs k = some r := by
  cases a with
  | start id n =>
      simp only [step, Option.map_eq_some_iff, Prod.mk.injEq] at h
      obtain ⟨db₁, hdb, rfl, -⟩ := h
      unfold insertRun at hdb
      split_ifs at hdb with hnone
      cases hdb
      rw [setRun_runs]
      split_ifs with hk
      · subst hk
        simp [hr] at hnone
      · exact hr
  | exec id tx now =>
      simp only [step] at h
      split at h
      · case _ hx =>
          cases h
          exact exec_terminal hr ht hx
      · cases h
        exact hr

theorem inv_of_run {log : List DbEvent} {db : Db J} (h : DbRun .empty log db) :
    db.Inv ∧ log = [] := by
  refine h.invariant (I := fun log db => db.Inv ∧ log = []) ?_ ?_
  · refine ⟨?_, rfl⟩
    intro id r hr
    cases hr
  · intro log db a db' es _ hi _ hs
    obtain ⟨hi', rfl⟩ := step_spec hi.1 hs
    exact ⟨hi', by simp [hi.2]⟩

end Db

/-- Every row keeps the invariant, a terminal row never changes again, and the
constraint rejects no transaction, in any run of any callers. -/
theorem agent_run_rows {log log' : List DbEvent} {db db' : Db J} (h : DbRun .empty log db)
    (h' : DbRun db log' db') :
    (∀ id r, db'.runs id = some r → r.Inv) ∧ (∀ id, .rejected id ∉ log ++ log') ∧
      ∀ id r, db.runs id = some r → r.status.terminal = true → db'.runs id = some r := by
  obtain ⟨hi, hlog⟩ := Db.inv_of_run (h.trans h')
  refine ⟨hi, ?_, ?_⟩
  · intro id
    rw [hlog]
    simp
  · intro id r hr ht
    exact h'.safe (I := fun db => db.runs id = some r) hr
      fun _ _ _ _ hk _ hs => Db.step_terminal hk ht hs

/-- One run asks, is answered and succeeds. -/
theorem agent_run_rows_succeeded : ∃ (log log' : List DbEvent) (db db' : Db Unit) (r : RunRow Unit),
    DbRun .empty log db ∧ DbRun db log' db' ∧ db.runs 1 = some r ∧ r.status = .succeeded ∧
      (∀ id r, db'.runs id = some r → r.Inv) ∧ (∀ id, .rejected id ∉ log ++ log') ∧
      db'.runs 1 = some r := by
  obtain ⟨log, db, hrun, hdone⟩ := StepRun.exists_free_run (Db.step (J := Unit)) .empty
    [.start 1 ⟨"kind", "input", "model", "app", (), 0⟩, .exec 1 (.tryClaim 5 90) 1,
      .exec 1 (.persistStep 5 ⟨(), 1, 10, 10⟩ [⟨0, .user, ()⟩]) 2,
      .exec 1 (.setWaiting 5 () "call" "question" []) 3, .exec 1 (.answerWaiting () []) 4,
      .exec 1 (.tryClaim 6 90) 5, .exec 1 (.finish 6 (.succeeded "done") ⟨(), 2, 20, 20⟩ []) 6]
    (fun _ db => (db.runs 1).any fun r => r.status == .succeeded) (by decide)
  rw [Option.any_eq_true] at hdone
  obtain ⟨r, hr, hs⟩ := hdone
  have hs : r.status = .succeeded := by simpa using hs
  obtain ⟨log', db', hrun', -⟩ := StepRun.exists_free_run Db.step db [] (fun _ _ => true) rfl
  have h := agent_run_rows hrun hrun'
  exact ⟨log, log', db, db', r, hrun, hrun', hr, hs, h.1, h.2.1,
    h.2.2 1 r hr (by simp [hs, RunStatus.terminal])⟩

end Cja.Durable
