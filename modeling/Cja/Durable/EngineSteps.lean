import Cja.Durable.Engine

/-!
# What one step of the engine can do

`Took` lists the outcomes of a step with what each leaves. The rest of the
module is what every later invariant needs of them: how a transaction touches the
tables, and which attempts can still have a statement in flight.
-/
namespace Cja.Durable

open Jobs (Uuid)

variable {R : Rig}

/-- What an input can do to an attempt. -/
inductive Inputs : Input R → Advance R → Advance R → Prop
  | drive (a : Attempt) (run : R.AgentRun) :
      Inputs .proceed (.driving a (.top run)) (.driving a (Stage.drive a run))
  | resolve (a : Attempt) (run : R.AgentRun) :
      Inputs .proceed (.driving a (.resolving run))
        (.driving a (Stage.settle (R.resolveUnhandledInvalidToolCall run)))
  | stop (a : Attempt) (run : R.AgentRun) :
      Inputs .shutdown (.driving a (.top run)) (Advance.retry a)
  | abandon (a : Attempt) (g : Guarded R) :
      Inputs .shutdown (.driving a (.guarded g)) (.driving a .abandoning)
  | beat (a : Attempt) (g : Guarded R) :
      Inputs .tick (.driving a (.guarded g)) (.driving a (.beating g))
  | replied (a : Attempt) (run : R.AgentRun) (prepared : R.Prepared) (request : R.Request)
      {response : Except LlmError R.ModelResponse}
      (h : ∀ e, response = .error e → isRetryable e = false) :
      Inputs (.reply response) (.driving a (.guarded (.model run prepared request)))
        (.driving a (Stage.replied run prepared response))
  | retryable (a : Attempt) (run : R.AgentRun) (prepared : R.Prepared) (request : R.Request)
      {e : LlmError} (h : isRetryable e = true) :
      Inputs (.reply (.error e)) (.driving a (.guarded (.model run prepared request)))
        (Advance.retry a)
  | toolReturns (a : Attempt) (run : R.AgentRun) (exec : R.ExecCall) (rest : List R.Call)
      (result : R.ToolResult) :
      Inputs (.toolReturns result) (.driving a (.guarded (.tool run exec rest)))
        (.driving a (Stage.toolReturned run exec rest result))

theorem inputs_of_input {i : Input R} {pc pc' : Advance R} (h : pc.input i = some pc') :
    Inputs i pc pc' := by
  unfold Advance.input at h
  split at h
  · cases h; exact .drive _ _
  · cases h; exact .resolve _ _
  · cases h; exact .stop _ _
  · cases h; exact .abandon _ _
  · cases h; exact .beat _ _
  · cases h; exact .replied _ _ _ _ (by simp)
  · case _ e _ _ _ _ =>
      cases hr : isRetryable e with
      | true =>
          rw [hr] at h
          cases h
          exact .retryable _ _ _ _ hr
      | false =>
          rw [hr] at h
          cases h
          exact .replied _ _ _ _ (by rintro e' ⟨⟩; exact hr)
  · cases h; exact .toolReturns _ _ _ _ _
  · cases h

/-- The steps of an attempt that leave the tables alone. -/
inductive Local (s : Engine R) (me : LeaseToken) (run : Uuid) :
    Advance R → Action R → Advance R → Prop
  | readStatus : Local s me run .checking (.readStatus me)
      (.returned !((s.db.runs run).any fun r => r.status == .running))
  | readSeq {a : Attempt} {w : Write R} :
      Local s me run (.driving a (.projecting w)) (.readSeq me)
        (.driving a (.writing w (R.projectRows (nextMessageSeq (s.db.messages run)) w.run)))
  | rejects {pc pc' : Advance R} {code : String} (h : pc.rejected code = some pc') :
      Local s me run pc (.rejects me code) pc'
  | input {pc pc' : Advance R} {i : Input R} (h : Inputs i pc pc') :
      Local s me run pc (.input me i) pc'

/-- What the answer to a transaction can do to an attempt. -/
inductive Answers (cfg : Config) : Advance R → Option (RunRow Json) → Advance R → Prop
  | claimed (row : RunRow Json) : Answers cfg .claiming (some row) (Advance.claimed cfg row)
  | unclaimed : Answers cfg .claiming none .checking
  | closed (ending : Ending) (snap : RunSnapshot Json) (ret : Option (RunRow Json)) :
      Answers cfg (.closing ending snap) ret (.returned true)
  | closedFailed (code : String) (ret : Option (RunRow Json)) :
      Answers cfg (.closingFails code) ret (.returned true)
  | landed (a : Attempt) (w : Write R) (rows : List (MessageRow Json)) (row : RunRow Json) :
      Answers cfg (.driving a (.writing w rows)) (some row) (Advance.landed a row w)
  | outrun (a : Attempt) (w : Write R) (rows : List (MessageRow Json)) :
      Answers cfg (.driving a (.writing w rows)) none (.returned true)
  | failed (a : Attempt) (code : String) (direct : Bool) (ret : Option (RunRow Json)) :
      Answers cfg (.driving a (.failing code direct)) ret (.returned true)
  | beatLost (a : Attempt) (g : Guarded R) :
      Answers cfg (.driving a (.beating g)) none (.returned true)
  | beatCancelled (a : Attempt) (g : Guarded R) {row : RunRow Json}
      (h : row.cancelRequested = true) :
      Answers cfg (.driving a (.beating g)) (some row)
        (.driving a (.projecting (.finish g.run .cancelled false)))
  | beat (a : Attempt) (g : Guarded R) {row : RunRow Json} (h : row.cancelRequested = false) :
      Answers cfg (.driving a (.beating g)) (some row) (.driving a (.guarded g))
  | abandoned (a : Attempt) (ret : Option (RunRow Json)) :
      Answers cfg (.driving a .abandoning) ret (Advance.retry a)
  | requeued (a : Attempt) (ret : Option (RunRow Json)) :
      Answers cfg (.driving a .requeueing) ret (.returned true)
  | released (ret : Option (RunRow Json)) : Answers cfg .releasing ret (.returned false)

theorem answers_of_tx {cfg : Config} {me : LeaseToken} {pc : Advance R} {tx : Tx Json}
    (h : pc.tx cfg me = some tx) (ret : Option (RunRow Json)) :
    Answers cfg pc ret (pc.answered cfg ret) := by
  cases pc with
  | claiming =>
      cases ret with
      | none => exact .unclaimed
      | some row => exact .claimed row
  | checking => cases h
  | closing ending snap => exact .closed ending snap ret
  | closingFails code => exact .closedFailed code ret
  | releasing => exact .released ret
  | returned ok => cases h
  | driving a stage =>
      cases stage with
      | writing w rows =>
          cases ret with
          | none => exact .outrun a w rows
          | some row => exact .landed a w rows row
      | failing code direct => exact .failed a code direct ret
      | beating g =>
          cases ret with
          | none => exact .beatLost a g
          | some row =>
              cases hc : row.cancelRequested with
              | true => simpa [Advance.answered, hc] using Answers.beatCancelled a g hc
              | false => simpa [Advance.answered, hc] using Answers.beat a g hc
      | abandoning => exact .abandoned a ret
      | requeueing => exact .requeued a ret
      | _ => cases h

/-- What an attempt is after its statement ended in an error, or after it vanished. -/
inductive Ended (cfg : Config) (me : LeaseToken) (a : JobAttempt R) (fate : Fate) (now : ℕ) :
    Action R → Option (JobAttempt R) → Prop
  | fails (h : a.pc.awaits cfg me = true) :
      Ended cfg me a fate now (.fails me fate now) (some ⟨a.run, a.pc.errored⟩)
  | vanish : Ended cfg me a fate now (.vanish me fate now) none

def enqueuedEvents (run : Uuid) (enqueues : Bool) : List Event :=
  if enqueues then [.enqueued run] else []

inductive Took (cfg : Config) (s : Engine R) : Action R → Engine R → List Event → Prop
  | begin {me : LeaseToken} {run : Uuid} (h : me ∉ s.issued) :
      Took cfg s (.begin me run) { s.setAt me run .claiming with issued := me :: s.issued } []
  | here {a : Action R} {me : LeaseToken} {run : Uuid} {pc pc' : Advance R}
      (h : s.attempts me = some ⟨run, pc⟩) (hl : Local s me run pc a pc') :
      Took cfg s a (s.setAt me run pc') []
  | commit {me : LeaseToken} {run : Uuid} {pc pc' : Advance R} {tx : Tx Json} {now : ℕ}
      {db : Db Json} {ret : Option (RunRow Json)} (h : s.attempts me = some ⟨run, pc⟩)
      (htx : pc.tx cfg me = some tx) (hdb : s.db.exec run tx now = some (db, ret))
      (ha : Answers cfg pc ret pc') :
      Took cfg s (.commit me now) ((s.setDb db).setAt me run pc')
        (wroteEvents (some me) run s.db db ++ enqueuedEvents run pc.enqueues)
  | lost {a : Action R} {me : LeaseToken} {j : JobAttempt R} {j' : Option (JobAttempt R)}
      {now : ℕ} (h : s.attempts me = some j) (he : Ended cfg me j .lost now a j') :
      Took cfg s a (s.setAttempt me j') []
  | applied {a : Action R} {me : LeaseToken} {j : JobAttempt R} {j' : Option (JobAttempt R)}
      {tx : Tx Json} {now : ℕ} {db : Db Json} {ret : Option (RunRow Json)}
      (h : s.attempts me = some j) (he : Ended cfg me j .applied now a j')
      (htx : j.pc.tx cfg me = some tx) (hdb : s.db.exec j.run tx now = some (db, ret)) :
      Took cfg s a ((s.setDb db).setAttempt me j')
        (wroteEvents (some me) j.run s.db db ++ enqueuedEvents j.run j.pc.enqueues)
  | left {a : Action R} {me : LeaseToken} {j : JobAttempt R} {j' : Option (JobAttempt R)}
      {tx : Tx Json} {now : ℕ} (h : s.attempts me = some j) (he : Ended cfg me j .left now a j')
      (htx : j.pc.tx cfg me = some tx) (hl : Engine.canLinger tx = true) :
      Took cfg s a
        (Engine.setAttempt { s with late := s.late ++ [⟨j.run, tx, j.pc.enqueues⟩] } me j') []
  | late {i now : ℕ} {l : LateTx} {db : Db Json} {ret : Option (RunRow Json)}
      (hl : s.late[i]? = some l) (hdb : s.db.exec l.run l.tx now = some (db, ret)) :
      Took cfg s (.applyLate i now) { s.setDb db with late := s.late.eraseIdx i }
        (wroteEvents none l.run s.db db ++ enqueuedEvents l.run l.enqueues)
  | start {run : Uuid} {kind prompt : String} {now : ℕ} {k : AgentKind} {db : Db Json}
      (hk : cfg.kindNamed kind = some k)
      (hdb : s.db.insertRun run ⟨k.name, prompt, k.model, cfg.appName,
        R.toValue (R.fromSpec k prompt), now⟩ = some db) :
      Took cfg s (.start run kind prompt now) (s.setDb db) [.enqueued run]
  | refused {run : Uuid} {text : String} {e : RunError}
      (h : answerRow R text (s.db.runs run) = .error e) : Took cfg s (.answer run text) s []
  | answer {run : Uuid} {text : String} {agentRun : R.AgentRun} {db : Db Json}
      {ret : Option (RunRow Json)} (h : answerRow R text (s.db.runs run) = .ok agentRun)
      (hdb : s.db.exec run (.answerWaiting (R.toValue agentRun)
        (R.projectRows (nextMessageSeq (s.db.messages run)) agentRun)) 0 = some (db, ret)) :
      Took cfg s (.answer run text) (s.setDb db)
        (.answered run text :: (wroteEvents none run s.db db ++ [.enqueued run]))
  | cancel {run : Uuid} {now : ℕ} {db : Db Json} {ret : Option (RunRow Json)}
      (hdb : s.db.exec run (.cancelRun cfg.leaseTakeover) now = some (db, ret)) :
      Took cfg s (.cancel run now) (s.setDb db) (wroteEvents none run s.db db)

variable {cfg : Config} {s s' : Engine R} {a : Action R} {es : List Event}

theorem exec_eq {writer : Option LeaseToken} {run : Uuid} {tx : Tx Json} {enqueues : Bool}
    {now : ℕ} {r : (Engine R × List Event) × Option (RunRow Json)}
    (h : s.exec writer run tx enqueues now = some r) :
    ∃ db, s.db.exec run tx now = some (db, r.2) ∧ r.1.1 = s.setDb db ∧
      r.1.2 = wroteEvents writer run s.db db ++ enqueuedEvents run enqueues := by
  simp only [Engine.exec, Option.map_eq_some_iff] at h
  obtain ⟨⟨db, ret⟩, hdb, rfl⟩ := h
  exact ⟨db, hdb, rfl, rfl⟩

/-- The three fates of a statement in flight, for either way to end. -/
theorem settleTx_took {me : LeaseToken} {j : JobAttempt R} {j' : Option (JobAttempt R)}
    {fate : Fate} {now : ℕ} {s₁ : Engine R} (h : s.attempts me = some j)
    (he : Ended cfg me j fate now a j') (hs : s.settleTx cfg me j now fate = some (s₁, es)) :
    Took cfg s a (s₁.setAttempt me j') es := by
  cases fate with
  | lost =>
      cases hs
      exact .lost h he
  | applied =>
      simp only [Engine.settleTx, Option.bind_eq_some_iff, Option.map_eq_some_iff] at hs
      obtain ⟨tx, htx, r, hr, heq⟩ := hs
      obtain ⟨db, hdb, h₁, h₂⟩ := exec_eq hr
      rw [heq] at h₁ h₂
      cases h₁
      cases h₂
      exact .applied h he htx hdb
  | left =>
      simp only [Engine.settleTx, Option.bind_eq_some_iff] at hs
      obtain ⟨tx, htx, hs⟩ := hs
      split_ifs at hs with hl
      cases hs
      exact .left h he htx hl

theorem step_took (h : Engine.step cfg s a = some (s', es)) : Took cfg s a s' es := by
  cases a with
  | begin me run =>
      simp only [Engine.step, Engine.begin] at h
      split_ifs at h with hme
      cases h
      exact .begin hme
  | readStatus me =>
      simp only [Engine.step, Engine.readStatus] at h
      split at h
      · case _ hj =>
          cases h
          exact .here hj .readStatus
      · cases h
  | readSeq me =>
      simp only [Engine.step, Engine.readSeq] at h
      split at h
      · case _ hj =>
          cases h
          exact .here hj .readSeq
      · cases h
  | commit me now =>
      simp only [Engine.step, Engine.commit] at h
      split at h
      · case _ run pc hj =>
          simp only [Option.bind_eq_some_iff, Option.map_eq_some_iff] at h
          obtain ⟨tx, htx, r, hr, heq⟩ := h
          obtain ⟨db, hdb, h₁, h₂⟩ := exec_eq hr
          cases heq
          rw [h₁, h₂]
          exact .commit hj htx hdb (answers_of_tx htx _)
      · cases h
  | fails me fate now =>
      simp only [Engine.step, Engine.fails] at h
      split at h
      · case _ j hj =>
          split_ifs at h with hawait
          simp only [Option.map_eq_some_iff] at h
          obtain ⟨⟨s₁, es₁⟩, hs, heq⟩ := h
          cases heq
          exact settleTx_took hj (.fails hawait) hs
      · cases h
  | rejects me code =>
      simp only [Engine.step, Engine.rejects] at h
      split at h
      · case _ run pc hj =>
          simp only [Option.map_eq_some_iff] at h
          obtain ⟨pc', hpc, heq⟩ := h
          cases heq
          exact .here hj (.rejects hpc)
      · cases h
  | input me i =>
      simp only [Engine.step, Engine.input] at h
      split at h
      · case _ run pc hj =>
          simp only [Option.map_eq_some_iff] at h
          obtain ⟨pc', hpc, heq⟩ := h
          cases heq
          exact .here hj (.input (inputs_of_input hpc))
      · cases h
  | vanish me fate now =>
      simp only [Engine.step, Engine.vanish] at h
      split at h
      · case _ j hj =>
          simp only [Option.map_eq_some_iff] at h
          obtain ⟨⟨s₁, es₁⟩, hs, heq⟩ := h
          cases heq
          exact settleTx_took hj .vanish hs
      · cases h
  | applyLate i now =>
      simp only [Engine.step, Engine.applyLate, Option.bind_eq_some_iff,
        Option.map_eq_some_iff] at h
      obtain ⟨l, hl, r, hr, heq⟩ := h
      obtain ⟨db, hdb, h₁, h₂⟩ := exec_eq hr
      cases heq
      rw [h₁, h₂]
      exact .late hl hdb
  | start run kind prompt now =>
      simp only [Engine.step, Engine.start, Option.bind_eq_some_iff] at h
      obtain ⟨k, hk, h⟩ := h
      split_ifs at h with hschema
      simp only [Option.map_eq_some_iff] at h
      obtain ⟨db, hdb, heq⟩ := h
      cases heq
      exact .start hk hdb
  | answer run text =>
      simp only [Engine.step, Engine.answer] at h
      split at h
      · case _ e he =>
          cases h
          exact .refused he
      · case _ agentRun hr =>
          simp only [Option.map_eq_some_iff] at h
          obtain ⟨r, hx, heq⟩ := h
          obtain ⟨db, hdb, h₁, h₂⟩ := exec_eq hx
          cases heq
          rw [h₁, h₂]
          exact .answer hr hdb
  | cancel run now =>
      simp only [Engine.step, Engine.cancel, Option.map_eq_some_iff] at h
      obtain ⟨r, hr, heq⟩ := h
      obtain ⟨db, hdb, h₁, h₂⟩ := exec_eq hr
      rw [heq] at h₁ h₂
      obtain rfl : s' = s.setDb db := h₁
      obtain rfl : es = wroteEvents none run s.db db ++ enqueuedEvents run false := h₂
      simpa [enqueuedEvents] using Took.cancel hdb

/-! ## Reading a state after an update -/

namespace Engine

@[simp] theorem setAttempt_self (s : Engine R) (me : LeaseToken) (j : Option (JobAttempt R)) :
    (s.setAttempt me j).attempts me = j := Function.update_self ..

theorem setAttempt_other (s : Engine R) {me v : LeaseToken} (j : Option (JobAttempt R))
    (h : v ≠ me) : (s.setAttempt me j).attempts v = s.attempts v := Function.update_of_ne h _ _

@[simp] theorem setDb_db (s : Engine R) (db : Db Json) : (s.setDb db).db = db := rfl

@[simp] theorem setDb_attempts (s : Engine R) (db : Db Json) :
    (s.setDb db).attempts = s.attempts := rfl

end Engine

/-! ## What a transaction does to its row -/

namespace Tx

variable {J : Type} {tx : Tx J} {now : ℕ} {r r' : RunRow J}

/-- The attempt a statement speaks for. -/
def token : Tx J → Option LeaseToken
  | failUnstorable me _ | tryClaim me _ | releaseLease me | heartbeat me | persistStep me _ _
  | setWaiting me _ _ _ _ | finish me _ _ _ => some me
  | answerWaiting _ _ | cancelRun _ => none

/-- The run state a transaction stores. -/
def newState : Tx J → Option J
  | persistStep _ snap _ | finish _ _ snap _ => some snap.runState
  | setWaiting _ state _ _ _ | answerWaiting state _ => some state
  | _ => none

def isClaim : Tx J → Bool
  | tryClaim .. => true
  | _ => false

theorem update_runState (h : tx.update now r = some r') :
    r'.runState = tx.newState.getD r.runState := by
  cases tx with
  | failUnstorable me code =>
      simp only [update, RunRow.failUnstorable] at h
      split_ifs at h
      cases h; rfl
  | tryClaim me takeover =>
      simp only [update, RunRow.tryClaim] at h
      split_ifs at h
      cases h; rfl
  | releaseLease me =>
      simp only [update, RunRow.releaseLease] at h
      split_ifs at h
      cases h; rfl
  | heartbeat me =>
      simp only [update, RunRow.heartbeat] at h
      split_ifs at h
      cases h; rfl
  | persistStep me snap rows =>
      simp only [update, RunRow.persistStep] at h
      split_ifs at h
      cases h; rfl
  | setWaiting me state callId question rows =>
      simp only [update, RunRow.setWaiting] at h
      split at h
      · cases h; rfl
      · cases h
  | finish me ending snap rows =>
      simp only [update, RunRow.finish] at h
      split_ifs at h
      cases h; rfl
  | answerWaiting state rows =>
      simp only [update, RunRow.answerWaiting] at h
      split_ifs at h
      cases h; rfl
  | cancelRun takeover => cases h; rfl

theorem update_kind (h : tx.update now r = some r') : r'.kind = r.kind := by
  cases tx with
  | failUnstorable me code =>
      simp only [update, RunRow.failUnstorable] at h
      split_ifs at h
      cases h; rfl
  | tryClaim me takeover =>
      simp only [update, RunRow.tryClaim] at h
      split_ifs at h
      cases h; rfl
  | releaseLease me =>
      simp only [update, RunRow.releaseLease] at h
      split_ifs at h
      cases h; rfl
  | heartbeat me =>
      simp only [update, RunRow.heartbeat] at h
      split_ifs at h
      cases h; rfl
  | persistStep me snap rows =>
      simp only [update, RunRow.persistStep] at h
      split_ifs at h
      cases h; rfl
  | setWaiting me state callId question rows =>
      simp only [update, RunRow.setWaiting] at h
      split at h
      · cases h; rfl
      · cases h
  | finish me ending snap rows =>
      simp only [update, RunRow.finish] at h
      split_ifs at h
      cases h; rfl
  | answerWaiting state rows =>
      simp only [update, RunRow.answerWaiting] at h
      split_ifs at h
      cases h; rfl
  | cancelRun takeover => cases h; rfl

/-- A statement of an attempt other than a claim matches only under its lease. -/
theorem leased_of_update {me : LeaseToken} (htoken : tx.token = some me)
    (hclaim : tx.isClaim = false) (h : tx.update now r = some r') : r.leasedBy me = true := by
  cases tx with
  | tryClaim => cases hclaim
  | answerWaiting => cases htoken
  | cancelRun => cases htoken
  | setWaiting =>
      cases htoken
      simp only [update, RunRow.setWaiting] at h
      split at h
      · assumption
      · cases h
  | failUnstorable =>
      cases htoken
      simp only [update, RunRow.failUnstorable] at h
      split_ifs at h
      assumption
  | releaseLease =>
      cases htoken
      simp only [update, RunRow.releaseLease] at h
      split_ifs at h
      assumption
  | heartbeat =>
      cases htoken
      simp only [update, RunRow.heartbeat] at h
      split_ifs at h
      assumption
  | persistStep =>
      cases htoken
      simp only [update, RunRow.persistStep] at h
      split_ifs at h
      assumption
  | finish =>
      cases htoken
      simp only [update, RunRow.finish] at h
      split_ifs at h
      assumption

/-- And under its lease it matches. -/
theorem update_leased {me : LeaseToken} (htoken : tx.token = some me)
    (hclaim : tx.isClaim = false) (hl : r.leasedBy me = true) (now : ℕ) :
    tx.update now r ≠ none := by
  cases tx with
  | tryClaim => cases hclaim
  | answerWaiting => cases htoken
  | cancelRun => cases htoken
  | setWaiting => cases htoken; simp [update, RunRow.setWaiting, hl]
  | failUnstorable => cases htoken; simp [update, RunRow.failUnstorable, hl]
  | releaseLease => cases htoken; simp [update, RunRow.releaseLease, hl]
  | heartbeat => cases htoken; simp [update, RunRow.heartbeat, hl]
  | persistStep => cases htoken; simp [update, RunRow.persistStep, hl]
  | finish => cases htoken; simp [update, RunRow.finish, hl]

/-- Only a claim hands out a lease. -/
theorem update_lockedBy {me : LeaseToken} (h : tx.update now r = some r')
    (hme : r'.lockedBy = some me) :
    r.lockedBy = some me ∨ (tx.isClaim = true ∧ tx.token = some me) := by
  cases tx with
  | tryClaim =>
      simp only [update, RunRow.tryClaim] at h
      split_ifs at h
      cases h
      exact .inr ⟨rfl, hme⟩
  | cancelRun takeover =>
      cases h
      left
      simp only [RunRow.cancelRun] at hme
      split_ifs at hme
      exact hme
  | setWaiting =>
      simp only [update, RunRow.setWaiting] at h
      split at h
      · cases h
        cases hme
      · cases h
  | heartbeat =>
      simp only [update, RunRow.heartbeat] at h
      split_ifs at h
      cases h
      exact .inl hme
  | persistStep =>
      simp only [update, RunRow.persistStep] at h
      split_ifs at h
      cases h
      exact .inl hme
  | failUnstorable =>
      simp only [update, RunRow.failUnstorable] at h
      split_ifs at h
      cases h
      cases hme
  | releaseLease =>
      simp only [update, RunRow.releaseLease] at h
      split_ifs at h
      cases h
      cases hme
  | finish =>
      simp only [update, RunRow.finish] at h
      split_ifs at h
      cases h
      cases hme
  | answerWaiting =>
      simp only [update, RunRow.answerWaiting] at h
      split_ifs at h
      cases h
      cases hme

/-- While an attempt holds the lease, what others commit either takes it away or
leaves the stored run and its transcript alone. -/
theorem update_foreign {me : LeaseToken} (hl : r.leasedBy me = true)
    (htoken : tx.token ≠ some me) (h : tx.update now r = some r') :
    r'.leasedBy me = false ∨
      (r'.runState = r.runState ∧ tx.newMessages = [] ∧ tx.newState = none) := by
  obtain ⟨hlock, hstatus⟩ := RunRow.leasedBy_iff.mp hl
  have hforeign : ∀ v, tx.token = some v → tx.isClaim = false → False := by
    intro v hv hc
    have hlv := (RunRow.leasedBy_iff.mp (leased_of_update hv hc h)).1
    rw [hlock] at hlv
    cases hlv
    exact htoken hv
  cases tx with
  | tryClaim v takeover =>
      left
      simp only [update, RunRow.tryClaim] at h
      split_ifs at h
      cases h
      have hne : v ≠ me := fun he => htoken (congrArg some he)
      simp [RunRow.leasedBy, hne]
  | cancelRun takeover =>
      cases h
      exact .inr ⟨rfl, rfl, rfl⟩
  | answerWaiting state rows =>
      simp only [update, RunRow.answerWaiting] at h
      split_ifs at h with hw
      rw [hstatus] at hw
      cases hw
  | failUnstorable v => exact (hforeign v rfl rfl).elim
  | releaseLease v => exact (hforeign v rfl rfl).elim
  | heartbeat v => exact (hforeign v rfl rfl).elim
  | persistStep v => exact (hforeign v rfl rfl).elim
  | setWaiting v => exact (hforeign v rfl rfl).elim
  | finish v => exact (hforeign v rfl rfl).elim

end Tx

/-- A committed transaction, read at every run. -/
theorem Db.exec_at {db db' : Db Json} {run : Uuid} {tx : Tx Json} {now : ℕ}
    {ret : Option (RunRow Json)} (h : db.exec run tx now = some (db', ret)) :
    (∀ k, k ≠ run → db'.runs k = db.runs k ∧ db'.messages k = db.messages k) ∧
      ((ret = none ∧ db' = db ∧ (db.runs run).bind (tx.update now) = none) ∨
        ∃ r r', ret = some r' ∧ db.runs run = some r ∧ tx.update now r = some r' ∧
          db'.runs run = some r' ∧
          db'.messages run = insertMessages (db.messages run) tx.newMessages) := by
  rcases exec_some h with ⟨hret, rfl, hu⟩ | ⟨r, r', hret, hr, hu, rfl⟩
  · exact ⟨fun _ _ => ⟨rfl, rfl⟩, .inl ⟨hret, rfl, hu⟩⟩
  · refine ⟨?_, .inr ⟨r, r', hret, hr, hu, ?_, ?_⟩⟩
    · intro k hk
      constructor
      · change (db.setRun run r').runs k = _
        rw [setRun_runs, if_neg hk]
      · simp [addMessages, setRun, Function.update_of_ne hk]
    · change (db.setRun run r').runs run = _
      rw [setRun_runs, if_pos rfl]
    · simp [addMessages, setRun]

/-! ## Attempts that are over -/

/-- The attempt writes nothing any more but its release. -/
def Advance.over : Advance R → Bool
  | driving _ .requeueing | releasing | returned _ => true
  | _ => false

/-- The attempt has no claim yet. -/
def Advance.unclaimed : Advance R → Bool
  | claiming | checking => true
  | _ => false

namespace Advance

variable {me : LeaseToken} {pc pc' : Advance R}

theorem retry_over (a : Attempt) : (retry a : Advance R).over = true := by
  unfold retry
  split_ifs <;> rfl

theorem giveUp_over (a : Attempt) (direct : Bool) : (giveUp a direct : Advance R).over = true := by
  unfold giveUp
  split_ifs
  · rfl
  · exact retry_over a

theorem errored_over (h : pc.awaits cfg me = true) : pc.errored.over = true := by
  cases pc with
  | claiming => rfl
  | checking => rfl
  | closing ending snap => rfl
  | closingFails code => rfl
  | releasing => rfl
  | returned ok => cases h
  | driving a stage =>
      cases stage with
      | projecting w => exact giveUp_over a w.direct
      | writing w rows => exact giveUp_over a w.direct
      | failing code direct => exact giveUp_over a direct
      | beating g => exact retry_over a
      | abandoning => exact retry_over a
      | requeueing => rfl
      | top run => cases h
      | guarded g => cases h
      | resolving run => cases h

theorem answers_over {ret : Option (RunRow Json)} (h : Answers cfg pc ret pc')
    (hover : pc.over = true) : pc'.over = true := by
  cases h with
  | requeued => rfl
  | released => rfl
  | _ => cases hover

theorem local_over {s : Engine R} {run : Uuid} {a : Action R} (h : Local s me run pc a pc') :
    pc.over = false := by
  cases h with
  | readStatus => rfl
  | readSeq => rfl
  | rejects h =>
      cases pc with
      | driving a stage => cases stage <;> first | rfl | cases h
      | closing ending snap => rfl
      | _ => cases h
  | input h => cases h <;> rfl

theorem token_of_tx {tx : Tx Json} (h : pc.tx cfg me = some tx) : tx.token = some me := by
  cases pc with
  | driving a stage =>
      cases stage with
      | writing w rows => cases w <;> (cases h; rfl)
      | failing code direct => cases h; rfl
      | beating g => cases h; rfl
      | abandoning => cases h; rfl
      | requeueing => cases h; rfl
      | _ => cases h
  | claiming => cases h; rfl
  | closing ending snap => cases h; rfl
  | closingFails code => cases h; rfl
  | releasing => cases h; rfl
  | _ => cases h

/-- Only an unanswered claim claims. -/
theorem claiming_of_isClaim {tx : Tx Json} (h : pc.tx cfg me = some tx)
    (hc : tx.isClaim = true) : pc = .claiming := by
  cases pc with
  | claiming => rfl
  | driving a stage =>
      cases stage with
      | writing w rows => cases w <;> (cases h; cases hc)
      | failing code direct => cases h; cases hc
      | beating g => cases h; cases hc
      | abandoning => cases h; cases hc
      | requeueing => cases h; cases hc
      | _ => cases h
  | closing ending snap => cases h; cases hc
  | closingFails code => cases h; cases hc
  | releasing => cases h; cases hc
  | _ => cases h

theorem unclaimed_of_over (h : pc.over = true) : pc.unclaimed = false := by
  cases pc <;> first | rfl | cases h

theorem local_unclaimed {s : Engine R} {run : Uuid} {a : Action R}
    (h : Local s me run pc a pc') : pc'.unclaimed = false := by
  cases h with
  | readStatus => rfl
  | readSeq => rfl
  | rejects h =>
      cases pc with
      | driving a stage => cases stage <;> first | (cases h; rfl) | cases h
      | closing ending snap => cases h; rfl
      | _ => cases h
  | input h =>
      cases h with
      | stop a => exact unclaimed_of_over (retry_over a)
      | retryable a => exact unclaimed_of_over (retry_over a)
      | _ => rfl

theorem claimed_unclaimed (row : RunRow Json) : (claimed cfg row : Advance R).unclaimed = false := by
  unfold claimed
  dsimp only
  split_ifs
  · rfl
  · split <;> rfl

/-- After an answer only a claim that matched nothing is still to be made. -/
theorem answers_unclaimed {ret : Option (RunRow Json)} (h : Answers cfg pc ret pc')
    (hun : pc'.unclaimed = true) : pc = .claiming ∧ ret = none := by
  cases h with
  | unclaimed => exact ⟨rfl, rfl⟩
  | claimed row => rw [claimed_unclaimed] at hun; cases hun
  | landed a w rows row =>
      cases w with
      | persist run advanced next =>
          simp only [landed] at hun
          split_ifs at hun <;> cases hun
      | suspend => cases hun
      | finish => cases hun
  | abandoned a ret => rw [unclaimed_of_over (retry_over a)] at hun; cases hun
  | _ => cases hun

end Advance

/-! ## Tokens -/

/-- Every row keeps its invariant. Leases and statements in flight belong to
tokens given out; what lingers belongs to attempts that are over, and an attempt
without a claim holds no lease. -/
structure Engine.Basic (s : Engine R) : Prop where
  rows : s.db.Inv
  attempts : ∀ me j, s.attempts me = some j → me ∈ s.issued
  leases : ∀ run r me, s.db.runs run = some r → r.lockedBy = some me → me ∈ s.issued
  late : ∀ l ∈ s.late, Engine.canLinger l.tx = true ∧ ∀ me, l.tx.token = some me →
    me ∈ s.issued ∧ ∀ j, s.attempts me = some j → j.pc.over = true
  unclaimed : ∀ me j, s.attempts me = some j → j.pc.unclaimed = true →
    ∀ run r, s.db.runs run = some r → r.lockedBy ≠ some me

namespace Engine.Basic

theorem init : (Engine.init : Engine R).Basic := by
  constructor <;> simp [Engine.init, Db.empty, Db.Inv]

theorem setAttempt {me : LeaseToken} {j' : Option (JobAttempt R)} (hb : s.Basic)
    (hissued : me ∈ s.issued)
    (hlate : ∀ l ∈ s.late, l.tx.token = some me → ∀ j, j' = some j → j.pc.over = true)
    (hunclaimed : ∀ j, j' = some j → j.pc.unclaimed = true →
      ∀ run r, s.db.runs run = some r → r.lockedBy ≠ some me) : (s.setAttempt me j').Basic where
  rows := hb.rows
  attempts v j hv := by
    by_cases hvm : v = me
    · exact hvm ▸ hissued
    · rw [Engine.setAttempt_other _ _ hvm] at hv
      exact hb.attempts v j hv
  leases := hb.leases
  late l hl := by
    obtain ⟨hlinger, htoken⟩ := hb.late l hl
    refine ⟨hlinger, ?_⟩
    intro v hv
    obtain ⟨hi, hover⟩ := htoken v hv
    refine ⟨hi, ?_⟩
    intro j hj
    by_cases hvm : v = me
    · subst hvm
      rw [Engine.setAttempt_self] at hj
      exact hlate l hl hv j hj
    · rw [Engine.setAttempt_other _ _ hvm] at hj
      exact hover j hj
  unclaimed v j hv := by
    by_cases hvm : v = me
    · subst hvm
      rw [Engine.setAttempt_self] at hv
      exact hunclaimed j hv
    · rw [Engine.setAttempt_other _ _ hvm] at hv
      exact hb.unclaimed v j hv

/-- A transaction commits; a claim that matched is of an attempt that will know. -/
theorem exec {run : Uuid} {tx : Tx Json} {now : ℕ} {db : Db Json} {ret : Option (RunRow Json)}
    (hb : s.Basic) (hdb : s.db.exec run tx now = some (db, ret))
    (hclaim : ∀ me, tx.isClaim = true → tx.token = some me → ret ≠ none →
      me ∈ s.issued ∧ ∀ j, s.attempts me = some j → j.pc.unclaimed = false) :
    (s.setDb db).Basic := by
  obtain ⟨hother, hrun⟩ := Db.exec_at hdb
  have hlocked : ∀ k r me, db.runs k = some r → r.lockedBy = some me →
      (∃ r₀, s.db.runs k = some r₀ ∧ r₀.lockedBy = some me) ∨
        (me ∈ s.issued ∧ ∀ j, s.attempts me = some j → j.pc.unclaimed = false) := by
    intro k r me hr hme
    by_cases hk : k = run
    · subst hk
      rcases hrun with ⟨-, rfl, -⟩ | ⟨r₀, r', hret, hr₀, hu, hr', -⟩
      · exact .inl ⟨r, hr, hme⟩
      · rw [hr'] at hr
        cases hr
        rcases Tx.update_lockedBy hu hme with h₀ | ⟨hc, ht⟩
        · exact .inl ⟨r₀, hr₀, h₀⟩
        · exact .inr (hclaim me hc ht (by simp [hret]))
    · rw [(hother k hk).1] at hr
      exact .inl ⟨r, hr, hme⟩
  constructor
  case rows => exact hb.rows.exec hdb
  case attempts => exact hb.attempts
  case late => exact hb.late
  case leases =>
    intro k r me hr hme
    rcases hlocked k r me hr hme with ⟨r₀, hr₀, h₀⟩ | ⟨hi, -⟩
    · exact hb.leases k r₀ me hr₀ h₀
    · exact hi
  case unclaimed =>
    intro me j hj hun k r hr hme
    rcases hlocked k r me hr hme with ⟨r₀, hr₀, h₀⟩ | ⟨-, hno⟩
    · exact hb.unclaimed me j hj hun k r₀ hr₀ h₀
    · rw [hno j hj] at hun
      cases hun

/-- An attempt whose statement ended, however it ended. -/
theorem ended {me : LeaseToken} {j : JobAttempt R} {j' : Option (JobAttempt R)} {fate : Fate}
    {now : ℕ} (hb : s.Basic) (h : s.attempts me = some j) (he : Ended cfg me j fate now a j') :
    (s.setAttempt me j').Basic ∧ ∀ k, j' = some k → k.pc.over = true := by
  have hover : ∀ k, j' = some k → k.pc.over = true := by
    intro k hk
    cases he with
    | fails hawait =>
        cases hk
        exact Advance.errored_over hawait
    | vanish => cases hk
  refine ⟨hb.setAttempt (hb.attempts me j h) (fun _ _ _ => hover) ?_, hover⟩
  intro k hk hun
  rw [Advance.unclaimed_of_over (hover k hk)] at hun
  cases hun

theorem step (hb : s.Basic) (h : Took cfg s a s' es) : s'.Basic := by
  cases h with
  | @begin me run hme =>
      have hfresh : s.attempts me = none := by
        by_contra hne
        obtain ⟨j, hj⟩ := Option.ne_none_iff_exists'.mp hne
        exact hme (hb.attempts me j hj)
      constructor
      case rows => exact hb.rows
      case attempts =>
        intro v j hv
        by_cases hvm : v = me
        · exact hvm ▸ List.mem_cons_self
        · have hv' : s.attempts v = some j := by
            rw [← Engine.setAttempt_other s (some ⟨run, .claiming⟩) hvm]
            exact hv
          exact List.mem_cons_of_mem _ (hb.attempts v j hv')
      case leases =>
        intro k r v hr hv
        exact List.mem_cons_of_mem _ (hb.leases k r v hr hv)
      case late =>
        intro l hl
        obtain ⟨hlinger, htoken⟩ := hb.late l hl
        refine ⟨hlinger, ?_⟩
        intro v hv
        obtain ⟨hi, hover⟩ := htoken v hv
        have hvm : v ≠ me := fun he => hme (he ▸ hi)
        refine ⟨List.mem_cons_of_mem _ hi, ?_⟩
        intro j hj
        have hj' : s.attempts v = some j := by
          rw [← Engine.setAttempt_other s (some ⟨run, .claiming⟩) hvm]
          exact hj
        exact hover j hj'
      case unclaimed =>
        intro v j hv hun k r hr hlock
        by_cases hvm : v = me
        · exact hme (hvm ▸ hb.leases k r v hr hlock)
        · have hv' : s.attempts v = some j := by
            rw [← Engine.setAttempt_other s (some ⟨run, .claiming⟩) hvm]
            exact hv
          exact hb.unclaimed v j hv' hun k r hr hlock
  | @here a me run pc pc' hj hl =>
      have hlate : ∀ l ∈ s.late, l.tx.token ≠ some me := by
        intro l hl' ht
        have hover := ((hb.late l hl').2 me ht).2 _ hj
        rw [Advance.local_over hl] at hover
        cases hover
      refine hb.setAttempt (hb.attempts me _ hj) (fun l hl' ht => absurd ht (hlate l hl')) ?_
      rintro j ⟨⟩ hun
      rw [Advance.local_unclaimed hl] at hun
      cases hun
  | @commit me run pc pc' tx now db ret hj htx hdb ha =>
      have hset : (s.setAt me run pc').Basic := by
        refine hb.setAttempt (hb.attempts me _ hj) ?_ ?_
        · rintro l hl ht j ⟨⟩
          exact Advance.answers_over ha (((hb.late l hl).2 me ht).2 _ hj)
        · rintro j ⟨⟩ hun
          obtain ⟨rfl, -⟩ := Advance.answers_unclaimed ha hun
          exact hb.unclaimed me _ hj rfl
      refine hset.exec hdb ?_
      intro v _ ht hret
      obtain rfl : me = v := by
        rw [Advance.token_of_tx htx] at ht
        exact Option.some.inj ht
      refine ⟨hb.attempts me _ hj, ?_⟩
      intro j hj'
      have hj'' : some (⟨run, pc'⟩ : JobAttempt R) = some j := by
        rw [← hj']
        exact (Engine.setAttempt_self ..).symm
      cases hj''
      cases hun : pc'.unclaimed with
      | false => rfl
      | true => exact absurd (Advance.answers_unclaimed ha hun).2 hret
  | lost hj he => exact (hb.ended hj he).1
  | @applied a me j j' tx now db ret hj he htx hdb =>
      obtain ⟨hset, hover⟩ := hb.ended hj he
      refine hset.exec hdb ?_
      intro v _ ht _
      obtain rfl : me = v := by
        rw [Advance.token_of_tx htx] at ht
        exact Option.some.inj ht
      refine ⟨hb.attempts me j hj, ?_⟩
      intro k hk
      rw [Engine.setAttempt_self] at hk
      exact Advance.unclaimed_of_over (hover k hk)
  | @left a me j j' tx now hj he htx hl =>
      obtain ⟨hset, hover⟩ := hb.ended hj he
      constructor
      case rows => exact hset.rows
      case attempts => exact hset.attempts
      case leases => exact hset.leases
      case unclaimed => exact hset.unclaimed
      case late =>
        intro l hl'
        rcases List.mem_append.mp hl' with hmem | hmem
        · exact hset.late l hmem
        · rw [List.mem_singleton] at hmem
          subst hmem
          refine ⟨hl, ?_⟩
          intro v hv
          obtain rfl : me = v := by
            rw [Advance.token_of_tx htx] at hv
            exact Option.some.inj hv
          refine ⟨hb.attempts me j hj, ?_⟩
          intro k hk
          rw [Engine.setAttempt_self] at hk
          exact hover k hk
  | @late i now l db ret hl hdb =>
      have hmem : l ∈ s.late := List.mem_of_getElem? hl
      have hx : (s.setDb db).Basic := by
        refine hb.exec hdb ?_
        intro v _ ht _
        obtain ⟨hi, hover⟩ := (hb.late l hmem).2 v ht
        exact ⟨hi, fun j hj => Advance.unclaimed_of_over (hover j hj)⟩
      constructor
      case rows => exact hx.rows
      case attempts => exact hx.attempts
      case leases => exact hx.leases
      case unclaimed => exact hx.unclaimed
      case late =>
        intro k hk
        exact hx.late k (List.mem_of_mem_eraseIdx hk)
  | @start run kind prompt now k db hk hdb =>
      have hrow : ∀ id r, db.runs id = some r → s.db.runs id = some r ∨ r.lockedBy = none := by
        intro id r hr
        unfold Db.insertRun at hdb
        split_ifs at hdb
        cases hdb
        rw [Db.setRun_runs] at hr
        split_ifs at hr with hid
        · cases hr
          exact .inr rfl
        · exact .inl hr
      constructor
      case rows => exact hb.rows.start hdb
      case attempts => exact hb.attempts
      case late => exact hb.late
      case leases =>
        intro id r me hr hme
        rcases hrow id r hr with hr | hnone
        · exact hb.leases id r me hr hme
        · rw [hnone] at hme
          cases hme
      case unclaimed =>
        intro me j hj hun id r hr
        rcases hrow id r hr with hr | hnone
        · exact hb.unclaimed me j hj hun id r hr
        · rw [hnone]
          simp
  | refused => exact hb
  | answer h hdb => exact hb.exec hdb (by simp [Tx.isClaim])
  | cancel hdb => exact hb.exec hdb (by simp [Tx.isClaim])

theorem of_run {C : Engine R → Action R → Prop} {log : List Event}
    (h : EngineRun cfg C log s) : s.Basic :=
  h.safe init fun _ _ _ _ hb _ hs => hb.step (step_took hs)

end Engine.Basic

end Cja.Durable
