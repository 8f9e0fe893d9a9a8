import Cja.Durable.System
import Cja.Durable.Transcript
import Cja.Jobs.Exhausted

/-!
# Progress and the retry budget

An attempt that persisted an advancing step ends a retryable error by handing the run to a
fresh job and returning `Ok`. Three ways to `Err` bypass this: the terminal write after an
error of `next_step` goes to `fail_retryable` directly, a persist may be applied while its
attempt sees an error, and a requeue too. Without these, an attempt that returned `Err`
persisted no advancing step, and a dead letter stands for a whole retry budget of them.
-/
namespace Cja.Durable

open Jobs (Uuid OwnerToken)

variable {R : Rig} {qcfg : OwnerToken → Jobs.Settings} {cfg : Config}

/-- The writes whose error goes to `fail_retryable` whatever the progress. -/
def Stage.direct : Stage R → Bool
  | .projecting w | .writing w _ => w.direct
  | .failing _ direct => direct
  | _ => false

def Stage.isRequeueing : Stage R → Bool
  | .requeueing => true
  | _ => false

/-- The statement in flight at an attempt ends in an error. -/
def Engine.errs (s : Engine R) (test : Attempt → Stage R → Fate → Bool) : Action R → Bool
  | .fails me fate _ => (s.attempts me).all fun j => match j.pc with
      | .driving a st => test a st fate
      | _ => true
  | _ => true

namespace System

/-- No claim takes a job of a run from an owner. -/
def unowned (qcfg : OwnerToken → Jobs.Settings) (s : System R) (a : Jobs.Action Payload) : Bool :=
  (s.queue.claims qcfg a).all fun r => r.payload == .other || r.lockedBy.isNone

/-- Every attempt ends by returning, under its lease of the job, and requeues commit. -/
def returning (qcfg : OwnerToken → Jobs.Settings) (s : System R) : SystemAction R → Bool
  | .queue a => s.unowned qcfg a
  | .engine a _ _ => s.engine.errs (fun _ st _ => !st.isRequeueing) a
  | .leaves _ _ _ _ _ => false
  | _ => true

/-- The row of a job that returned `Ok` is deleted. -/
def deletes (job : Uuid) (s : System R) : SystemAction R → Bool
  | .queue a => a.worker.all fun w => match (s.queue.workers w).phase with
      | .succeeded k => k.jobId != job || !a.missesDelete w
      | _ => true
  | _ => true

/-- After progress no error reaches a write that bypasses the progress, and an advancing
persist that is applied is answered unless there was progress before. -/
def heeded (s : Engine R) (a : Action R) : Bool :=
  s.errs (fun attempt st _ => !(attempt.progress && st.direct)) a &&
    match a with
    | .fails me .applied now =>
        (s.persists (.fails me .applied now)).isNone ||
          s.errs (fun attempt _ _ => attempt.progress) (.fails me .applied now)
    | _ => true

/-- The steps with which progress spares the retries. -/
def sparing (qcfg : OwnerToken → Jobs.Settings) (s : System R) (a : SystemAction R) : Bool :=
  s.returning qcfg a && match a with
    | .engine a _ _ => heeded s.engine a
    | _ => true

/-- No other row of the run is in the table. -/
def onlyRow (run job : Uuid) (s : System R) : Bool :=
  s.queue.db.jobs.rows.all fun r => r.payload != .advanceRun run || r.jobId == job

/-- The job is its run's only row, until it is completed. -/
def sole (qcfg : OwnerToken → Jobs.Settings) (run job : Uuid) (s : System R)
    (a : SystemAction R) : Bool :=
  s.sparing qcfg a && s.onlyRow run job && s.deletes job a

end System

/-! ## What an attempt remembers of its progress -/

/-- The attempt knows of its progress, or returned `Ok`. -/
def Advance.progressed : Advance R → Bool
  | .driving a _ => a.progress
  | .returned ok => ok
  | _ => false

theorem Advance.progressed_retry {a : Attempt} (h : a.progress = true) :
    (Advance.retry a : Advance R).progressed = true := by
  rw [Advance.retry, if_pos h]
  exact h

theorem Advance.progressed_input {i : Input R} {pc pc' : Advance R} (h : Inputs i pc pc')
    (hp : pc.progressed = true) : pc'.progressed = true := by
  cases h with
  | stop a run => exact progressed_retry hp
  | retryable a run prepared request hr => exact progressed_retry hp
  | _ => exact hp

theorem Advance.progressed_local {s : Engine R} {me : LeaseToken} {run : Uuid} {a : Action R}
    {pc pc' : Advance R} (h : Local s me run pc a pc') (hp : pc.progressed = true) :
    pc'.progressed = true := by
  cases h with
  | readStatus => cases hp
  | readSeq => exact hp
  | @rejects pc pc' code h =>
      cases pc with
      | driving a st =>
          cases st with
          | writing w rows => cases h; exact hp
          | _ => cases h
      | closing ending snap => cases hp
      | _ => cases h
  | input h => exact progressed_input h hp

theorem Advance.progressed_landed {a : Attempt} {row : RunRow Json} {w : Write R}
    (hp : a.progress = true ∨ ∃ run next, w = .persist run true next) :
    (Advance.landed a row w).progressed = true := by
  cases w with
  | persist run advanced next =>
      have hprogress : (a.progress || advanced) = true := by
        rcases hp with hp | ⟨_, _, hw⟩
        · rw [hp, Bool.true_or]
        · cases hw
          exact Bool.or_true _
      unfold Advance.landed
      split_ifs <;> exact hprogress
  | suspend run callId question => rfl
  | finish run ending direct => rfl

theorem Advance.progressed_answer {pc pc' : Advance R} {ret : Option (RunRow Json)}
    (h : Answers cfg pc ret pc') (hp : pc.progressed = true) : pc'.progressed = true := by
  cases h with
  | claimed row => cases hp
  | unclaimed => cases hp
  | closed ending snap ret => cases hp
  | closedFailed code ret => cases hp
  | landed a w rows row => exact progressed_landed (.inl hp)
  | abandoned a ret => exact progressed_retry hp
  | beatCancelled => exact hp
  | beat => exact hp
  | released => cases hp
  | _ => rfl

/-- An error leaves the progress known where no bypass is taken. -/
theorem Advance.progressed_errored {a : Attempt} {st : Stage R} (hp : a.progress = true)
    (hdirect : st.direct = false) (hrequeue : st.isRequeueing = false) :
    (Advance.driving a st).errored.progressed = true := by
  have hretry := progressed_retry (R := R) hp
  cases st with
  | projecting w => rw [errored, giveUp, show w.direct = false from hdirect]; exact hretry
  | writing w rows => rw [errored, giveUp, show w.direct = false from hdirect]; exact hretry
  | failing code direct => rw [errored, giveUp, show direct = false from hdirect]; exact hretry
  | beating g => exact hretry
  | abandoning => exact hretry
  | requeueing => cases hrequeue
  | _ => exact hp

theorem Engine.errs_driving {s : Engine R} {test : Attempt → Stage R → Fate → Bool}
    {me : LeaseToken} {fate : Fate} {now : ℕ} {run : Uuid} {a : Attempt} {st : Stage R}
    (h : s.errs test (.fails me fate now) = true)
    (hj : s.attempts me = some ⟨run, .driving a st⟩) : test a st fate = true := by
  simpa [Engine.errs, hj] using h

theorem Engine.persists_actor {s : Engine R} {a : Action R} {me : LeaseToken}
    (h : s.persists a = some me) : a.actor = some me := by
  unfold Engine.persists at h
  split at h
  · split_ifs at h; exact h
  · split_ifs at h; exact h
  · split_ifs at h; exact h
  · cases h

theorem Engine.persists_any {s : Engine R} {a : Action R} {me : LeaseToken}
    (h : s.persists a = some me) : ((s.attempts me).any fun j =>
      j.pc.advancing && (s.db.runs j.run).any (RunRow.leasedBy me)) = true := by
  unfold Engine.persists at h
  split at h
  · split_ifs at h with ht; cases h; exact ht
  · split_ifs at h with ht; cases h; exact ht
  · split_ifs at h with ht; cases h; exact ht
  · cases h

/-- An advancing persist that matches is in flight under the lease. -/
theorem Engine.persists_spec {s : Engine R} {a : Action R} {me : LeaseToken} {run : Uuid}
    {pc : Advance R} (h : s.persists a = some me) (hj : s.attempts me = some ⟨run, pc⟩) :
    ∃ att agentRun next rows r, pc = .driving att (.writing (.persist agentRun true next) rows) ∧
      s.db.runs run = some r ∧ r.leasedBy me = true := by
  have htest := Engine.persists_any h
  rw [hj, Option.any_some, Bool.and_eq_true, Option.any_eq_true] at htest
  obtain ⟨hadv, r, hr, hl⟩ := htest
  unfold Advance.advancing at hadv
  split at hadv
  · subst hadv
    next hpc => exact ⟨_, _, _, _, r, hpc, hr, hl⟩
  · cases hadv

/-- An attempt that made progress, or persists an advancing step now, knows of it after. -/
theorem Took.progressed {s s' : Engine R} {a : Action R} {es : List Event}
    (h : Took cfg s a s' es) (hbody : a.fromBody = true)
    (hrequeue : s.errs (fun _ st _ => !st.isRequeueing) a = true)
    (hheed : System.heeded s a = true) {me : LeaseToken} {run : Uuid} {pc : Advance R}
    (hj : s.attempts me = some ⟨run, pc⟩)
    (hp : pc.progressed = true ∨ s.persists a = some me) :
    ∃ pc', s'.attempts me = some ⟨run, pc'⟩ ∧ pc'.progressed = true := by
  by_cases hact : a.actor = some me
  swap
  · rw [h.attempts_other hact]
    exact ⟨pc, hj, hp.resolve_right fun hper => hact (Engine.persists_actor hper)⟩
  have hended : ∀ {j : JobAttempt R} {j' : Option (JobAttempt R)} {fate : Fate} {now : ℕ}
      {v : LeaseToken} {t : Engine R}, s.attempts v = some j → Ended cfg v j fate now a j' →
      ∃ pc', (t.setAttempt v j').attempts me = some ⟨run, pc'⟩ ∧ pc'.progressed = true := by
    intro j j' fate now v t hv he
    cases he with
    | vanish => cases hbody
    | fails hawait =>
        obtain rfl := Option.some.inj hact
        rw [hj] at hv
        cases hv
        refine ⟨pc.errored, Engine.setAttempt_self .., ?_⟩
        simp only [System.heeded, Bool.and_eq_true] at hheed
        obtain ⟨hdirect, happlied⟩ := hheed
        have hdriving : ∀ {att : Attempt} {st : Stage R}, pc = .driving att st →
            att.progress = true → pc.errored.progressed = true := by
          rintro att st rfl hprogress
          have hd := Engine.errs_driving hdirect hj
          have hr := Engine.errs_driving hrequeue hj
          simp only [hprogress, Bool.true_and, Bool.not_eq_true'] at hd hr
          exact Advance.progressed_errored hprogress hd hr
        rcases hp with hp | hper
        · cases pc with
          | driving att st => exact hdriving rfl hp
          | returned ok => cases hawait
          | _ => cases hp
        · obtain ⟨att, agentRun, next, rows, r, rfl, -, -⟩ := Engine.persists_spec hper hj
          refine hdriving rfl ?_
          cases fate with
          | applied =>
              have hknown := happlied
              simp only [hper, Option.isNone_some, Bool.false_or] at hknown
              exact Engine.errs_driving hknown hj
          | _ => cases hper
  cases h with
  | begin => cases hbody
  | @here a v run' pc₀ pc' hv hl =>
      have hv' : v = me := by cases hl <;> exact Option.some.inj hact
      subst hv'
      rw [hj] at hv
      cases hv
      refine ⟨pc', Engine.setAttempt_self .., Advance.progressed_local hl ?_⟩
      refine hp.resolve_right fun hper => ?_
      cases hl <;> cases hper
  | @commit v run' pc₀ pc' tx now db ret hv htx hdb ha =>
      obtain rfl := Option.some.inj hact
      rw [hj] at hv
      cases hv
      refine ⟨pc', Engine.setAttempt_self .., ?_⟩
      rcases hp with hp | hper
      · exact Advance.progressed_answer ha hp
      · obtain ⟨att, agentRun, next, rows, r, rfl, hr, hl⟩ := Engine.persists_spec hper hj
        cases ha with
        | landed a w rows row => exact Advance.progressed_landed (.inr ⟨_, _, rfl⟩)
        | outrun a w rows => rfl
  | lost hv he => exact hended hv he
  | applied hv he htx hdb => exact hended hv he
  | left hv he htx hl => exact hended hv he
  | _ => cases hact

/-- An attempt that returned does nothing more. -/
theorem Took.returned {s s' : Engine R} {a : Action R} {es : List Event}
    (h : Took cfg s a s' es) (hbody : a.fromBody = true) {me : LeaseToken} {run : Uuid} {ok : Bool}
    (hj : s.attempts me = some ⟨run, .returned ok⟩) :
    s'.attempts me = some ⟨run, .returned ok⟩ := by
  have hended : ∀ {j : JobAttempt R} {j' : Option (JobAttempt R)} {fate : Fate} {now : ℕ}
      {v : LeaseToken}, s.attempts v = some j → Ended cfg v j fate now a j' → me ≠ v := by
    rintro j j' fate now v hv he rfl
    rw [hj] at hv
    cases hv
    cases he with
    | fails hawait => cases hawait
    | vanish => cases hbody
  have hne : ∀ {v : LeaseToken} {run' : Uuid} {pc pc' : Advance R},
      s.attempts v = some ⟨run', pc⟩ → Local s v run' pc a pc' → me ≠ v := by
    rintro v run' pc pc' hv hl rfl
    rw [hj] at hv
    cases hv
    cases hl with
    | rejects h => cases h
    | input h => cases h
  cases h with
  | begin => cases hbody
  | here hv hl => rw [Engine.setAt, Engine.setAttempt_other _ _ (hne hv hl)]; exact hj
  | @commit v run' pc pc' tx now db ret hv htx hdb ha =>
      have hvm : me ≠ v := by
        rintro rfl
        rw [hj] at hv
        cases hv
        cases htx
      rw [Engine.setAt, Engine.setAttempt_other _ _ hvm]
      exact hj
  | lost hv he => rw [Engine.setAttempt_other _ _ (hended hv he)]; exact hj
  | applied hv he htx hdb => rw [Engine.setAttempt_other _ _ (hended hv he)]; exact hj
  | left hv he htx hl => rw [Engine.setAttempt_other _ _ (hended hv he)]; exact hj
  | _ => exact hj

/-! ## Attempts that returned -/

/-- What the attempts know of what the log says of them. -/
structure System.Truthful (log : List SystemEvent) (s : System R) : Prop where
  persisted : ∀ me, .persisted me ∈ log →
    ∃ run pc, s.engine.attempts me = some ⟨run, pc⟩ ∧ pc.progressed = true
  erred : ∀ me job run, .ended me job run false ∈ log →
    ∃ run', s.engine.attempts me = some ⟨run', .returned false⟩

theorem System.Truthful.step {s s' : System R} {a : SystemAction R} {log es : List SystemEvent}
    (ht : System.Truthful log s) (hb : s.engine.Basic) (hc : s.sparing qcfg a = true)
    (h : System.Took qcfg cfg s a s' es) : System.Truthful (log ++ es) s' := by
  obtain ⟨hreturn, hspare⟩ := Bool.and_eq_true_iff.1 hc
  cases h with
  | queue hown hq hkeep =>
      refine ⟨fun me he => ht.persisted me ?_, fun me job run he => ht.erred me job run ?_⟩ <;>
        simpa using he
  | @engine a jobId createdAt e ees q qes hbody he hq =>
      have htook := Durable.step_took he
      refine ⟨fun me hmem => ?_, fun me job run hmem => ?_⟩
      · have hprogress : .persisted me ∈ log ∨ s.engine.persists a = some me := by
          simpa [Engine.persistedEvents] using hmem
        rcases hprogress with hold | hper
        · obtain ⟨run, pc, hj, hp⟩ := ht.persisted me hold
          obtain ⟨pc', hj', hp'⟩ := htook.progressed hbody hreturn hspare hj (.inl hp)
          exact ⟨run, pc', hj', hp'⟩
        · cases hj : s.engine.attempts me with
          | none =>
              have htest := Engine.persists_any hper
              rw [hj] at htest
              cases htest
          | some j =>
              obtain ⟨pc', hj', hp'⟩ := htook.progressed hbody hreturn hspare hj (.inr hper)
              exact ⟨j.run, pc', hj', hp'⟩
      · have hold : .ended me job run false ∈ log := by
          simpa [Engine.persistedEvents] using hmem
        obtain ⟨run', hj⟩ := ht.erred me job run hold
        exact ⟨run', htook.returned hbody hj⟩
  | @advance w me job run hjob hnone hpayload hme =>
      have hother : ∀ {v : LeaseToken} {j : JobAttempt R}, s.engine.attempts v = some j →
          (s.engine.setAt me run .claiming).attempts v = some j := by
        intro v j hj
        have hne : v ≠ me := by
          rintro rfl
          exact hme (hb.attempts v j hj)
        rw [Engine.setAt, Engine.setAttempt_other _ _ hne, hj]
      rw [List.append_nil]
      refine ⟨fun v hv => ?_, fun v job run hv => ?_⟩
      · obtain ⟨run', pc, hj, hp⟩ := ht.persisted v hv
        exact ⟨run', pc, hother hj, hp⟩
      · obtain ⟨run', hj⟩ := ht.erred v job run hv
        exact ⟨run', hother hj⟩
  | @returns w message me run ok job q es hjob hme hreturned hq =>
      refine ⟨fun v hv => ht.persisted v (by simpa using hv), fun v job' run' hv => ?_⟩
      have hcases : .ended v job' run' false ∈ log ∨
          v = me ∧ job' = job.jobId ∧ run' = run ∧ ok = false := by
        simpa using hv
      rcases hcases with hold | ⟨rfl, -, -, rfl⟩
      · exact ht.erred v job' run' hold
      · exact ⟨run, hreturned⟩
  | leaves => cases hreturn

theorem truthful_of_run {C : System R → SystemAction R → Prop} {log : List SystemEvent}
    {s : System R} (hC : ∀ s a, C s a → s.sparing qcfg a = true)
    (h : SystemRun qcfg cfg C log s) : System.Truthful log s := by
  refine h.invariant (I := System.Truthful) ⟨by simp, by simp⟩ ?_
  intro log s a s' es hrun ht hc hs
  exact ht.step (SystemRun.basic hrun) (hC s a hc) (System.step_took hs)

/-- An attempt that returned an error persisted no advancing step. -/
theorem System.Truthful.unprogressed {log : List SystemEvent} {s : System R}
    (ht : System.Truthful log s) {me : LeaseToken} {job run : Uuid}
    (he : .ended me job run false ∈ log) : .persisted me ∉ log := by
  intro hp
  obtain ⟨run', hj⟩ := ht.erred me job run he
  obtain ⟨run'', pc, hj', hprogress⟩ := ht.persisted me hp
  rw [hj] at hj'
  cases hj'
  cases hprogress

/-! ## What an attempt leaves at its row -/

/-- How many attempts of the job returned an error. -/
def erredOf (job : Uuid) (log : List SystemEvent) : ℕ :=
  log.countP fun e => match e with
    | .ended _ k _ false => k == job
    | _ => false

@[simp] theorem erredOf_append (job : Uuid) (log es : List SystemEvent) :
    erredOf job (log ++ es) = erredOf job log + erredOf job es := List.countP_append

@[simp] theorem erredOf_queue (job : Uuid) (es : List Jobs.Event) :
    erredOf job (es.map .queue) = 0 := by
  simp [erredOf]

@[simp] theorem erredOf_engine (job : Uuid) (es : List Event) :
    erredOf job (es.map .engine) = 0 := by
  simp [erredOf]

@[simp] theorem erredOf_persisted (job : Uuid) (s : Engine R) (a : Action R) :
    erredOf job (s.persistedEvents a) = 0 := by
  simp [erredOf, Engine.persistedEvents]

theorem Inserts.events {q q' : Jobs.State Payload} {es : List Event} {qes : List Jobs.Event}
    (h : Inserts qcfg q es q' qes) : qes = [] ∨ ∃ job, qes = [.inserted job] := by
  cases h with
  | nothing => exact .inl rfl
  | job h hn hq =>
      cases Jobs.step_took hq with
      | enqueue => exact .inr ⟨_, rfl⟩

section

variable {s s' : System R} {a : SystemAction R} {log es : List SystemEvent}
variable {pay : Uuid → Option Payload} {job : Uuid} {N : ℕ}

/-- No claim takes the row of a run's job from an owner. -/
theorem System.unowned_job (hcar : s.queue.Carries pay) (hjob : pay job ≠ some .other)
    {a : Jobs.Action Payload} (hunowned : s.unowned qcfg a = true) :
    s.queue.Unowned qcfg job a := by
  intro r hr hid
  have hlookup : s.queue.db.jobs.lookup r.jobId = some r := by
    unfold Jobs.State.claims at hr
    split at hr
    · exact (Jobs.candidate_spec hr).1
    · split_ifs at hr
      exact (Jobs.candidate_spec hr).1
    · cases hr
  have hpay := hcar.db.row _ _ hlookup
  simp only [System.unowned, hr, Option.all_some, Bool.or_eq_true, beq_iff_eq] at hunowned
  rcases hunowned with hother | hnone
  · rw [hid, hother] at hpay
    exact absurd hpay hjob
  · exact Option.isNone_iff_eq_none.1 hnone

theorem System.deletes_job {a : Jobs.Action Payload}
    (hdeletes : s.deletes job (.queue a) = true) : s.queue.Deletes job a := by
  intro w k hp hid
  by_cases hw : a.worker = some w
  · simpa [System.deletes, hw, hp, hid] using hdeletes
  · unfold Jobs.Action.missesDelete
    split
    · exact beq_eq_false_iff_ne.2 fun he => hw (congrArg some he)
    · exact beq_eq_false_iff_ne.2 fun he => hw (congrArg some he)
    · exact beq_eq_false_iff_ne.2 fun he => hw (congrArg some he)
    · rfl

/-- A step of the system takes one step of the queue, or none. -/
theorem System.Took.queue_step (h : System.Took qcfg cfg s a s' es)
    (hc : s.sparing qcfg a = true) (hcar : s.queue.Carries pay) :
    (s'.queue = s.queue ∧ queueLog es = []) ∨
      ∃ b, Jobs.step qcfg s.queue b = some (s'.queue, queueLog es) ∧
        ∀ job, (pay job ≠ some .other → s.queue.Unowned qcfg job b) ∧
          (s.deletes job a = true → s.queue.Deletes job b) := by
  obtain ⟨hreturn, hspare⟩ := Bool.and_eq_true_iff.1 hc
  cases h with
  | queue hown hq hkeep =>
      exact .inr ⟨_, by rwa [queueLog_queue], fun job =>
        ⟨fun hjob => unowned_job hcar hjob hreturn, deletes_job⟩⟩
  | engine hbody he hq =>
      simp only [queueLog_append, queueLog_queue, queueLog_engine, queueLog_persisted,
        List.nil_append]
      cases hq with
      | nothing => exact .inl ⟨rfl, rfl⟩
      | job h hn hq =>
          exact .inr ⟨_, hq, fun _ => ⟨fun _ r hr => by simp [Jobs.State.claims] at hr, fun _ _ _ _ _ => rfl⟩⟩
  | advance => exact .inl ⟨rfl, rfl⟩
  | @returns w message me run ok job q qes hbody hme hreturned hq =>
      refine .inr ⟨.bodyReturns w (if ok then none else some message), ?_,
        fun _ => ⟨fun _ r hr => by simp [Jobs.State.claims] at hr, fun _ _ _ _ _ => rfl⟩⟩
      rwa [queueLog_ended, queueLog_queue]
  | leaves => cases hreturn

/-- A body of a run's job returns with its attempt. -/
theorem System.Took.erred (h : System.Took qcfg cfg s a s' es) (hc : s.sparing qcfg a = true)
    (hcar : s.queue.Carries pay) (hjob : pay job ≠ some .other) :
    Jobs.errorsOf job (queueLog es) = erredOf job es := by
  cases h with
  | @queue a q qes hown hq hkeep =>
      rw [queueLog_queue, erredOf_queue, Jobs.errorsOf, List.countP_eq_zero]
      intro e he hcount
      split at hcount
      · next w k ok owned =>
          rw [Bool.and_eq_true, beq_iff_eq] at hcount
          obtain ⟨rfl, -⟩ := hcount
          obtain ⟨error, job', tracker, nextTick, beat, rfl, hp, hid, -⟩ :=
            (Jobs.step_took hq).returned_body he
          have hpay := hcar.job w job' (by rw [hp]; rfl)
          rw [System.ownAction, hp, Jobs.Phase.body?, Option.all_some, beq_iff_eq] at hown
          rw [hid, hown] at hpay
          exact hjob hpay
      · cases hcount
  | engine hbody he hq =>
      simp only [queueLog_append, queueLog_queue, queueLog_engine, queueLog_persisted,
        erredOf_append, erredOf_queue, erredOf_engine, erredOf_persisted, List.nil_append]
      rcases hq.events with rfl | ⟨k, rfl⟩ <;> rfl
  | advance => rfl
  | @returns w message me run ok job' q qes hbody hme hreturned hq =>
      obtain rfl := returned_of_body hbody hq
      rw [queueLog_ended, queueLog_queue]
      by_cases hid : job'.jobId = job <;> cases ok <;> simp [Jobs.errorsOf, erredOf, hid]
  | leaves => cases (Bool.and_eq_true_iff.1 hc).1

/-- What the queue knows of the attempts that returned. -/
structure System.Accounted (N : ℕ) (pay : Uuid → Option Payload) (log : List SystemEvent)
    (s : System R) : Prop where
  carries : s.queue.Carries pay
  retries : ∀ job, pay job ≠ some .other → s.queue.Retries N job (queueLog log)
  erred : ∀ job, pay job ≠ some .other → Jobs.errorsOf job (queueLog log) = erredOf job log
  ended : ∀ me job run ok, .ended me job run ok ∈ log → pay job = some (.advanceRun run)

/-- An attempt that returned was the body of a job of its run. -/
theorem System.Took.ended (h : System.Took qcfg cfg s a s' es) (hc : s.sparing qcfg a = true)
    (hl : s.Linked) (hcar : s.queue.Carries pay) {me : LeaseToken} {run : Uuid} {ok : Bool}
    (he : .ended me job run ok ∈ es) : pay job = some (.advanceRun run) ∧
      (∃ w k, (s.queue.workers w).phase.job? = some k ∧ k.jobId = job) ∧
      ∃ w owned, .returned w job ok owned ∈ queueLog es := by
  cases h with
  | queue => simp at he
  | engine => simp [Engine.persistedEvents] at he
  | advance => cases he
  | @returns w message me' run' ok' job' q qes hbody hme hreturned hq =>
      obtain rfl := returned_of_body hbody hq
      obtain ⟨rfl, rfl, rfl, rfl⟩ : me = me' ∧ job = job'.jobId ∧ run = run' ∧ ok = ok' := by
        simpa using he
      obtain ⟨k, r, pc, hk, hpayload, hj⟩ := hl.body w me hme
      rw [hbody] at hk
      cases hk
      rw [hreturned] at hj
      cases hj
      have hjob := Jobs.Phase.job?_of_body? hbody
      refine ⟨(hcar.job w job' hjob).trans (congrArg some hpayload), ⟨w, job', hjob, rfl⟩, w,
        s.queue.owns w job'.jobId, ?_⟩
      rw [queueLog_ended, queueLog_queue]
      exact List.mem_singleton_self _
  | leaves => cases (Bool.and_eq_true_iff.1 hc).1

theorem System.Accounted.init : (System.init : System R).Accounted N (fun _ => none) [] where
  carries := .init
  retries _ _ := .init
  erred _ _ := rfl
  ended := by simp

theorem System.Accounted.step (hI : s.Accounted N pay log) (hl : s.Linked)
    (hsim : ∀ job, ∃ L, Jobs.Sim job s.queue L) (hmax : ∀ w, N ≤ (qcfg w).maxRetries)
    (hc : s.sparing qcfg a = true) (h : System.Took qcfg cfg s a s' es) :
    ∃ pay', s'.Accounted N pay' (log ++ es) ∧ ∀ job p, pay job = some p → pay' job = some p := by
  have hended : ∀ {pay' : Uuid → Option Payload}, (∀ job p, pay job = some p → pay' job = some p) →
      ∀ me job run ok, .ended me job run ok ∈ log ++ es → pay' job = some (.advanceRun run) := by
    intro pay' hpay me job run ok he
    rcases List.mem_append.1 he with he | he
    · exact hpay _ _ (hI.ended me job run ok he)
    · exact hpay _ _ (h.ended hc hl hI.carries he).1
  have herred : ∀ job, pay job ≠ some .other →
      Jobs.errorsOf job (queueLog (log ++ es)) = erredOf job (log ++ es) := by
    intro job hjob
    rw [queueLog_append, Jobs.errorsOf_append, erredOf_append, hI.erred job hjob,
      h.erred hc hI.carries hjob]
  rcases h.queue_step hc hI.carries with ⟨hq, hes⟩ | ⟨b, hq⟩
  · refine ⟨pay, ⟨hq ▸ hI.carries, fun job hjob => ?_, herred, hended fun _ _ => id⟩,
      fun _ _ => id⟩
    rw [queueLog_append, hes, List.append_nil, hq]
    exact hI.retries job hjob
  · obtain ⟨pay', hcar, hpay⟩ := (Jobs.step_took hq.1).carries hI.carries
    have hback : ∀ {job : Uuid}, pay' job ≠ some .other → pay job ≠ some .other :=
      fun hne he => hne (hpay _ _ he)
    refine ⟨pay', ⟨hcar, fun job hjob => ?_, fun job hjob => herred job (hback hjob),
      hended hpay⟩, hpay⟩
    obtain ⟨L, hL⟩ := hsim job
    rw [queueLog_append]
    exact (hI.retries job (hback hjob)).step hL hmax ((hq.2 job).1 (hback hjob)) hq.1

end

theorem sims_of_run {C : System R → SystemAction R → Prop} {log : List SystemEvent}
    {s : System R} (h : SystemRun qcfg cfg C log s) (job : Uuid) :
    ∃ L, Jobs.Sim job s.queue L := by
  obtain ⟨L, -, hL⟩ := Jobs.Sim.of_run job (SystemRun.queueFree h)
  exact ⟨L, hL⟩

theorem accounted_of_run {C : System R → SystemAction R → Prop} {N : ℕ} {log : List SystemEvent}
    {s : System R} (hC : ∀ s a, C s a → s.sparing qcfg a = true)
    (hmax : ∀ w, N ≤ (qcfg w).maxRetries) (h : SystemRun qcfg cfg C log s) :
    ∃ pay, s.Accounted N pay log := by
  refine h.invariant (I := fun log s => ∃ pay, System.Accounted N pay log s) ⟨_, .init⟩ ?_
  rintro log s a s' es hrun ⟨pay, hI⟩ hc hs
  obtain ⟨pay', hI', -⟩ :=
    hI.step (SystemRun.linked hrun) (sims_of_run hrun) hmax (hC s a hc) (System.step_took hs)
  exact ⟨pay', hI'⟩

/-! ## A run's only row -/

/-- The attempts of the run that returned, in order. -/
def endsOf (run : Uuid) (log : List SystemEvent) : List (LeaseToken × Uuid × Bool) :=
  log.filterMap fun e => match e with
    | .ended me job r ok => if r = run then some (me, job, ok) else none
    | _ => none

theorem mem_endsOf {run job : Uuid} {log : List SystemEvent} {me : LeaseToken} {ok : Bool} :
    (me, job, ok) ∈ endsOf run log ↔ .ended me job run ok ∈ log := by
  rw [endsOf, List.mem_filterMap]
  refine ⟨?_, fun he => ⟨_, he, if_pos rfl⟩⟩
  rintro ⟨e, he, hsome⟩
  split at hsome
  · split_ifs at hsome with hr
    cases hsome
    exact hr ▸ he
  · cases hsome

section

variable {N : ℕ} {run job : Uuid} {log₁ log₂ : List SystemEvent} {s₁ s₂ : System R}

theorem System.sole_spec {s : System R} {a : SystemAction R}
    (h : s.sole qcfg run job a = true) :
    s.sparing qcfg a = true ∧ s.onlyRow run job = true ∧ s.deletes job a = true := by
  simpa only [System.sole, Bool.and_eq_true, and_assoc] using h

/-- While the run has one row, its attempts that return are of that row's job, and one that
returns `Ok` completes the job. -/
theorem ended_of_sole (hmax : ∀ w, N ≤ (qcfg w).maxRetries)
    (h₁ : SystemRun qcfg cfg (fun s a => s.sparing qcfg a = true) log₁ s₁)
    (h₂ : StepRun.Run (System.step qcfg cfg)
      (fun s a => s.sole qcfg run job a = true) s₁ log₂ s₂) :
    (∀ me k ok, .ended me k run ok ∈ log₂ → k = job) ∧
      ((∃ me, .ended me job run true ∈ log₂) → s₂.queue.Completes job) := by
  induction h₂ with
  | start => exact ⟨by simp, by simp⟩
  | @snoc log es s s' a hrun hc hs ih =>
      obtain ⟨hspare, honly, hdel⟩ := System.sole_spec hc
      have hbefore := h₁.trans (hrun.mono fun _ _ hc => (System.sole_spec hc).1)
      have htook := System.step_took hs
      obtain ⟨pay, hI⟩ := accounted_of_run (fun _ _ => id) hmax hbefore
      have hnew : ∀ me k ok, .ended me k run ok ∈ es → k = job := by
        intro me k ok he
        obtain ⟨hpay, ⟨w, k', hk, rfl⟩, -⟩ :=
          htook.ended hspare (SystemRun.linked hbefore) hI.carries he
        -- the worker holds the row of the job, and the run has no other
        have hown := (hI.retries k'.jobId (by simp [hpay])).held w k' hk rfl
        obtain ⟨r, hr, -⟩ := Jobs.Db.ownerOf_eq_some.1 hown
        have hrow := hI.carries.db.row _ _ hr
        rw [hpay, Option.some.injEq] at hrow
        have honly' := List.all_eq_true.1 honly r (KeyedTable.mem_of_lookup hr)
        rw [← hrow, KeyedTable.key_of_lookup hr] at honly'
        simpa using honly'
      refine ⟨fun me k ok he => ?_, ?_⟩
      · rcases List.mem_append.1 he with he | he
        · exact ih.1 me k ok he
        · exact hnew me k ok he
      rintro ⟨me, he⟩
      obtain ⟨L, hsim⟩ := sims_of_run hbefore job
      rcases List.mem_append.1 he with he | he
      · have hpay := hI.ended me job run true (List.mem_append_right _ he)
        rcases htook.queue_step hspare hI.carries with ⟨hq, -⟩ | ⟨b, hq, hb⟩
        · rw [hq]
          exact ih.2 ⟨me, he⟩
        · exact (ih.2 ⟨me, he⟩).step hsim (hI.retries job (by simp [hpay])).held ((hb job).2 hdel)
            (Jobs.step_took hq)
      · obtain ⟨hpay, -, w, owned, hr⟩ :=
          htook.ended hspare (SystemRun.linked hbefore) hI.carries he
        rcases htook.queue_step hspare hI.carries with ⟨-, hes⟩ | ⟨b, hq, hb⟩
        · rw [hes] at hr
          cases hr
        · exact (Jobs.step_took hq).completes hsim (hI.retries job (by simp [hpay])).held hr

theorem erredOf_le_endsOf (h : ∀ me r, .ended me job r false ∈ log₂ → r = run) :
    erredOf job log₂ ≤ (endsOf run log₂).length := by
  unfold erredOf endsOf
  rw [List.length_filterMap_eq_countP]
  refine List.countP_mono_left fun e he hcount => ?_
  split at hcount
  · next me k r =>
      obtain rfl := beq_iff_eq.1 hcount
      simp [h me r he]
  · cases hcount

/-- A dead letter of a run's only row stands for `N + 1` attempts in a row, of which none
persisted an advancing step. -/
theorem unprogressed_of_deadLetter (hmax : ∀ w, N ≤ (qcfg w).maxRetries)
    (h₁ : SystemRun qcfg cfg (fun s a => s.sparing qcfg a = true) log₁ s₁)
    (h₂ : StepRun.Run (System.step qcfg cfg)
      (fun s a => s.sole qcfg run job a = true) s₁ log₂ s₂)
    (hnew : ∀ me r ok, .ended me job r ok ∉ log₁) {d : Jobs.DeadLetterRow Payload}
    (hd : d ∈ s₂.queue.db.deadOf job) (hpayload : d.payload = .advanceRun run) :
    N + 1 ≤ (endsOf run log₂).length ∧ ∀ e ∈ endsOf run log₂,
      e.2.1 = job ∧ e.2.2 = false ∧ .persisted e.1 ∉ log₁ ++ log₂ := by
  have hrun := h₁.trans (h₂.mono fun _ _ hc => (System.sole_spec hc).1)
  have htruth := truthful_of_run (fun _ _ => id) hrun
  obtain ⟨pay, hI⟩ := accounted_of_run (fun _ _ => id) hmax hrun
  have hid : d.originalJobId = job := by simpa using (List.mem_filter.1 hd).2
  have hpay : pay job = some (.advanceRun run) := by
    rw [← hid, hI.carries.db.dead d (List.mem_filter.1 hd).1, hpayload]
  have hjob : pay job ≠ some .other := by simp [hpay]
  obtain ⟨L, hlog, hsim⟩ := Jobs.Sim.of_run job (SystemRun.queueFree hrun)
  have hcount := (hI.retries job hjob).errors hlog hsim hd
  obtain ⟨hof, hcompletes⟩ := ended_of_sole hmax h₁ h₂
  have hnone : erredOf job log₁ = 0 := by
    refine List.countP_eq_zero.2 fun e he hc => ?_
    split at hc
    · next me k r =>
        obtain rfl := beq_iff_eq.1 hc
        exact hnew me r false he
    · cases hc
  rw [hI.erred job hjob, erredOf_append, hnone, Nat.zero_add] at hcount
  refine ⟨Nat.le_trans hcount (erredOf_le_endsOf fun me r he => ?_), ?_⟩
  · have hended := hI.ended me job r false (List.mem_append_right _ he)
    rw [hpay] at hended
    cases hended
    rfl
  · rintro ⟨me, k, ok⟩ he
    rw [mem_endsOf] at he
    obtain rfl := hof me k ok he
    cases ok with
    | true =>
        rw [(hcompletes ⟨me, he⟩).1] at hd
        cases hd
    | false => exact ⟨rfl, rfl, htruth.unprogressed (List.mem_append_right log₁ he)⟩

end

/-- Progress spares the retries: the charges of a run's row are no more than its attempts
that returned an error, none of which persisted an advancing step, and while the row is the
only one of its run, a dead letter takes `N + 1` of them in a row. -/
theorem progress_spares_retries {N : ℕ} (hmax : ∀ w, (qcfg w).maxRetries = N) :
    (∀ (log : List SystemEvent) (s : System R),
      SystemRun qcfg cfg (fun s a => s.sparing qcfg a = true) log s →
      (∀ me job run, .ended me job run false ∈ log → .persisted me ∉ log) ∧
      ∀ r ∈ s.queue.db.jobs.rows, ∀ run, r.payload = .advanceRun run →
        r.errorCount ≤ erredOf r.jobId log) ∧
    ∀ (log₁ log₂ : List SystemEvent) (s₁ s₂ : System R) (run job : Uuid),
      SystemRun qcfg cfg (fun s a => s.sparing qcfg a = true) log₁ s₁ →
      StepRun.Run (System.step qcfg cfg) (fun s a => s.sole qcfg run job a = true) s₁ log₂ s₂ →
      (∀ me r ok, .ended me job r ok ∉ log₁) →
      ∀ d ∈ s₂.queue.db.deadOf job, d.payload = .advanceRun run →
        N + 1 ≤ (endsOf run log₂).length ∧ ∀ e ∈ endsOf run log₂,
          e.2.1 = job ∧ e.2.2 = false ∧ .persisted e.1 ∉ log₁ ++ log₂ := by
  have hle : ∀ w, N ≤ (qcfg w).maxRetries := fun w => Nat.le_of_eq (hmax w).symm
  refine ⟨fun log s hrun => ⟨fun me job run he => ?_, fun r hr run hpayload => ?_⟩, ?_⟩
  · exact (truthful_of_run (fun _ _ => id) hrun).unprogressed he
  · obtain ⟨pay, hI⟩ := accounted_of_run (fun _ _ => id) hle hrun
    have hlookup := KeyedTable.lookup_of_mem hr
    have hpay := hI.carries.db.row _ _ hlookup
    have hjob : pay r.jobId ≠ some .other := by simp [hpay, hpayload]
    obtain ⟨L, hlog, hsim⟩ := Jobs.Sim.of_run r.jobId (SystemRun.queueFree hrun)
    rw [← hI.erred _ hjob]
    exact (hI.retries _ hjob).charged hlog hsim hlookup
  · intro log₁ log₂ s₁ s₂ run job h₁ h₂ hnew d hd hpayload
    exact unprogressed_of_deadLetter hle h₁ h₂ hnew hd hpayload

/-! ## Runs -/

/-- Workers that retry once. -/
def retryOnce : OwnerToken → Jobs.Settings := fun _ => .default 1 (by decide)

/-- An attempt whose claim of the run is lost, so that the job is charged. -/
def unclaimed (me : LeaseToken) (now : ℕ) : List (SystemAction R) :=
  claimsJob 1 me now ++ engineSteps 9 [.fails me .lost now, .commit me now] ++
    [.returns 1 "claim timed out", .queue (.finish 1 now true)]

/-- Both attempts fail to claim the run. -/
def unclaimedRun : List (SystemAction Rig.scripted) :=
  engineSteps 9 [.start 1 "greeter" "greet me" 0] ++ unclaimed 7 0 ++
    [.queue (.tick 3000000000)] ++ unclaimed 8 3000000

theorem progress_spares_retries_unclaimed : ∃ (log : List SystemEvent) (s : System Rig.scripted),
    SystemRun retryOnce scriptedConfig (fun s a => s.sparing retryOnce a = true) log s ∧
      s.queue.db.deadOf 9 ≠ [] ∧ 2 ≤ (endsOf 1 log).length ∧
      ∀ e ∈ endsOf 1 log, e.2.1 = 9 ∧ e.2.2 = false ∧ .persisted e.1 ∉ log := by
  obtain ⟨log, s, hrun, hdone⟩ := StepRun.exists_run (System.step retryOnce scriptedConfig)
    (fun s a => s.sole retryOnce 1 9 a) System.init unclaimedRun
    (fun _ s => (s.queue.db.deadOf 9).any fun d => d.payload == .advanceRun 1) (by decide +kernel)
  obtain ⟨d, hd, hpayload⟩ := List.any_eq_true.1 hdone
  have hspare := @progress_spares_retries Rig.scripted retryOnce scriptedConfig 1 fun _ => rfl
  obtain ⟨hends, hall⟩ :=
    hspare.2 [] log .init s 1 9 .start hrun (by simp) d hd (beq_iff_eq.1 hpayload)
  exact ⟨log, s, hrun.mono fun _ _ hc => (System.sole_spec hc).1, List.ne_nil_of_mem hd, hends,
    hall⟩

/-- The turns are used up by one model call. -/
def Rig.exhausted : Rig :=
  { Rig.scripted with
    nextStep := fun n => (n, if (show ℕ from n) = 1 then
      .ok (.callModel (.user, "greet me") [] (show ℕ from 0))
      else .error .maxTurns) }

/-- The model's reply is persisted, and the write that fails the run is lost. -/
def exhaustedRun : List (SystemAction Rig.exhausted) :=
  engineSteps 9 [.start 1 "greeter" "greet me" 0] ++ claimsJob 1 7 0 ++
    engineSteps 9 [.commit 7 1, .input 7 .proceed, .readSeq 7, .commit 7 2,
      .input 7 (.reply (.ok "hi")), .readSeq 7, .commit 7 3, .input 7 .proceed, .readSeq 7,
      .fails 7 .lost 4, .commit 7 5] ++
    [.returns 1 "terminal write timed out"]

theorem progress_spends_retries : ¬∀ (log : List SystemEvent) (s : System Rig.exhausted),
    SystemRun retryOnce scriptedConfig (fun s a => s.returning retryOnce a = true) log s →
      ∀ me job run, .ended me job run false ∈ log → .persisted me ∉ log := by
  intro h
  obtain ⟨log, s, hrun, hlog⟩ := StepRun.exists_run (System.step retryOnce scriptedConfig)
    (fun s a => s.returning retryOnce a) System.init exhaustedRun
    (fun log _ => (endsOf 1 log).contains (7, 9, false) && log.any fun e => match e with
      | .persisted me => me == 7
      | _ => false) (by decide +kernel)
  rw [Bool.and_eq_true, List.contains_iff_mem, List.any_eq_true] at hlog
  obtain ⟨he, e, he', hpersisted⟩ := hlog
  split at hpersisted
  · obtain rfl := beq_iff_eq.1 hpersisted
    exact h log s hrun 7 9 1 (mem_endsOf.1 he) he'
  · cases hpersisted

end Cja.Durable
