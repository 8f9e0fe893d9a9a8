import Cja.Durable.Holders
import Cja.Jobs.Payload

/-!
# The queue and the engine together

The workers of the queue run the attempts. `AdvanceRunJob` is one kind of job among
others: the body of its row is an attempt of the engine, which begins where the row was
dispatched and returns where the attempt did. A transaction of the engine that enqueues a
job inserts its row at once. A worker that leaves the body behind, by a lost lease, a
shutdown, its death or a panic, makes the attempt vanish.
-/
namespace Cja.Durable

open Jobs (Uuid OwnerToken)

/-- The payloads of the jobs of an app. -/
inductive Payload
  | advanceRun (runId : Uuid)
  | other
deriving Repr, DecidableEq

def AdvanceRunJob.name : String := "AdvanceRunJob"

/-- The row `enqueue_on_tx` inserts. -/
def advanceRunJob (jobId run : Uuid) (context : String) (createdAt : ℕ) : Jobs.NewJob Payload :=
  ⟨jobId, AdvanceRunJob.name, .advanceRun run, none, context, createdAt⟩

/-- `bodies` says which attempt a worker polls. -/
structure System (R : Rig) where
  queue : Jobs.State Payload
  engine : Engine R
  bodies : OwnerToken → Option LeaseToken

def System.init {R : Rig} : System R := ⟨.init, .init, fun _ => none⟩

inductive SystemEvent
  | queue (e : Jobs.Event)
  | engine (e : Event)
  /-- A persist after a model response or a tool answer matched the row. -/
  | persisted (me : LeaseToken)
  /-- The attempt `me` of the job returned. -/
  | ended (me : LeaseToken) (job run : Uuid) (ok : Bool)

inductive SystemAction (R : Rig)
  | queue (a : Jobs.Action Payload)
  | engine (a : Action R) (jobId createdAt : ℕ)
  | advance (w : OwnerToken) (me : LeaseToken)
  | returns (w : OwnerToken) (message : String)
  /-- A step of the queue with which worker `a.worker` leaves its body. -/
  | leaves (a : Jobs.Action Payload) (fate : Fate) (now jobId createdAt : ℕ)

variable {R : Rig}

abbrev SystemResult (R : Rig) := Option (System R × List SystemEvent)

def Event.enqueued? : Event → Option Uuid
  | .enqueued run => some run
  | _ => none

/-- The persist that makes `persist` note progress. -/
def Advance.advancing : Advance R → Bool
  | .driving _ (.writing (.persist _ advanced _) _) => advanced
  | _ => false

namespace Engine

/-- The attempt whose advancing persist a step applies. -/
def persists (s : Engine R) : Action R → Option LeaseToken
  | .commit me _ | .fails me .applied _ | .vanish me .applied _ =>
      if (s.attempts me).any fun j =>
          j.pc.advancing && (s.db.runs j.run).any (RunRow.leasedBy me) then
        some me
      else none
  | _ => none

def persistedEvents (s : Engine R) (a : Action R) : List SystemEvent :=
  (s.persists a).toList.map .persisted

end Engine

namespace System

/-- The engine moved to `r.1`; a job it enqueued is inserted by the same transaction. -/
def enqueueOnTx (s : System R) (r : Engine R × List Event) (jobId createdAt : ℕ) :
    SystemResult R :=
  match r.2.findSome? Event.enqueued? with
  | none => some ({ s with engine := r.1 }, r.2.map .engine)
  | some run =>
      let kind := ((r.1.db.runs run).map RunRow.kind).getD ""
      (s.queue.enqueue (advanceRunJob jobId run ("agent-run:" ++ kind) createdAt)).map fun q =>
        ({ s with engine := r.1, queue := q.1 }, r.2.map .engine ++ q.2.map .queue)

/-- Whether the action is one of the queue's own: only other jobs are enqueued by it, and
the body of an `AdvanceRunJob` returns with its attempt. -/
def ownAction (s : System R) : Jobs.Action Payload → Bool
  | .enqueue n => n.payload == .other
  | .bodyReturns w _ => (s.queue.workers w).phase.body?.all fun job => job.payload == .other
  | _ => true

/-- A worker that polls an attempt still polls it. -/
def keepsBody (s : System R) (q : Jobs.State Payload) (w : OwnerToken) : Bool :=
  (s.bodies w).isNone || (q.workers w).phase.body?.isSome

def queueStep (qcfg : OwnerToken → Jobs.Settings) (s : System R) (a : Jobs.Action Payload) :
    SystemResult R :=
  if s.ownAction a then
    (Jobs.step qcfg s.queue a).bind fun q =>
      if a.worker.all (s.keepsBody q.1) then some ({ s with queue := q.1 }, q.2.map .queue)
      else none
  else none

def engineStep (cfg : Config) (s : System R) (a : Action R) (jobId createdAt : ℕ) :
    SystemResult R :=
  match a with
  | .begin _ _ | .vanish _ _ _ => none
  | a =>
      (Engine.step cfg s.engine a).bind fun r =>
        (s.enqueueOnTx r jobId createdAt).map fun t =>
          (t.1, s.engine.persistedEvents a ++ t.2)

/-- `run_job` calls `advance_run`. -/
def advance (s : System R) (w : OwnerToken) (me : LeaseToken) : SystemResult R :=
  match (s.queue.workers w).phase.body?, s.bodies w with
  | some job, none =>
      match job.payload with
      | .advanceRun run => (s.engine.begin me run).map fun r =>
          ({ s with engine := r.1, bodies := Function.update s.bodies w (some me) }, [])
      | .other => none
  | _, _ => none

/-- The attempt returned, and so does the body. -/
def returns (s : System R) (w : OwnerToken) (message : String) : SystemResult R :=
  match (s.queue.workers w).phase.body?, s.bodies w with
  | some job, some me =>
      match s.engine.attempts me with
      | some ⟨run, .returned ok⟩ =>
          (s.queue.bodyReturns w (if ok then none else some message)).map fun q =>
            ({ s with queue := q.1, bodies := Function.update s.bodies w none },
              .ended me job.jobId run ok :: q.2.map .queue)
      | _ => none
  | _, _ => none

/-- A panic of the body is an error to the worker, never an `Ok`. -/
def leavesBody : Jobs.Action Payload → Option OwnerToken
  | .bodyReturns _ none => none
  | a => a.worker

def leaves (qcfg : OwnerToken → Jobs.Settings) (cfg : Config) (s : System R)
    (a : Jobs.Action Payload) (fate : Fate) (now jobId createdAt : ℕ) : SystemResult R :=
  (leavesBody a).bind fun w => (s.bodies w).bind fun me =>
    (Jobs.step qcfg s.queue a).bind fun q =>
      if (q.1.workers w).phase.body?.isNone then
        (s.engine.vanish cfg me fate now).bind fun r =>
          (enqueueOnTx ⟨q.1, s.engine, Function.update s.bodies w none⟩ r jobId createdAt).map
            fun t => (t.1, s.engine.persistedEvents (.vanish me fate now) ++
              (q.2.map .queue ++ t.2))
      else none

def step (qcfg : OwnerToken → Jobs.Settings) (cfg : Config) (s : System R) :
    SystemAction R → SystemResult R
  | .queue a => s.queueStep qcfg a
  | .engine a jobId createdAt => s.engineStep cfg a jobId createdAt
  | .advance w me => s.advance w me
  | .returns w message => s.returns w message
  | .leaves a fate now jobId createdAt => s.leaves qcfg cfg a fate now jobId createdAt

end System

abbrev SystemRun (qcfg : OwnerToken → Jobs.Settings) (cfg : Config)
    (C : System R → SystemAction R → Prop) : List SystemEvent → System R → Prop :=
  StepRun.Run (System.step qcfg cfg) C System.init

/-! ## What one step can do -/

/-- The actions of the engine that no worker takes. -/
def Action.fromBody : Action R → Bool
  | .begin _ _ | .vanish _ _ _ => false
  | _ => true

/-- What the queue makes of the events of a transaction. -/
inductive Inserts (qcfg : OwnerToken → Jobs.Settings) (q : Jobs.State Payload) (es : List Event) :
    Jobs.State Payload → List Jobs.Event → Prop
  | nothing (h : es.findSome? Event.enqueued? = none) : Inserts qcfg q es q []
  | job {run : Uuid} {n : Jobs.NewJob Payload} {q' : Jobs.State Payload} {qes : List Jobs.Event}
      (h : es.findSome? Event.enqueued? = some run) (hn : n.payload = .advanceRun run)
      (hq : Jobs.step qcfg q (.enqueue n) = some (q', qes)) : Inserts qcfg q es q' qes

namespace System

inductive Took (qcfg : OwnerToken → Jobs.Settings) (cfg : Config) (s : System R) :
    SystemAction R → System R → List SystemEvent → Prop
  | queue {a : Jobs.Action Payload} {q : Jobs.State Payload} {es : List Jobs.Event}
      (hown : s.ownAction a = true) (hq : Jobs.step qcfg s.queue a = some (q, es))
      (hkeep : ∀ w, a.worker = some w → s.keepsBody q w = true) :
      Took qcfg cfg s (.queue a) { s with queue := q } (es.map .queue)
  | engine {a : Action R} {jobId createdAt : ℕ} {e : Engine R} {es : List Event}
      {q : Jobs.State Payload} {qes : List Jobs.Event} (hbody : a.fromBody = true)
      (he : Engine.step cfg s.engine a = some (e, es)) (hq : Inserts qcfg s.queue es q qes) :
      Took qcfg cfg s (.engine a jobId createdAt) { s with engine := e, queue := q }
        (s.engine.persistedEvents a ++ (es.map .engine ++ qes.map .queue))
  | advance {w : OwnerToken} {me : LeaseToken} {job : Jobs.JobFromDB Payload} {run : Uuid}
      (hjob : (s.queue.workers w).phase.body? = some job) (hnone : s.bodies w = none)
      (hpayload : job.payload = .advanceRun run) (hme : me ∉ s.engine.issued) :
      Took qcfg cfg s (.advance w me)
        { s with
          engine := { s.engine.setAt me run .claiming with issued := me :: s.engine.issued }
          bodies := Function.update s.bodies w (some me) } []
  | returns {w : OwnerToken} {message : String} {me : LeaseToken} {run : Uuid} {ok : Bool}
      {job : Jobs.JobFromDB Payload} {q : Jobs.State Payload} {es : List Jobs.Event}
      (hjob : (s.queue.workers w).phase.body? = some job) (hme : s.bodies w = some me)
      (hreturned : s.engine.attempts me = some ⟨run, .returned ok⟩)
      (hq : Jobs.step qcfg s.queue (.bodyReturns w (if ok then none else some message)) =
        some (q, es)) :
      Took qcfg cfg s (.returns w message)
        { s with queue := q, bodies := Function.update s.bodies w none }
        (.ended me job.jobId run ok :: es.map .queue)
  | leaves {a : Jobs.Action Payload} {fate : Fate} {now jobId createdAt : ℕ} {w : OwnerToken}
      {me : LeaseToken} {q q' : Jobs.State Payload} {qes qes' : List Jobs.Event} {e : Engine R}
      {es : List Event} (hw : leavesBody a = some w) (hme : s.bodies w = some me)
      (hq : Jobs.step qcfg s.queue a = some (q, qes))
      (hleft : (q.workers w).phase.body? = none)
      (he : Engine.step cfg s.engine (.vanish me fate now) = some (e, es))
      (hq' : Inserts qcfg q es q' qes') :
      Took qcfg cfg s (.leaves a fate now jobId createdAt)
        ⟨q', e, Function.update s.bodies w none⟩
        (s.engine.persistedEvents (.vanish me fate now) ++
          (qes.map .queue ++ (es.map .engine ++ qes'.map .queue)))

variable {qcfg : OwnerToken → Jobs.Settings} {cfg : Config} {s s' : System R}
variable {a : SystemAction R} {es : List SystemEvent}

theorem enqueueOnTx_spec {r : Engine R × List Event} {jobId createdAt : ℕ}
    {t : System R × List SystemEvent} (h : s.enqueueOnTx r jobId createdAt = some t) :
    ∃ q qes, t = ({ s with engine := r.1, queue := q }, r.2.map .engine ++ qes.map .queue) ∧
      Inserts qcfg s.queue r.2 q qes := by
  unfold enqueueOnTx at h
  split at h
  · next hnone =>
      cases h
      exact ⟨s.queue, [], by simp, .nothing hnone⟩
  · next run hrun =>
      simp only [Option.map_eq_some_iff] at h
      obtain ⟨⟨q, qes⟩, hq, rfl⟩ := h
      exact ⟨q, qes, rfl, .job hrun rfl hq⟩

theorem engineStep_took {a : Action R} {jobId createdAt : ℕ}
    (h : s.engineStep cfg a jobId createdAt = some (s', es)) :
    Took qcfg cfg s (.engine a jobId createdAt) s' es := by
  have hstep : ∀ {a : Action R}, a.fromBody = true →
      ((Engine.step cfg s.engine a).bind fun r => (s.enqueueOnTx r jobId createdAt).map fun t =>
        (t.1, s.engine.persistedEvents a ++ t.2)) = some (s', es) →
      Took qcfg cfg s (.engine a jobId createdAt) s' es := by
    intro a hbody h
    simp only [Option.bind_eq_some_iff, Option.map_eq_some_iff] at h
    obtain ⟨⟨e, ees⟩, he, t, ht, heq⟩ := h
    obtain ⟨q, qes, rfl, hq⟩ := enqueueOnTx_spec ht
    simp only [Prod.mk.injEq] at heq
    rw [← heq.1, ← heq.2]
    exact .engine hbody he hq
  cases a with
  | begin me run => cases h
  | vanish me fate now => cases h
  | _ => exact hstep rfl h

theorem step_took (h : step qcfg cfg s a = some (s', es)) : Took qcfg cfg s a s' es := by
  cases a with
  | queue a =>
      simp only [step, queueStep] at h
      split_ifs at h with hown
      simp only [Option.bind_eq_some_iff] at h
      obtain ⟨⟨q, qes⟩, hq, h⟩ := h
      split_ifs at h with hkeep
      cases h
      exact .queue hown hq (by simpa [Option.all_eq_true] using hkeep)
  | engine a jobId createdAt => exact engineStep_took h
  | advance w me =>
      simp only [step, advance] at h
      split at h
      · next job hjob hnone =>
          split at h
          · next run hpayload =>
              simp only [Engine.begin, Option.map_eq_some_iff] at h
              obtain ⟨r, hr, heq⟩ := h
              split_ifs at hr with hme
              cases hr
              cases heq
              exact .advance hjob hnone hpayload hme
          · cases h
      · cases h
  | returns w message =>
      simp only [step, returns] at h
      split at h
      · next job me hjob hme =>
          split at h
          · next run ok hreturned =>
              simp only [Option.map_eq_some_iff] at h
              obtain ⟨⟨q, qes⟩, hq, heq⟩ := h
              cases heq
              exact .returns hjob hme hreturned hq
          · cases h
      · cases h
  | leaves a fate now jobId createdAt =>
      simp only [step, leaves, Option.bind_eq_some_iff] at h
      obtain ⟨w, hw, me, hme, ⟨q, qes⟩, hq, h⟩ := h
      split_ifs at h with hleft
      simp only [Option.bind_eq_some_iff, Option.map_eq_some_iff] at h
      obtain ⟨⟨e, ees⟩, he, t, ht, heq⟩ := h
      obtain ⟨q', qes', rfl, hq'⟩ := enqueueOnTx_spec ht
      simp only [Prod.mk.injEq] at heq
      rw [← heq.1, ← heq.2]
      exact .leaves hw hme hq (Option.isNone_iff_eq_none.1 hleft) he hq'

/-- A step of the system takes one step of the engine, or none. -/
theorem Took.engine_step (h : Took qcfg cfg s a s' es) : s'.engine = s.engine ∨
    ∃ b ees, Engine.step cfg s.engine b = some (s'.engine, ees) := by
  cases h with
  | queue => exact .inl rfl
  | engine hbody he hq => exact .inr ⟨_, _, he⟩
  | @advance w me job run hjob hnone hpayload hme =>
      exact .inr ⟨.begin me run, [], by simp only [Engine.step, Engine.begin, if_neg hme]⟩
  | returns => exact .inl rfl
  | leaves hw hme hq hleft he hq' => exact .inr ⟨_, _, he⟩

end System

/-! ## The parts of a run -/

/-- The events of the queue in a log. -/
def queueLog (log : List SystemEvent) : List Jobs.Event :=
  log.filterMap fun e => match e with
    | .queue e => some e
    | _ => none

@[simp] theorem queueLog_append (log es : List SystemEvent) :
    queueLog (log ++ es) = queueLog log ++ queueLog es := List.filterMap_append

@[simp] theorem queueLog_queue (es : List Jobs.Event) : queueLog (es.map .queue) = es := by
  simp [queueLog, List.filterMap_map]

@[simp] theorem queueLog_engine (es : List Event) : queueLog (es.map .engine) = [] := by
  simp [queueLog, List.filterMap_map]

@[simp] theorem queueLog_persisted (s : Engine R) (a : Action R) :
    queueLog (s.persistedEvents a) = [] := by
  simp [queueLog, Engine.persistedEvents, List.filterMap_map]

@[simp] theorem queueLog_ended (me : LeaseToken) (job run : Uuid) (ok : Bool)
    (es : List SystemEvent) : queueLog (.ended me job run ok :: es) = queueLog es := rfl

/-- A condition on the steps that workers take in the queue. -/
def SystemAction.OnQueue (D : Jobs.State Payload → Jobs.Action Payload → Prop) (s : System R) :
    SystemAction R → Prop
  | .queue a | .leaves a _ _ _ _ => D s.queue a
  | _ => True

section

variable {qcfg : OwnerToken → Jobs.Settings} {cfg : Config} {C : System R → SystemAction R → Prop}
variable {D : Jobs.State Payload → Jobs.Action Payload → Prop} {log : List SystemEvent}
variable {s : System R}

/-- A run of the system is a run of the queue, and returns and inserts meet the condition. -/
theorem SystemRun.queueRun (h : SystemRun qcfg cfg C log s)
    (hD : ∀ s a, C s a → a.OnQueue D s) (hinsert : ∀ q n, D q (.enqueue n))
    (hreturns : ∀ q w error, D q (.bodyReturns w error)) :
    Jobs.QueueRun qcfg D (queueLog log) s.queue := by
  induction h with
  | start => exact .start
  | @snoc log es s s' a _ hc hs ih =>
      have hinserts : ∀ {log : List Jobs.Event} {q q' : Jobs.State Payload} {es : List Event}
          {qes : List Jobs.Event}, Jobs.QueueRun qcfg D log q → Inserts qcfg q es q' qes →
          Jobs.QueueRun qcfg D (log ++ qes) q' := by
        intro log q q' es qes hrun hq
        cases hq with
        | nothing => simpa using hrun
        | job h hn hq => exact .snoc hrun (hinsert _ _) hq
      have hon := hD s a hc
      cases System.step_took hs with
      | queue hown hq hkeep =>
          rw [queueLog_append, queueLog_queue]
          exact .snoc ih hon hq
      | engine hbody he hq =>
          simp only [queueLog_append, queueLog_queue, queueLog_engine, queueLog_persisted,
            List.nil_append]
          exact hinserts ih hq
      | advance => simpa using ih
      | returns hjob hme hreturned hq =>
          rw [queueLog_append, queueLog_ended, queueLog_queue]
          exact .snoc ih (hreturns _ _ _) hq
      | leaves hw hme hq hleft he hq' =>
          rw [queueLog_append, queueLog_append, queueLog_append, queueLog_append, queueLog_queue,
            queueLog_queue, queueLog_engine, queueLog_persisted, List.nil_append, List.nil_append,
            ← List.append_assoc]
          exact hinserts (.snoc ih hon hq) hq'

theorem SystemRun.queueFree (h : SystemRun qcfg cfg C log s) :
    Jobs.QueueRun qcfg StepRun.Free (queueLog log) s.queue :=
  h.queueRun (fun _ a _ => by cases a <;> trivial) (fun _ _ => trivial) fun _ _ _ => trivial

theorem SystemRun.engineRun (h : SystemRun qcfg cfg C log s) :
    ∃ elog, EngineRun cfg StepRun.Free elog s.engine := by
  induction h with
  | start => exact ⟨[], .start⟩
  | snoc _ _ hs ih =>
      obtain ⟨elog, hrun⟩ := ih
      rcases (System.step_took hs).engine_step with he | ⟨b, ees, he⟩
      · rw [he]
        exact ⟨elog, hrun⟩
      · exact ⟨elog ++ ees, .snoc hrun trivial he⟩

theorem SystemRun.basic (h : SystemRun qcfg cfg C log s) : s.engine.Basic := by
  obtain ⟨elog, hrun⟩ := h.engineRun
  exact hrun.safe (I := Engine.Basic) .init fun _ _ _ _ hb _ hs => hb.step (step_took hs)

end

/-! ## Bodies -/

/-- An attempt that a worker polls is one of its job's run, and of no other worker. -/
structure System.Linked (s : System R) : Prop where
  body : ∀ w me, s.bodies w = some me → ∃ job run pc,
    (s.queue.workers w).phase.body? = some job ∧ job.payload = .advanceRun run ∧
      s.engine.attempts me = some ⟨run, pc⟩
  single : ∀ w v me, s.bodies w = some me → s.bodies v = some me → w = v

/-- A step of the engine but `vanish` leaves every attempt at its run. -/
theorem Took.attempt_run {cfg : Config} {s s' : Engine R} {a : Action R} {es : List Event}
    (h : Took cfg s a s' es) (ha : ∀ me fate now, a ≠ .vanish me fate now) {me : LeaseToken}
    {run : Uuid} {pc : Advance R} (hissued : me ∈ s.issued)
    (hj : s.attempts me = some ⟨run, pc⟩) : ∃ pc', s'.attempts me = some ⟨run, pc'⟩ := by
  have hset : ∀ {v : LeaseToken} {j : JobAttempt R} {s : Engine R},
      s.attempts me = some ⟨run, pc⟩ → (v = me → j.run = run) →
      ∃ pc', (s.setAttempt v (some j)).attempts me = some ⟨run, pc'⟩ := by
    intro v j s hj hv
    by_cases hme : v = me
    · subst hme
      rw [Engine.setAttempt_self]
      exact ⟨j.pc, by rw [← hv rfl]⟩
    · rw [Engine.setAttempt_other _ _ fun he => hme he.symm]
      exact ⟨pc, hj⟩
  have hended : ∀ {v : LeaseToken} {j : JobAttempt R} {j' : Option (JobAttempt R)} {fate : Fate}
      {now : ℕ} {t : Engine R}, t.attempts = s.attempts → s.attempts v = some j →
      Ended cfg v j fate now a j' → ∃ pc', (t.setAttempt v j').attempts me = some ⟨run, pc'⟩ := by
    intro v j j' fate now t ht hv he
    cases he with
    | fails hawait =>
        refine hset (ht ▸ hj) ?_
        rintro rfl
        rw [hj] at hv
        cases hv
        rfl
    | vanish => exact absurd rfl (ha _ _ _)
  cases h with
  | begin hv =>
      refine hset hj ?_
      rintro rfl
      exact absurd hissued hv
  | here hv hl =>
      refine hset hj ?_
      rintro rfl
      rw [hj] at hv
      cases hv
      rfl
  | @commit v _ _ _ _ _ db _ hv htx hdb ha =>
      refine hset (s := s.setDb db) hj ?_
      rintro rfl
      rw [hj] at hv
      cases hv
      rfl
  | lost hv he => exact hended rfl hv he
  | applied hv he htx hdb => exact hended rfl hv he
  | left hv he htx hl => exact hended rfl hv he
  | _ => exact ⟨pc, hj⟩


theorem Inserts.workers {qcfg : OwnerToken → Jobs.Settings} {q q' : Jobs.State Payload}
    {es : List Event} {qes : List Jobs.Event} (h : Inserts qcfg q es q' qes) :
    q'.workers = q.workers := by
  cases h with
  | nothing => rfl
  | job h hn hq =>
      cases Jobs.step_took hq with
      | enqueue => rfl

theorem leavesBody_worker {a : Jobs.Action Payload} {w : OwnerToken}
    (h : System.leavesBody a = some w) : a.worker = some w := by
  unfold System.leavesBody at h
  split at h
  · cases h
  · exact h

/-- A body that returns is recorded with whether its worker owns the row. -/
theorem returned_of_body {qcfg : OwnerToken → Jobs.Settings} {q q' : Jobs.State Payload}
    {w : OwnerToken} {ok : Bool} {message : String} {job : Jobs.JobFromDB Payload}
    {qes : List Jobs.Event} (hbody : (q.workers w).phase.body? = some job)
    (hq : Jobs.step qcfg q (.bodyReturns w (if ok then none else some message)) = some (q', qes)) :
    qes = [.returned w job.jobId ok (q.owns w job.jobId)] := by
  cases Jobs.step_took hq with
  | bodyReturns hp =>
      rw [hp] at hbody
      cases hbody
      cases ok <;> rfl

theorem System.Linked.init : (System.init : System R).Linked where
  body := by simp [System.init]
  single := by simp [System.init]

/-- The bodies left when one worker drops its own. -/
theorem polled_of_update {bodies : OwnerToken → Option LeaseToken} {w v : OwnerToken}
    {me : LeaseToken} (hv : Function.update bodies w none v = some me) :
    v ≠ w ∧ bodies v = some me := by
  by_cases hvw : v = w
  · rw [hvw, Function.update_self] at hv
    cases hv
  · rw [Function.update_of_ne hvw] at hv
    exact ⟨hvw, hv⟩

theorem System.Linked.step {qcfg : OwnerToken → Jobs.Settings} {cfg : Config} {s s' : System R}
    {a : SystemAction R} {es : List SystemEvent} (hl : s.Linked) (hb : s.engine.Basic)
    (h : System.Took qcfg cfg s a s' es) : s'.Linked := by
  -- the bodies that stay as they were
  have hstay : ∀ {w : OwnerToken} {me : LeaseToken}, s.bodies w = some me →
      (s'.queue.workers w).phase.body? = (s.queue.workers w).phase.body? →
      (∀ run pc, s.engine.attempts me = some ⟨run, pc⟩ →
        ∃ pc', s'.engine.attempts me = some ⟨run, pc'⟩) →
      ∃ job run pc, (s'.queue.workers w).phase.body? = some job ∧ job.payload = .advanceRun run ∧
        s'.engine.attempts me = some ⟨run, pc⟩ := by
    intro w me hw hq he
    obtain ⟨job, run, pc, hjob, hpayload, hj⟩ := hl.body w me hw
    obtain ⟨pc', hj'⟩ := he run pc hj
    exact ⟨job, run, pc', hq.trans hjob, hpayload, hj'⟩
  have hsame : ∀ {me : LeaseToken}, s'.engine.attempts me = s.engine.attempts me → ∀ run pc,
      s.engine.attempts me = some ⟨run, pc⟩ → ∃ pc', s'.engine.attempts me = some ⟨run, pc'⟩ :=
    fun he run pc hj => ⟨pc, he.trans hj⟩
  have hissued : ∀ {w : OwnerToken} {me : LeaseToken}, s.bodies w = some me →
      me ∈ s.engine.issued := by
    intro w me hw
    obtain ⟨job, run, pc, -, -, hj⟩ := hl.body w me hw
    exact hb.attempts me _ hj
  cases h with
  | @queue a q es hown hq hkeep =>
      refine ⟨fun w me hw => hstay hw ?_ (hsame rfl), hl.single⟩
      have ht := Jobs.step_took hq
      by_cases haw : a.worker = some w
      · obtain ⟨job, run, pc, hjob, -⟩ := hl.body w me hw
        have hkept := hkeep w haw
        rw [System.keepsBody, show s.bodies w = some me from hw] at hkept
        obtain ⟨job', hjob'⟩ := Option.isSome_iff_exists.1 (by simpa using hkept)
        rw [hjob, hjob', ht.body_eq hjob hjob']
      · rw [ht.workers_other haw]
  | @engine a jobId createdAt e es q qes hbody he hq =>
      refine ⟨fun w me hw => hstay hw ?_ fun run pc hj => ?_, hl.single⟩
      · rw [hq.workers]
      · refine (Durable.step_took he).attempt_run ?_ (hissued hw) hj
        rintro me fate now rfl
        cases hbody
  | @advance w me job run hjob hnone hpayload hme =>
      have hother : ∀ {v : OwnerToken} {me' : LeaseToken}, v ≠ w →
          Function.update s.bodies w (some me) v = some me' →
          s.bodies v = some me' ∧ me' ≠ me := by
        intro v me' hvw hv
        rw [Function.update_of_ne hvw] at hv
        exact ⟨hv, fun he => hme (he ▸ hissued hv)⟩
      have hself : ∀ {me' : LeaseToken}, Function.update s.bodies w (some me) w = some me' →
          me = me' := by
        intro me' hv
        rw [Function.update_self] at hv
        exact Option.some.inj hv
      refine ⟨fun v me' hv => ?_, fun v u me' hv hu => ?_⟩
      · by_cases hvw : v = w
        · subst hvw
          obtain rfl := hself hv
          exact ⟨job, run, .claiming, hjob, hpayload, Engine.setAttempt_self ..⟩
        · obtain ⟨hv, hne⟩ := hother hvw hv
          exact hstay hv rfl (hsame (Engine.setAttempt_other _ _ hne))
      · by_cases hvw : v = w <;> by_cases huw : u = w
        · rw [hvw, huw]
        · subst hvw
          exact absurd (hself hv).symm (hother huw hu).2
        · subst huw
          exact absurd (hself hu).symm (hother hvw hv).2
        · exact hl.single v u me' (hother hvw hv).1 (hother huw hu).1
  | @returns w message me run ok job q es hjob hme hreturned hq =>
      refine ⟨fun v me' hv => ?_, fun v u me' hv hu => hl.single v u me' (polled_of_update hv).2 (polled_of_update hu).2⟩
      obtain ⟨hvw, hv⟩ := polled_of_update hv
      refine hstay hv ?_ (hsame rfl)
      rw [(Jobs.step_took hq).workers_other fun he => hvw (Option.some.inj he).symm]
  | @leaves a fate now jobId createdAt w me q q' qes qes' e es hw hme hq hleft he hq' =>
      refine ⟨fun v me' hv => ?_, fun v u me' hv hu => hl.single v u me' (polled_of_update hv).2 (polled_of_update hu).2⟩
      obtain ⟨hvw, hv⟩ := polled_of_update hv
      refine hstay hv ?_ (hsame ((Durable.step_took he).attempts_other fun hact => ?_))
      · rw [hq'.workers, (Jobs.step_took hq).workers_other]
        rw [leavesBody_worker hw]
        exact fun he => hvw (Option.some.inj he).symm
      · obtain rfl := Option.some.inj hact
        exact hvw (hl.single v w _ hv hme)

theorem SystemRun.linked {qcfg : OwnerToken → Jobs.Settings} {cfg : Config} {s : System R}
    {C : System R → SystemAction R → Prop} {log : List SystemEvent}
    (h : SystemRun qcfg cfg C log s) : s.Linked := by
  refine h.invariant (I := fun _ s => System.Linked s) .init ?_
  intro log s a s' es hrun hl _ hs
  exact hl.step (SystemRun.basic hrun) (System.step_took hs)

/-! ## Scripts -/

/-- Steps of the engine, and the job they may enqueue. -/
def engineSteps (job : Uuid) (as : List (Action R)) : List (SystemAction R) :=
  as.map (.engine · job 0)

/-- Worker `w` claims a job at `now` and starts the attempt `me` of its run. -/
def claimsJob (w : OwnerToken) (me : LeaseToken) (now : ℕ) : List (SystemAction R) :=
  [.queue (.sendClaim w), .queue (.applyClaim w now []), .queue (.receiveClaim w), .advance w me]

end Cja.Durable
