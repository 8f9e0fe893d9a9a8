import Cja.Cron.ExactlyOnce
import Cja.Jobs.Settle
import Cja.Jobs.Registry

/-!
# Scheduled work

Schedulers and job workers share a database. The claim of a cron that was registered with a
job inserts the row of that job, so the queue has it from the commit of the claim on, and
never without it. Between commits the queue is left to its workers and to whoever else
enqueues.
-/
namespace Cja.Scheduled

variable {P Tz : Type}

/-- `CronAction`, with the value that every fire of a job enqueues. -/
inductive Work (P : Type)
  | callback
  | job (jobType : Jobs.JobType P) (value : jobType.Value)

def Work.action : Work P → Cron.CronAction
  | .callback => .callback
  | .job _ _ => .job

def Work.serializes : Work P → Bool
  | .callback => false
  | .job J v => (J.toValue v).isOk

/-- The rows of a fire, with the time of its claim. -/
def Work.rows (context : String) (time : ℤ) (ids : List Jobs.Uuid) :
    Work P → Option (List (Jobs.NewJob P))
  | .callback => some []
  | .job J v => ids.mapM fun id =>
      (J.enqueueOnConnection v context none (time.toNat / 1000) id).toOption

structure Entry (P Tz : Type) where
  work : Work P
  schedule : Cron.Schedule Tz

def Entry.cron (e : Entry P Tz) : Cron.CronJob Tz := ⟨e.work.action, e.schedule⟩

abbrev CronRegistry (P Tz : Type) := String → Option (Entry P Tz)

def CronRegistry.new : CronRegistry P Tz := fun _ => none

/-- `register` and `register_with_cron`. -/
def CronRegistry.register (r : CronRegistry P Tz) (name : String) (schedule : Cron.Schedule Tz) :
    CronRegistry P Tz :=
  Function.update r name (some ⟨.callback, schedule⟩)

/-- `register_job` and `register_job_with_cron`. -/
def CronRegistry.registerJob (r : CronRegistry P Tz) (J : Jobs.JobType P) (v : J.Value)
    (schedule : Cron.Schedule Tz) : CronRegistry P Tz :=
  Function.update r J.name (some ⟨.job J v, schedule⟩)

/-- The application at each scheduler and each worker. -/
structure Config (P Tz : Type) where
  registry : CronRegistry P Tz
  scheduler : ℕ → Cron.SchedulerConfig Tz
  version : ℕ → String
  worker : Jobs.OwnerToken → Jobs.Settings

def Config.context (c : Config P Tz) (scheduler : ℕ) : String := "Cron@" ++ c.version scheduler

/-! ## The system -/

/-- The claims of each cron, and the queue. -/
structure State (P : Type) where
  crons : String → Cron.State
  queue : Jobs.State P

def State.init : State P := ⟨fun _ => .init 0, .init⟩

inductive Action (P : Type)
  | tick (elapsed : ℕ)
  | cron (name : String) (a : Cron.Action)
  | queue (a : Jobs.Action P)

inductive Event
  | cron (name : String) (e : Cron.Event)
  | queue (e : Jobs.Event)
deriving Repr, DecidableEq

/-- Time is one for all, and what serde says of a value is the same every time. -/
def Work.permits (work : Work P) : Cron.Action → Bool
  | .tick _ => false
  | .insertJob _ _ => work.serializes
  | .serdeFails _ => !work.serializes
  | _ => true

def enqueueAll (cfg : Jobs.OwnerToken → Jobs.Settings) (rows : List (Jobs.NewJob P))
    (q : Jobs.State P) : Jobs.StepResult P :=
  StepRun.execute (Jobs.step cfg) (fun _ _ => true) (rows.map .enqueue) q

/-- What a step of a cron makes visible in the queue. -/
def Entry.commits (c : Config P Tz) (e : Entry P Tz) : List Cron.Event → Jobs.State P →
    Jobs.StepResult P
  | [], q => some (q, [])
  | .invoked _ _ :: es, q => e.commits c es q
  | .fired w time ids :: es, q =>
      (e.work.rows (c.context w) time ids).bind fun rows =>
        (enqueueAll c.worker rows q).bind fun r =>
          (e.commits c es r.1).map fun r' => (r'.1, r.2 ++ r'.2)

def State.cronStep (c : Config P Tz) (s : State P) (name : String) (a : Cron.Action) :
    Option (State P × List Event) :=
  (c.registry name).bind fun e =>
    if e.work.permits a then
      (Cron.step e.cron c.scheduler (s.crons name) a).bind fun r =>
        (e.commits c r.2 s.queue).map fun q =>
          (⟨Function.update s.crons name r.1, q.1⟩, r.2.map (.cron name) ++ q.2.map .queue)
    else none

def step (c : Config P Tz) (s : State P) : Action P → Option (State P × List Event)
  | .tick elapsed =>
      some (⟨fun name => { s.crons name with clock := (s.crons name).clock + elapsed },
        { s.queue with now := s.queue.now + elapsed }⟩, [])
  | .cron name a => s.cronStep c name a
  | .queue (.tick _) => none
  | .queue a =>
      (Jobs.step c.worker s.queue a).map fun r => ({ s with queue := r.1 }, r.2.map .queue)

abbrev SystemRun (c : Config P Tz) : List Event → State P → Prop :=
  StepRun.Run (step c) StepRun.Free .init

/-! ## The parts of a log -/

def cronLog (name : String) (log : List Event) : List Cron.Event :=
  log.filterMap fun
    | .cron name' e => if name' = name then some e else none
    | .queue _ => none

def queueLog (log : List Event) : List Jobs.Event :=
  log.filterMap fun
    | .cron _ _ => none
    | .queue e => some e

@[simp] theorem cronLog_append (name : String) (log es : List Event) :
    cronLog name (log ++ es) = cronLog name log ++ cronLog name es :=
  List.filterMap_append

@[simp] theorem queueLog_append (log es : List Event) :
    queueLog (log ++ es) = queueLog log ++ queueLog es :=
  List.filterMap_append

@[simp] theorem cronLog_queue (name : String) (qs : List Jobs.Event) :
    cronLog name (qs.map .queue) = [] := by
  simp [cronLog, List.filterMap_map]

@[simp] theorem queueLog_queue (qs : List Jobs.Event) : queueLog (qs.map .queue) = qs := by
  simp [queueLog, List.filterMap_map]

@[simp] theorem queueLog_cron (name : String) (es : List Cron.Event) :
    queueLog (es.map (.cron name)) = [] := by
  simp [queueLog, List.filterMap_map]

@[simp] theorem cronLog_self (name : String) (es : List Cron.Event) :
    cronLog name (es.map (.cron name)) = es := by
  simp [cronLog, List.filterMap_map]

theorem cronLog_other {name name' : String} (h : name' ≠ name) (es : List Cron.Event) :
    cronLog name (es.map (.cron name')) = [] := by
  simp [cronLog, List.filterMap_map, h]

/-! ## Each part runs on its own -/

variable {c : Config P Tz} {log es : List Event} {s s' : State P} {a : Action P}
variable {name : String} {e : Entry P Tz}

theorem commits_run {cs : List Cron.Event} {q q' : Jobs.State P} {qs : List Jobs.Event}
    (h : e.commits c cs q = some (q', qs)) :
    StepRun.Run (Jobs.step c.worker) StepRun.Free q qs q' := by
  induction cs generalizing q qs with
  | nil =>
      cases h
      exact .start
  | cons e₁ cs ih =>
      cases e₁ with
      | invoked w time => exact ih h
      | fired w time ids =>
          simp only [Entry.commits, Option.bind_eq_some_iff, Option.map_eq_some_iff] at h
          obtain ⟨rows, -, ⟨q₁, qs₁⟩, hrows, ⟨q₂, qs₂⟩, hrest, heq⟩ := h
          cases heq
          exact (StepRun.run_of_execute hrows).free.trans (ih hrest)

/-- A step is a tick of all, a step of one cron with what it commits, or one of the queue. -/
inductive Took (c : Config P Tz) (s : State P) : Action P → State P → List Event → Prop
  | tick (elapsed : ℕ) :
      Took c s (.tick elapsed)
        ⟨fun name => { s.crons name with clock := (s.crons name).clock + elapsed },
          { s.queue with now := s.queue.now + elapsed }⟩ []
  | cron {name : String} {e : Entry P Tz} {a : Cron.Action} {r : Cron.State}
      {cs : List Cron.Event} {q : Jobs.State P} {qs : List Jobs.Event}
      (he : c.registry name = some e) (ha : e.work.permits a = true)
      (hcron : Cron.step e.cron c.scheduler (s.crons name) a = some (r, cs))
      (hq : e.commits c cs s.queue = some (q, qs)) :
      Took c s (.cron name a) ⟨Function.update s.crons name r, q⟩
        (cs.map (.cron name) ++ qs.map .queue)
  | queue {a : Jobs.Action P} {q : Jobs.State P} {qs : List Jobs.Event}
      (hq : Jobs.step c.worker s.queue a = some (q, qs)) :
      Took c s (.queue a) { s with queue := q } (qs.map .queue)

theorem step_took (h : step c s a = some (s', es)) : Took c s a s' es := by
  cases a with
  | tick elapsed =>
      cases h
      exact .tick elapsed
  | cron name a =>
      simp only [step, State.cronStep, Option.bind_eq_some_iff] at h
      obtain ⟨e, he, h⟩ := h
      split_ifs at h with ha
      simp only [Option.bind_eq_some_iff, Option.map_eq_some_iff] at h
      obtain ⟨⟨r, cs⟩, hcron, ⟨q, qs⟩, hq, heq⟩ := h
      cases heq
      exact .cron he ha hcron hq
  | queue a =>
      have hq : (Jobs.step c.worker s.queue a).map (fun r =>
          (({ s with queue := r.1 } : State P), r.2.map Event.queue)) = some (s', es) := by
        cases a with
        | tick elapsed => cases h
        | _ => exact h
      rw [Option.map_eq_some_iff] at hq
      obtain ⟨⟨q, qs⟩, hq, heq⟩ := hq
      cases heq
      exact .queue hq

theorem Took.queue_run (h : Took c s a s' es) :
    StepRun.Run (Jobs.step c.worker) StepRun.Free s.queue (queueLog es) s'.queue := by
  cases h with
  | tick elapsed =>
      have htick : Jobs.step c.worker s.queue (.tick elapsed) =
          some ({ s.queue with now := s.queue.now + elapsed }, []) := rfl
      exact .snoc .start trivial htick
  | cron he ha hcron hq =>
      rw [queueLog_append, queueLog_cron, queueLog_queue]
      exact commits_run hq
  | queue hq =>
      rw [queueLog_queue]
      exact .snoc .start trivial hq

theorem Took.cron_run (h : Took c s a s' es) (he : c.registry name = some e) :
    StepRun.Run (Cron.step e.cron c.scheduler) StepRun.Free (s.crons name) (cronLog name es)
      (s'.crons name) := by
  cases h with
  | tick elapsed =>
      have htick : Cron.step e.cron c.scheduler (s.crons name) (.tick elapsed) =
          some ({ s.crons name with clock := (s.crons name).clock + elapsed }, []) := rfl
      exact .snoc .start trivial htick
  | @cron name' e' a r cs q qs he' ha hcron hq =>
      rw [cronLog_append, cronLog_queue, List.append_nil]
      by_cases hname : name' = name
      · subst hname
        rw [he] at he'
        cases he'
        dsimp only
        rw [cronLog_self, Function.update_self]
        exact .snoc .start trivial hcron
      · dsimp only
        rw [cronLog_other hname, Function.update_of_ne (Ne.symm hname)]
        exact .start
  | queue hq =>
      rw [cronLog_queue]
      exact .start

/-- What the workers see is a run of the queue. -/
theorem queue_run (h : SystemRun c log s) :
    Jobs.QueueRun c.worker StepRun.Free (queueLog log) s.queue := by
  induction h with
  | start => exact .start
  | snoc _ _ hs ih =>
      rw [queueLog_append]
      exact ih.trans (step_took hs).queue_run

/-- What the schedulers of one cron see is a run of that cron. -/
theorem cron_run (h : SystemRun c log s) (he : c.registry name = some e) :
    Cron.CronRun e.cron c.scheduler 0 (cronLog name log) (s.crons name) := by
  induction h with
  | start => exact .start
  | snoc _ _ hs ih =>
      rw [cronLog_append]
      exact ih.trans ((step_took hs).cron_run he)

/-! ## What a commit files -/

variable {J : Jobs.JobType P} {v : J.Value}

/-- The row that a fire inserts for a job, once serde has its payload. -/
def newJob (J : Jobs.JobType P) (payload : P) (context : String) (time : ℤ) (id : Jobs.Uuid) :
    Jobs.NewJob P :=
  ⟨id, J.name, payload, none, context, time.toNat / 1000⟩

theorem rows_job {context : String} {time : ℤ} {ids : List Jobs.Uuid} {rows : List (Jobs.NewJob P)}
    (h : (Work.job J v).rows context time ids = some rows) :
    rows.map Jobs.NewJob.jobId = ids ∧
      ∀ n ∈ rows, ∃ payload, J.toValue v = .ok payload ∧
        n = newJob J payload context time n.jobId := by
  induction ids generalizing rows with
  | nil =>
      cases h
      exact ⟨rfl, by simp⟩
  | cons id ids ih =>
      simp only [Work.rows, List.mapM_cons, bind, Option.bind_eq_some_iff] at h
      obtain ⟨n, hn, rest, hrest, heq⟩ := h
      cases heq
      obtain ⟨hids, hrows⟩ := ih hrest
      cases hJ : J.enqueueOnConnection v context none (time.toNat / 1000) id with
      | error message =>
          rw [hJ] at hn
          cases hn
      | ok n' =>
          rw [hJ] at hn
          cases hn
          obtain ⟨payload, hv, rfl⟩ := Jobs.JobType.enqueueOnConnection_ok hJ
          refine ⟨by rw [List.map_cons, hids], ?_⟩
          rw [List.forall_mem_cons]
          exact ⟨⟨payload, hv, rfl⟩, hrows⟩

/-- Rows inserted one after another are new, and stay what they are. -/
theorem enqueueAll_keeps {rows : List (Jobs.NewJob P)} {q q' : Jobs.State P}
    {prior qs : List Jobs.Event} (hprior : Jobs.QueueRun c.worker StepRun.Free prior q)
    (h : enqueueAll c.worker rows q = some (q', qs)) :
    (rows.map Jobs.NewJob.jobId).Nodup ∧
      ∀ n ∈ rows, n.jobId ∉ q.issued ∧ q'.Says n ∧ .inserted n.jobId ∈ qs := by
  induction rows generalizing q prior qs with
  | nil => exact ⟨List.nodup_nil, by simp⟩
  | cons n rows ih =>
      simp only [enqueueAll, List.map_cons, StepRun.execute, if_true, Option.bind_eq_some_iff,
        Option.map_eq_some_iff] at h
      obtain ⟨⟨q₁, qs₁⟩, hn, ⟨q₂, qs₂⟩, hrest, heq⟩ := h
      cases heq
      have hrun : Jobs.QueueRun c.worker StepRun.Free (prior ++ qs₁) q₁ := .snoc hprior trivial hn
      have hrow : q₁.Says n := Jobs.enqueued_kept hprior hn
      have htook := Jobs.step_took hn
      obtain ⟨hnodup, hrows⟩ := ih hrun hrest
      have hbehind : n.jobId ∉ rows.map Jobs.NewJob.jobId := by
        rw [List.mem_map]
        rintro ⟨m, hm, hid⟩
        exact (hrows m hm).1 (hid ▸ hrow.issued)
      refine ⟨List.nodup_cons.mpr ⟨hbehind, hnodup⟩, ?_⟩
      rw [List.forall_mem_cons]
      constructor
      · refine ⟨htook.enqueue_fresh.1, hrow.run (StepRun.run_of_execute hrest).free, ?_⟩
        cases htook with
        | enqueue => exact List.mem_append_left _ (List.mem_singleton.mpr rfl)
      · intro m hm
        obtain ⟨hfresh, hm, hevent⟩ := hrows m hm
        exact ⟨fun hold => hfresh (htook.issued_mono hold), hm, List.mem_append_right _ hevent⟩

/-- The job of a fire is in the queue's hands, and says what was registered. -/
structure Filed (c : Config P Tz) (J : Jobs.JobType P) (v : J.Value) (f : Cron.Fire)
    (id : Jobs.Uuid) (q : Jobs.State P) (qs : List Jobs.Event) : Prop where
  row : ∃ payload, J.toValue v = .ok payload ∧
    q.Says (newJob J payload (c.context f.scheduler) f.time id)
  inserted : .inserted id ∈ qs

theorem Filed.run {f : Cron.Fire} {id : Jobs.Uuid} {q q' : Jobs.State P} {qs qs' : List Jobs.Event}
    (h : Filed c J v f id q qs) (hrun : StepRun.Run (Jobs.step c.worker) StepRun.Free q qs' q') :
    Filed c J v f id q' (qs ++ qs') := by
  obtain ⟨payload, hv, hrow⟩ := h.row
  exact ⟨⟨payload, hv, hrow.run hrun⟩, List.mem_append_left _ h.inserted⟩

theorem issued_run {id : Jobs.Uuid} {q q' : Jobs.State P} {qs : List Jobs.Event}
    (h : StepRun.Run (Jobs.step c.worker) StepRun.Free q qs q') (hid : id ∈ q.issued) :
    id ∈ q'.issued :=
  h.safe (I := fun q => id ∈ q.issued) hid
    fun _ _ _ _ hi _ hs => (Jobs.step_took hs).issued_mono hi

/-- The ids that an event hands to the queue. -/
def Event.filings (c : Config P Tz) : Event → List Jobs.Uuid
  | .cron name (.fired _ _ ids) =>
      if (c.registry name).any fun e => e.work.action = .job then ids else []
  | _ => []

def filings (c : Config P Tz) (log : List Event) : List Jobs.Uuid := log.flatMap (Event.filings c)

@[simp] theorem filings_append (log es : List Event) :
    filings c (log ++ es) = filings c log ++ filings c es :=
  List.flatMap_append

@[simp] theorem filings_queue (qs : List Jobs.Event) : filings c (qs.map .queue) = [] := by
  simp [filings, List.flatMap_map, Event.filings]

/-- New ids, each of them once, that are now issued. -/
structure Fresh (ids : List Jobs.Uuid) (q q' : Jobs.State P) : Prop where
  nodup : ids.Nodup
  fresh : ∀ id ∈ ids, id ∉ q.issued
  issued : ∀ id ∈ ids, id ∈ q'.issued

theorem Fresh.nil (q q' : Jobs.State P) : Fresh [] q q' := ⟨List.nodup_nil, by simp, by simp⟩

theorem Fresh.append {ids ids' : List Jobs.Uuid} {q q₁ q' : Jobs.State P}
    {qs qs' : List Jobs.Event} (h : Fresh ids q q₁) (h' : Fresh ids' q₁ q')
    (hrun : StepRun.Run (Jobs.step c.worker) StepRun.Free q qs q₁)
    (hrun' : StepRun.Run (Jobs.step c.worker) StepRun.Free q₁ qs' q') :
    Fresh (ids ++ ids') q q' where
  nodup := h.nodup.append h'.nodup fun id hid hid' => h'.fresh id hid' (h.issued id hid)
  fresh id hid hold := by
    rcases List.mem_append.mp hid with hid | hid
    · exact h.fresh id hid hold
    · exact h'.fresh id hid (issued_run hrun hold)
  issued id hid := by
    rcases List.mem_append.mp hid with hid | hid
    · exact issued_run hrun' (h.issued id hid)
    · exact h'.issued id hid

/-- One fire of a job. -/
theorem fired_files {w : ℕ} {time : ℤ} {ids : List Jobs.Uuid} {rows : List (Jobs.NewJob P)}
    {q q' : Jobs.State P} {prior qs : List Jobs.Event}
    (hprior : Jobs.QueueRun c.worker StepRun.Free prior q)
    (hrows : (Work.job J v).rows (c.context w) time ids = some rows)
    (h : enqueueAll c.worker rows q = some (q', qs)) :
    Fresh ids q q' ∧ ∀ id ∈ ids, Filed c J v ⟨w, time, ids⟩ id q' qs := by
  obtain ⟨rfl, hwhat⟩ := rows_job hrows
  obtain ⟨hnodup, hall⟩ := enqueueAll_keeps hprior h
  refine ⟨⟨hnodup, ?_, ?_⟩, ?_⟩
  · rw [List.forall_mem_map]
    exact fun n hn => (hall n hn).1
  · rw [List.forall_mem_map]
    exact fun n hn => (hall n hn).2.1.issued
  · rw [List.forall_mem_map]
    intro n hn
    obtain ⟨payload, hv, heq⟩ := hwhat n hn
    obtain ⟨-, hrow, hevent⟩ := hall n hn
    exact ⟨⟨payload, hv, heq ▸ hrow⟩, hevent⟩

/-- What a step of a cron commits. -/
theorem commits_files {cs : List Cron.Event} {q q' : Jobs.State P} {prior qs : List Jobs.Event}
    (he : c.registry name = some e) (hprior : Jobs.QueueRun c.worker StepRun.Free prior q)
    (h : e.commits c cs q = some (q', qs)) :
    Fresh (filings c (cs.map (.cron name))) q q' ∧
      ∀ (J : Jobs.JobType P) (v : J.Value), e.work = .job J v →
        ∀ f ∈ Cron.fires cs, ∀ id ∈ f.jobs, Filed c J v f id q' qs := by
  induction cs generalizing q prior qs with
  | nil => exact ⟨.nil _ _, fun J v _ f hf => by cases hf⟩
  | cons e₁ cs ih =>
      cases e₁ with
      | invoked w time => exact ih hprior h
      | fired w time ids =>
          simp only [Entry.commits, Option.bind_eq_some_iff, Option.map_eq_some_iff] at h
          obtain ⟨rows, hrows, ⟨q₁, qs₁⟩, hfile, ⟨q₂, qs₂⟩, hrest, heq⟩ := h
          cases heq
          have hrun := (StepRun.run_of_execute hfile).free
          have hrun' := commits_run hrest
          obtain ⟨hfresh, hfiled⟩ := ih (hprior.trans hrun) hrest
          have hlog : filings c ((Cron.Event.fired w time ids :: cs).map (.cron name)) =
              (if e.work.action = .job then ids else []) ++ filings c (cs.map (.cron name)) := by
            simp [filings, Event.filings, he]
          have hfires : Cron.fires (.fired w time ids :: cs) =
              ⟨w, time, ids⟩ :: Cron.fires cs := rfl
          rw [hlog, hfires]
          cases hwork : e.work with
          | callback =>
              refine ⟨?_, fun J v hJ => by cases hJ⟩
              exact (Fresh.nil q q₁).append hfresh hrun hrun'
          | job J v =>
              rw [hwork] at hrows
              obtain ⟨hnew, hthis⟩ := fired_files hprior hrows hfile
              refine ⟨hnew.append hfresh hrun hrun', ?_⟩
              rintro J' v' hJ f hf id hid
              rw [← hwork] at hJ
              rcases List.mem_cons.mp hf with rfl | hf
              · rw [hwork] at hJ
                cases hJ
                exact (hthis id hid).run hrun'
              · have hrest := hfiled J' v' hJ f hf id hid
                exact ⟨hrest.row, List.mem_append_right _ hrest.inserted⟩

/-! ## The invariant -/

structure Inv (c : Config P Tz) (log : List Event) (s : State P) : Prop where
  nodup : (filings c log).Nodup
  issued : ∀ id ∈ filings c log, id ∈ s.queue.issued
  filed : ∀ name (J : Jobs.JobType P) (v : J.Value) schedule,
    c.registry name = some ⟨.job J v, schedule⟩ →
      ∀ f ∈ Cron.fires (cronLog name log), ∀ id ∈ f.jobs,
        Filed c J v f id s.queue (queueLog log)

theorem Inv.init : Inv c [] (.init : State P) :=
  ⟨List.nodup_nil, by simp [filings], fun name J v schedule _ f hf => by cases hf⟩

/-- The queue moves on, and nothing is filed. -/
theorem Inv.pass (h : Inv c log s) (htook : Took c s a s' es)
    (hfilings : filings c es = []) (hcrons : ∀ name, Cron.fires (cronLog name es) = []) :
    Inv c (log ++ es) s' where
  nodup := by simpa [hfilings] using h.nodup
  issued id hid := by
    rw [filings_append, hfilings, List.append_nil] at hid
    exact issued_run htook.queue_run (h.issued id hid)
  filed name J v schedule he f hf id hid := by
    rw [cronLog_append, Cron.fires_append, hcrons, List.append_nil] at hf
    rw [queueLog_append]
    exact (h.filed name J v schedule he f hf id hid).run htook.queue_run

theorem Inv.step (h : Inv c log s) (hrun : SystemRun c log s) (hs : step c s a = some (s', es)) :
    Inv c (log ++ es) s' := by
  have htook := step_took hs
  have hqueue := htook.queue_run
  cases htook with
  | tick elapsed => exact h.pass (.tick elapsed) rfl fun name => rfl
  | queue hq => exact h.pass (.queue hq) (filings_queue _) fun name => by simp [Cron.fires]
  | @cron name₁ e₁ a r cs q qs he₁ ha hcron hq =>
      obtain ⟨hfresh, hfiled⟩ := commits_files he₁ (queue_run hrun) hq
      constructor
      · rw [filings_append, filings_append, filings_queue, List.append_nil]
        exact h.nodup.append hfresh.nodup
          fun id hid hnew => hfresh.fresh id hnew (h.issued id hid)
      · intro id hid
        rw [filings_append, filings_append, filings_queue, List.append_nil] at hid
        rcases List.mem_append.mp hid with hid | hid
        · exact issued_run hqueue (h.issued id hid)
        · exact hfresh.issued id hid
      · intro name J v schedule he f hf id hid
        rw [queueLog_append]
        rw [cronLog_append, Cron.fires_append] at hf
        rcases List.mem_append.mp hf with hf | hf
        · exact (h.filed name J v schedule he f hf id hid).run hqueue
        · rw [cronLog_append, cronLog_queue, List.append_nil] at hf
          by_cases hname : name₁ = name
          · subst hname
            rw [cronLog_self] at hf
            rw [he] at he₁
            cases he₁
            have hnew := hfiled J v rfl f hf id hid
            refine ⟨hnew.row, List.mem_append_right _ ?_⟩
            rw [queueLog_append, queueLog_cron, queueLog_queue]
            exact hnew.inserted
          · rw [cronLog_other hname] at hf
            cases hf

theorem Inv.of_run (h : SystemRun c log s) : Inv c log s :=
  h.invariant Inv.init fun _ _ _ _ _ hrun hi _ hs => hi.step hrun hs

/-! ## Every fire and its job -/

variable {schedule : Cron.Schedule Tz} {f g : Cron.Fire} {id : Jobs.Uuid}

theorem fired_mem (hf : f ∈ Cron.fires (cronLog name log)) :
    .cron name (.fired f.scheduler f.time f.jobs) ∈ log := by
  simp only [Cron.fires, cronLog, List.mem_filterMap] at hf
  obtain ⟨e₁, ⟨e₂, hmem, he₂⟩, he₁⟩ := hf
  cases e₂ with
  | queue q => cases he₂
  | cron name' e' =>
      dsimp only at he₂
      split_ifs at he₂ with hname
      cases he₂
      subst hname
      cases e₁ with
      | invoked w time => cases he₁
      | fired w time jobs =>
          cases he₁
          exact hmem

/-- No two fires of jobs share an id. -/
theorem fire_of_id (h : Inv c log s) {name' : String} {J' : Jobs.JobType P} {v' : J'.Value}
    {schedule' : Cron.Schedule Tz} (he : c.registry name = some ⟨.job J v, schedule⟩)
    (he' : c.registry name' = some ⟨.job J' v', schedule'⟩)
    (hf : f ∈ Cron.fires (cronLog name log)) (hg : g ∈ Cron.fires (cronLog name' log))
    (hid : id ∈ f.jobs) (hid' : id ∈ g.jobs) : name' = name ∧ g = f := by
  obtain ⟨-, hdisjoint⟩ := List.nodup_flatMap.mp h.nodup
  have : Std.Symm (Function.onFun List.Disjoint (Event.filings c)) := ⟨fun _ _ hd => hd.symm⟩
  have hids : ∀ {name : String} {J : Jobs.JobType P} {v : J.Value} {schedule : Cron.Schedule Tz}
      {f : Cron.Fire}, c.registry name = some ⟨.job J v, schedule⟩ →
      Event.filings c (.cron name (.fired f.scheduler f.time f.jobs)) = f.jobs := by
    intro name J v schedule f he
    simp [Event.filings, he, Work.action]
  by_cases heq : Event.cron name (.fired f.scheduler f.time f.jobs) =
      .cron name' (.fired g.scheduler g.time g.jobs)
  · obtain ⟨w, t, ids⟩ := f
    obtain ⟨w', t', ids'⟩ := g
    cases heq
    exact ⟨rfl, rfl⟩
  · have hd := hdisjoint.forall (fired_mem hf) (fired_mem hg) heq
    rw [Function.onFun, hids he, hids he'] at hd
    exact (hd hid hid').elim

/-- In every run of schedulers and workers, no interval and no slot of a cron fires twice,
and each fire of a job is one job of its own: in every later state it is queued,
dead-lettered, or completed, and the worker that gets it runs the registered type on the
registered value. -/
theorem scheduled_once {jobs : Jobs.JobRegistry P} (h : SystemRun c log s)
    (he : c.registry name = some ⟨.job J v, schedule⟩) (hforward : schedule.Forward)
    (harm : jobs.arm J.name = some J) (hJ : J.RoundTrips) :
    ((Cron.fires (cronLog name log)).IsChain fun f g =>
      schedule.Apart (c.scheduler g.scheduler).timezone f.time g.time) ∧
    ∀ f ∈ Cron.fires (cronLog name log), ∃ id, f.jobs = [id] ∧
      (∀ name' J' v' schedule', c.registry name' = some ⟨.job J' v', schedule'⟩ →
        ∀ g ∈ Cron.fires (cronLog name' log), id ∈ g.jobs → name' = name ∧ g = f) ∧
      (∃! fate : Jobs.Fate, fate.Holds id s.queue.db (queueLog log)) ∧
      ∀ w job, (s.queue.workers w).phase.job? = some job → job.jobId = id →
        jobs.runJob job = .ok ⟨J, v⟩ ∧ job.context = c.context f.scheduler ∧
          job.createdAt = f.time.toNat / 1000 := by
  have hinv := Inv.of_run h
  have honce := Cron.Inv.of_run hforward (cron_run h he)
  refine ⟨honce.apart, fun f hf => ?_⟩
  obtain ⟨id, hid⟩ := List.length_eq_one_iff.mp (honce.inserts f hf)
  have hmem : id ∈ f.jobs := hid ▸ List.mem_singleton.mpr rfl
  have hfiled := hinv.filed name J v schedule he f hf id hmem
  obtain ⟨payload, hv, hrow⟩ := hfiled.row
  refine ⟨id, hid, ?_, Jobs.fate_of_inserted (queue_run h) hfiled.inserted, ?_⟩
  · intro name' J' v' schedule' he' g hg hid'
    exact fire_of_id hinv he he' hf hg hmem hid'
  · intro w job hjob hjid
    obtain ⟨hruns, hcontext, -, hcreated⟩ := hrow.runs hv harm hJ hjob hjid
    exact ⟨hruns, hcontext, hcreated⟩

theorem three_retries : 3 ≤ Jobs.i32Max := by decide

/-- An hourly cron that enqueues an addition. -/
def hourlyAddition : Config (List ℕ) Unit where
  registry := CronRegistry.new.registerJob Jobs.addJob (2, 3) (.cron Cron.hourly)
  scheduler _ := ⟨0, ()⟩
  version _ := "1"
  worker _ := .default 3 three_retries

/-- One claim of the cron by a scheduler that finds it due at `now`. -/
def claim (w : ℕ) (now : ℤ) (first : Bool) (id : ℕ) : List Cron.Action :=
  [.readMap w, .poll w now, .begin w, .setLocal w, .setLocal w, .setLocal w, .select w] ++
    (if first then [.insertRow w] else []) ++ [.readTime w, .insertJob w id, .update w, .commit w]

/-- Two hours, each claimed by another scheduler; worker 5 has the first job. -/
def twoHours : List (Action (List ℕ)) :=
  .tick 3600000000000 :: (claim 1 3600000000000 true 10).map (.cron "AddJob") ++
    [.queue (.sendClaim 5), .queue (.applyClaim 5 3600000000 []), .queue (.receiveClaim 5)] ++
    .tick 3600000000000 :: (claim 2 7200000000000 false 11).map (.cron "AddJob")

theorem hourlyAddition_registry : hourlyAddition.registry "AddJob" =
    some ⟨.job Jobs.addJob (2, 3), .cron Cron.hourly⟩ := rfl

theorem twoHours_runs : ∃ log s, SystemRun hourlyAddition log s ∧
    (Cron.fires (cronLog "AddJob" log)).map Cron.Fire.jobs = [[10], [11]] ∧
      (∃ job, (s.queue.workers 5).phase.job? = some job ∧ job.jobId = 10) ∧
        (s.queue.workers 6).phase = .idle ∧ ∀ r ∈ s.queue.db.jobs.rows, r.errorCount < 3 := by
  obtain ⟨log, s, hrun, hend⟩ := StepRun.exists_free_run (step hourlyAddition) .init twoHours
    (fun log s => (Cron.fires (cronLog "AddJob" log)).map Cron.Fire.jobs == [[10], [11]] &&
      ((s.queue.workers 5).phase.job?.any fun job => job.jobId == 10) &&
      (s.queue.workers 6).phase == .idle &&
      s.queue.db.jobs.rows.all fun r => r.errorCount < 3) (by decide +kernel)
  simp only [Bool.and_eq_true, beq_iff_eq, List.all_eq_true, decide_eq_true_eq,
    Option.any_eq_true] at hend
  obtain ⟨⟨⟨hfires, hjob⟩, hidle⟩, hfew⟩ := hend
  exact ⟨log, s, hrun, hfires, hjob, hidle, hfew⟩

theorem addJob_roundTrips : Jobs.addJob.RoundTrips := by
  rintro v payload ⟨⟩
  rfl

theorem scheduled_once_hourly : ∃ (log : List Event) (s : State (List ℕ)) (f : Cron.Fire)
    (job : Jobs.JobFromDB (List ℕ)), SystemRun hourlyAddition log s ∧
      f ∈ Cron.fires (cronLog "AddJob" log) ∧ f.jobs = [10] ∧
        (∃! fate : Jobs.Fate, fate.Holds 10 s.queue.db (queueLog log)) ∧
          (s.queue.workers 5).phase.job? = some job ∧
            Jobs.JobRegistry.runJob [Jobs.addJob] job = .ok ⟨Jobs.addJob, (2, 3)⟩ := by
  obtain ⟨log, s, hrun, hfires, ⟨job, hjob, hid⟩, -, -⟩ := twoHours_runs
  have hmem : [10] ∈ (Cron.fires (cronLog "AddJob" log)).map Cron.Fire.jobs := by simp [hfires]
  obtain ⟨f, hf, hten⟩ := List.mem_map.mp hmem
  have harm : Jobs.JobRegistry.arm [Jobs.addJob] Jobs.addJob.name = some Jobs.addJob := rfl
  obtain ⟨id, hjobs, -, hfate, hruns⟩ := (scheduled_once hrun hourlyAddition_registry
    Cron.hourly_forward harm addJob_roundTrips).2 f hf
  rw [hten] at hjobs
  cases hjobs
  exact ⟨log, s, f, job, hrun, hf, hten, hfate, hjob, (hruns 5 job hjob hid).1⟩

/-! ## Nothing scheduled is left behind -/

/-- What the queue does alone, it does in the system. -/
theorem queue_lifts {D : Jobs.State P → Jobs.Action P → Prop} {q : Jobs.State P}
    {qs : List Jobs.Event} (h : StepRun.Run (Jobs.step c.worker) D s.queue qs q) :
    ∃ s', StepRun.Run (step c) StepRun.Free s (qs.map .queue) s' ∧ s'.queue = q := by
  induction h with
  | start => exact ⟨s, .start, rfl⟩
  | @snoc qs qs₁ q q₁ a _ _ hs ih =>
      obtain ⟨s₁, hrun, rfl⟩ := ih
      rw [List.map_append]
      by_cases htick : ∃ elapsed, a = .tick elapsed
      · obtain ⟨elapsed, rfl⟩ := htick
        cases hs
        exact ⟨_, .snoc hrun trivial (show step c s₁ (.tick elapsed) = some (_, []) from rfl), rfl⟩
      · have hstep : step c s₁ (.queue a) = some ({ s₁ with queue := q₁ }, qs₁.map .queue) := by
          cases a with
          | tick elapsed => exact absurd ⟨elapsed, rfl⟩ htick
          | _ => simp only [step, hs, Option.map_some]
        exact ⟨_, .snoc hrun trivial hstep, rfl⟩

/-- From every state of every run, whatever the bodies of jobs return, one idle worker can
bring every job that was ever scheduled to its end. -/
theorem scheduled_settled {w : Jobs.OwnerToken} (h : SystemRun c log s)
    (verdict : Jobs.JobFromDB P → Option String) (hidle : (s.queue.workers w).phase = .idle)
    (hretries : (c.worker w).maxRetries < Jobs.i32Max)
    (hcount : ∀ r ∈ s.queue.db.jobs.rows, r.errorCount < Jobs.i32Max) :
    ∃ qs s', StepRun.Run (step c) StepRun.Free s (qs.map .queue) s' ∧
      StepRun.Run (Jobs.step c.worker) (Jobs.Ruled w verdict) s.queue qs s'.queue ∧
        ∀ name (J : Jobs.JobType P) (v : J.Value) schedule,
          c.registry name = some ⟨.job J v, schedule⟩ →
            ∀ f ∈ Cron.fires (cronLog name log), ∀ id ∈ f.jobs,
              Jobs.Fate.completed.Holds id s'.queue.db (queueLog log ++ qs) ∨
                Jobs.Fate.deadLettered.Holds id s'.queue.db (queueLog log ++ qs) := by
  obtain ⟨qs, q, hsettle, hempty⟩ := Jobs.settles (queue_run h) verdict hidle hretries hcount
  obtain ⟨s', hrun, rfl⟩ := queue_lifts hsettle
  refine ⟨qs, s', hrun, hsettle, ?_⟩
  intro name J v schedule he f hf id hid
  have hinserted := ((Inv.of_run h).filed name J v schedule he f hf id hid).inserted
  exact Jobs.ended_of_empty ((queue_run h).trans hsettle.free) hempty
    (List.mem_append_left _ hinserted)

/-- Both additions of the two hours, after the run of worker 6 with failing bodies. -/
theorem scheduled_settled_hourly : ∃ (log : List Event) (s : State (List ℕ))
    (qs : List Jobs.Event) (s' : State (List ℕ)), SystemRun hourlyAddition log s ∧
      StepRun.Run (step hourlyAddition) StepRun.Free s (qs.map .queue) s' ∧
        ∀ id ∈ [10, 11], Jobs.Fate.completed.Holds id s'.queue.db (queueLog log ++ qs) ∨
          Jobs.Fate.deadLettered.Holds id s'.queue.db (queueLog log ++ qs) := by
  obtain ⟨log, s, hrun, hfires, -, hidle, hfew⟩ := twoHours_runs
  have hcount : ∀ r ∈ s.queue.db.jobs.rows, r.errorCount < Jobs.i32Max :=
    fun r hr => (hfew r hr).trans (by decide)
  obtain ⟨qs, s', hsettle, -, hend⟩ :=
    scheduled_settled hrun (fun _ => some "no") hidle (by decide) hcount
  refine ⟨log, s, qs, s', hrun, hsettle, fun id hid => ?_⟩
  have hmem : [id] ∈ (Cron.fires (cronLog "AddJob" log)).map Cron.Fire.jobs := by
    rw [hfires]
    fin_cases hid <;> simp
  obtain ⟨f, hf, hjobs⟩ := List.mem_map.mp hmem
  exact hend "AddJob" Jobs.addJob (2, 3) (.cron Cron.hourly) hourlyAddition_registry f hf id
    (hjobs ▸ List.mem_singleton.mpr rfl)

end Cja.Scheduled
