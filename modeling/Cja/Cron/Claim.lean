import Cja.Cron.Schedule

/-!
# Claiming a cron

Any number of schedulers tick one cron. A tick decides three times whether the
cron is due: by the process clock on a map read earlier, by the row lock, and by
the database clock under that lock. Each statement of `claim_due`, `fire` and
`commit_claim` is one step, and each may fail instead; a failed or abandoned
transaction stays open at the database until its rollback arrives, and a commit
whose answer was lost may still be applied. The server may also end a session
that its scheduler still believes in.

Only the transaction that holds the row of the cron, by `FOR UPDATE` or by its
own uncommitted insert, has anything to write, so the open transactions are one
optional `Holder`.
-/
namespace Cja.Cron

variable {Tz : Type}

/-! ## Errors -/

inductive SqlxError
  | database (code : Option String)
  | io
  | poolClosed
  | other
deriving Repr, DecidableEq

def recoverableSqlstate (code : String) : Bool :=
  code == "55P03" || code == "57014" || code == "25P03" || code == "57P01" ||
    code.startsWith "08"

def recoverable : SqlxError → Bool
  | .database code => code.any recoverableSqlstate
  | .io | .poolClosed => true
  | .other => false

/-! ## Schedulers and the database -/

inductive CronAction
  | callback
  | job
deriving Repr, DecidableEq

structure CronJob (Tz : Type) where
  action : CronAction
  schedule : Schedule Tz

/-- How many rows of `jobs` one fire inserts. -/
def CronAction.inserts : CronAction → ℕ
  | .callback => 0
  | .job => 1

structure SchedulerConfig (Tz : Type) where
  startedAt : ℤ
  timezone : Tz

inductive Phase
  | idle
  /-- `last_enqueue_map` is read. -/
  | mapped (lastEnqueue : Option ℤ)
  | beginning
  /-- The transaction is open; `done` of its three timeouts are set. -/
  | setting (done : ℕ)
  | selecting
  | inserting
  | reselecting
  | timing (lastRun : Option ℤ)
  | claimed (time : ℤ) (lastRun : Option ℤ)
  | updating (time : ℤ) (lastRun : Option ℤ)
  | committing (time : ℤ) (lastRun : Option ℤ)
  /-- The claim is committed; the callback runs. -/
  | invoking (time : ℤ)
  /-- The worker returned the error of a tick, or died. -/
  | stopped
deriving Repr, DecidableEq

/-- Whether the claimant still drives its transaction. -/
inductive Fate
  | live
  | dropped
  | commitSent
deriving Repr, DecidableEq

/-- The transaction that holds the row, with what it has written. -/
structure Holder where
  claimant : ℕ
  fate : Fate
  inserted : Option ℤ
  stamp : Option ℤ
  jobs : List ℕ
deriving Repr, DecidableEq

def Holder.new (w : ℕ) (inserted : Option ℤ) : Holder := ⟨w, .live, inserted, none, []⟩

/-- `lastRunAt` is the committed row of the cron, `jobs` the rows of the queue
that its fires inserted, with their `run_at`. -/
structure State where
  clock : ℤ
  lastRunAt : Option ℤ
  jobs : List (ℕ × ℤ)
  holder : Option Holder
  schedulers : ℕ → Phase

def State.init (clock : ℤ) : State := ⟨clock, none, [], none, fun _ => .idle⟩

inductive Event
  /-- A transaction committed with a new `last_run_at`. -/
  | fired (scheduler : ℕ) (time : ℤ) (jobs : List ℕ)
  | invoked (scheduler : ℕ) (time : ℤ)
deriving Repr, DecidableEq

inductive Action
  | tick (elapsed : ℕ)
  | readMap (w : ℕ)
  /-- `CronJob::tick` with the process clock `now`. -/
  | poll (w : ℕ) (now : ℤ)
  | begin (w : ℕ)
  | setLocal (w : ℕ)
  | select (w : ℕ)
  | insertRow (w : ℕ)
  | reselect (w : ℕ)
  | readTime (w : ℕ)
  | insertJob (w : ℕ) (id : ℕ)
  | update (w : ℕ)
  | commit (w : ℕ)
  | invoke (w : ℕ) (ok : Bool)
  /-- The statement in flight answers with an error. -/
  | fails (w : ℕ) (error : SqlxError)
  /-- The payload of the job does not serialize. -/
  | serdeFails (w : ℕ)
  | die (w : ℕ)
  /-- The rollback of an abandoned transaction, or the end of its session. -/
  | rollback
  /-- A commit whose answer nobody awaits. -/
  | commitArrives
deriving Repr, DecidableEq

abbrev StepResult := Option (State × List Event)

def State.setPhase (s : State) (w : ℕ) (phase : Phase) : State :=
  { s with schedulers := Function.update s.schedulers w phase }

def State.hold (s : State) (holder : Option Holder) : State := { s with holder := holder }

/-- The open transaction of a scheduler, if it holds the row. -/
def State.own (s : State) (w : ℕ) : Option Holder :=
  s.holder.filter fun h => h.claimant = w ∧ h.fate = .live

/-- Dropping `sqlx::Transaction`: what the scheduler holds is left to the
database, with the commit on its way if it was sent. -/
def State.drop (s : State) (w : ℕ) (fate : Fate) : State :=
  match s.own w with
  | some h => s.hold (some { h with fate := fate })
  | none => s

/-- The database applies the commit of the holder. -/
def State.applyCommit (s : State) (h : Holder) : State × List Event :=
  ({ s with
      lastRunAt := (h.stamp.or h.inserted).or s.lastRunAt
      jobs := s.jobs ++ h.jobs.map fun id => (id, h.stamp.getD s.clock)
      holder := none },
    h.stamp.toList.map fun time => .fired h.claimant time h.jobs)

/-- `SELECT last_run_at .. FOR UPDATE NOWAIT`: a locked row is an error, which
`fails` stands for. -/
def State.lockRow (s : State) (w : ℕ) (last : ℤ) : StepResult :=
  match s.holder with
  | none => some ((s.setPhase w (.timing (some last))).hold (some (.new w none)), [])
  | some _ => none

def State.select (s : State) (w : ℕ) : StepResult :=
  match s.schedulers w with
  | .selecting =>
      match s.lastRunAt with
      | none => some (s.setPhase w .inserting, [])
      | some last => s.lockRow w last
  | _ => none

/-- `INSERT .. ON CONFLICT (name) DO NOTHING`: it conflicts with a committed
row, and waits for an uncommitted one. -/
def State.insertRow (s : State) (w : ℕ) : StepResult :=
  match s.schedulers w with
  | .inserting =>
      match s.lastRunAt, s.holder with
      | some _, _ => some (s.setPhase w .reselecting, [])
      | none, none =>
          some ((s.setPhase w (.timing none)).hold (some (.new w (some s.clock))), [])
      | none, some _ => none
  | _ => none

def State.reselect (s : State) (w : ℕ) : StepResult :=
  match s.schedulers w with
  | .reselecting => s.lastRunAt.bind fun last => s.lockRow w last
  | _ => none

/-- `SELECT clock_timestamp()` and the decision on it. -/
def State.readTime (job : CronJob Tz) (config : SchedulerConfig Tz) (s : State) (w : ℕ) :
    StepResult :=
  match s.schedulers w, s.own w with
  | .timing lastRun, some _ =>
      if job.schedule.shouldRun lastRun s.clock config.startedAt config.timezone then
        some (s.setPhase w (.claimed s.clock lastRun), [])
      else some ((s.drop w .dropped).setPhase w .idle, [])
  | _, _ => none

/-- `enqueue_on_connection` inside the claim, with `run_at` its time. -/
def State.insertJob (job : CronJob Tz) (s : State) (w id : ℕ) : StepResult :=
  match s.schedulers w, s.own w, job.action with
  | .claimed time lastRun, some h, .job =>
      some ((s.setPhase w (.updating time lastRun)).hold (some { h with jobs := h.jobs ++ [id] }),
        [])
  | _, _, _ => none

/-- `UPDATE crons SET last_run_at`: a callback comes here from its claim, a job
after its insert. -/
def State.update (job : CronJob Tz) (s : State) (w : ℕ) : StepResult :=
  match s.schedulers w, s.own w, job.action with
  | .claimed time lastRun, some h, .callback | .updating time lastRun, some h, .job =>
      some ((s.setPhase w (.committing time lastRun)).hold
        (some { h with stamp := some time }), [])
  | _, _, _ => none

def State.commit (job : CronJob Tz) (s : State) (w : ℕ) : StepResult :=
  match s.schedulers w, s.own w with
  | .committing time _, some h =>
      let next : Phase := match job.action with
        | .callback => .invoking time
        | .job => .idle
      let r := s.applyCommit h
      some (r.1.setPhase w next, r.2)
  | _, _ => none

/-- Whether a statement of the phase is in flight. -/
def Phase.inStatement : Phase → Bool
  | .idle | .beginning | .setting _ | .selecting | .inserting | .reselecting | .timing _
  | .claimed _ _ | .updating _ _ | .committing _ _ => true
  | .mapped _ | .invoking _ | .stopped => false

/-- What becomes of an open transaction that the phase leaves. -/
def Phase.fate : Phase → Fate
  | .committing _ _ => .commitSent
  | _ => .dropped

/-- A recoverable error skips the tick, any other ends the worker; the map is
read outside the claim, where every error ends it. -/
def State.fails (s : State) (w : ℕ) (error : SqlxError) : StepResult :=
  let phase := s.schedulers w
  if phase.inStatement then
    let next : Phase := if recoverable error && phase != .idle then .idle else .stopped
    some ((s.drop w phase.fate).setPhase w next, [])
  else none

def step (job : CronJob Tz) (config : ℕ → SchedulerConfig Tz) (s : State) : Action → StepResult
  | .tick elapsed => some ({ s with clock := s.clock + elapsed }, [])
  | .readMap w =>
      match s.schedulers w with
      | .idle => some (s.setPhase w (.mapped s.lastRunAt), [])
      | _ => none
  | .poll w now =>
      match s.schedulers w with
      | .mapped lastEnqueue =>
          if job.schedule.shouldRun lastEnqueue now (config w).startedAt (config w).timezone then
            some (s.setPhase w .beginning, [])
          else some (s.setPhase w .idle, [])
      | _ => none
  | .begin w =>
      match s.schedulers w with
      | .beginning => some (s.setPhase w (.setting 0), [])
      | _ => none
  | .setLocal w =>
      match s.schedulers w with
      | .setting done =>
          some (s.setPhase w (if done + 1 < 3 then .setting (done + 1) else .selecting), [])
      | _ => none
  | .select w => s.select w
  | .insertRow w => s.insertRow w
  | .reselect w => s.reselect w
  | .readTime w => s.readTime job (config w) w
  | .insertJob w id => s.insertJob job w id
  | .update w => s.update job w
  | .commit w => s.commit job w
  | .invoke w ok =>
      match s.schedulers w with
      | .invoking time =>
          some (s.setPhase w (if ok then .idle else .stopped), [.invoked w time])
      | _ => none
  | .fails w error => s.fails w error
  | .serdeFails w =>
      match s.schedulers w, job.action with
      | .claimed _ _, .job => some ((s.drop w .dropped).setPhase w .stopped, [])
      | _, _ => none
  | .die w => some ((s.drop w (s.schedulers w).fate).setPhase w .stopped, [])
  | .rollback => s.holder.map fun _ => (s.hold none, [])
  | .commitArrives =>
      match s.holder with
      | some h => if h.fate = .commitSent then some (s.applyCommit h) else none
      | none => none

abbrev CronRun (job : CronJob Tz) (config : ℕ → SchedulerConfig Tz) (clock : ℤ) :
    List Event → State → Prop :=
  StepRun.Run (step job config) StepRun.Free (State.init clock)

end Cja.Cron
