import Cja.Jobs.Tables

/-!
# The job worker as a step function

A worker is in one phase of the loop of `job_worker`; the database, the clock
and the futures that were dropped while their statement was in flight are part
of the state. Every action is one thing that can happen: a statement is sent,
the database applies it, its answer or an error reaches the worker, the body
returns, a deadline passes, the worker shuts down or dies.

A claim and a heartbeat are sent, applied and answered in three steps, since
their timing matters. The statements that finalize a body are applied and
answered in one step, where `applied` says whether the database took them; the
worker goes back to its loop on every answer and on every error alike. Where
shutdown or death drops a future, its statement stays behind in `dropped` (a
heartbeat in `beats`) and the database may apply it at any later moment.

The body itself is not modelled here: it returns when the environment says so.
-/
namespace Cja.Jobs

/-! ## Configuration -/

/-- `Duration::MAX` in nanoseconds. -/
def durationMax : ℕ := 18446744073709551615999999999

structure JobWorkerConfig where
  heartbeatInterval : ℕ
  reclaimWindow : ℕ
deriving Repr, DecidableEq

def defaultMaxRetries : ℕ := 20
def defaultHeartbeatInterval : ℕ := 30000000000
def defaultReclaimWindow : ℕ := 120000000000

def JobWorkerConfig.default : JobWorkerConfig := ⟨defaultHeartbeatInterval, defaultReclaimWindow⟩

inductive ConfigError
  | heartbeatNotPositive
  | windowTooShort
  | heartbeatOutOfRange
  | windowOutOfRange
  | noQueryTimeout
  | negativeMaxRetries
deriving Repr, DecidableEq

/-- The window is passed to PostgreSQL in whole microseconds. -/
def JobWorkerConfig.validate (c : JobWorkerConfig) : Except ConfigError ℕ :=
  if c.heartbeatInterval = 0 then .error .heartbeatNotPositive
  else if durationMax < c.heartbeatInterval * 3 ∨ c.reclaimWindow < c.heartbeatInterval * 3 then
    .error .windowTooShort
  else if i64Max < c.heartbeatInterval / 1000 then .error .heartbeatOutOfRange
  else if i64Max < c.reclaimWindow / 1000 then .error .windowOutOfRange
  else if c.heartbeatInterval / 1000 = 0 ∨ c.reclaimWindow / 1000 = 0 ∨
      c.heartbeatInterval / 3 = 0 then .error .noQueryTimeout
  else .ok (c.reclaimWindow / 1000)

/-- What `job_worker` checked before its loop starts. -/
structure Settings where
  config : JobWorkerConfig
  maxRetries : ℕ
  reclaimWindowMicros : ℕ
  maxRetries_le : maxRetries ≤ i32Max
  valid : config.validate = .ok reclaimWindowMicros

/-- The argument checks of `job_worker` and `Worker::new`; `max_retries` is an
`i32`. -/
def jobWorker (config : JobWorkerConfig) (maxRetries : ℤ) (h : maxRetries ≤ i32Max) :
    Except ConfigError Settings :=
  if maxRetries < 0 then .error .negativeMaxRetries
  else match hv : config.validate with
    | .error e => .error e
    | .ok window => .ok ⟨config, maxRetries.toNat, window, by omega, hv⟩

/-- The loop starts with every `Settings`, and with nothing else. -/
theorem jobWorker_eq_ok {config : JobWorkerConfig} {maxRetries : ℤ} {h : maxRetries ≤ i32Max}
    {settings : Settings} : jobWorker config maxRetries h = .ok settings ↔
      settings.config = config ∧ (settings.maxRetries : ℤ) = maxRetries := by
  unfold jobWorker
  constructor
  · intro hok
    split_ifs at hok with hneg
    split at hok
    · cases hok
    · cases hok
      exact ⟨rfl, Int.toNat_of_nonneg (not_lt.mp hneg)⟩
  · rintro ⟨rfl, rfl⟩
    rw [if_neg (by omega)]
    split
    · case _ e he =>
        rw [settings.valid] at he
        cases he
    · case _ window hwindow =>
        rw [settings.valid] at hwindow
        cases hwindow
        rfl

/-- The default configuration passes its own check. -/
def Settings.default (maxRetries : ℕ) (h : maxRetries ≤ i32Max) : Settings :=
  ⟨.default, maxRetries, defaultReclaimWindow / 1000, h, rfl⟩

theorem JobWorkerConfig.validate_ok {c : JobWorkerConfig} {window : ℕ}
    (h : c.validate = .ok window) :
    0 < c.heartbeatInterval ∧ c.heartbeatInterval * 3 ≤ c.reclaimWindow ∧
      window = c.reclaimWindow / 1000 ∧ 1000 ≤ c.heartbeatInterval := by
  unfold JobWorkerConfig.validate at h
  split_ifs at h with h₁ h₂ h₃ h₄ h₅
  simp only [Except.ok.injEq] at h
  omega

/-! ## A worker -/

structure LeaseTracker where
  lastRefreshSent : ℕ
  heartbeatInterval : ℕ
  reclaimWindow : ℕ
deriving Repr, DecidableEq

def LeaseTracker.deadline (t : LeaseTracker) : ℕ :=
  t.lastRefreshSent + t.reclaimWindow - t.heartbeatInterval / 2

variable {P : Type}

structure ClaimedJob (P : Type) extends ClaimedRow P where
  claimSentAt : ℕ
deriving Repr, DecidableEq

/-- The lease starts at the send time of the claim. -/
def ClaimedJob.tracker (cfg : Settings) (c : ClaimedJob P) : LeaseTracker :=
  ⟨c.claimSentAt, cfg.config.heartbeatInterval, cfg.config.reclaimWindow⟩

/-- The heartbeat in flight: `owned` is the database's answer once applied,
whether exactly one row was updated. -/
structure Beat where
  sentAt : ℕ
  owned : Option Bool
deriving Repr, DecidableEq

inductive Phase (P : Type)
  /-- Between ticks: polling, sleeping, backing off. -/
  | idle
  /-- The claim of `fetch_next_job` is sent. -/
  | fetching (claimSentAt : ℕ)
  /-- The claim is applied; its row is on the way. -/
  | fetched (row : Option (ClaimedJob P))
  /-- An expired lease with no attempt left: `dead_letter_owned` inside the fetch. -/
  | expiring (claimed : ClaimedJob P)
  /-- The body is polled under the watchdog. -/
  | running (job : JobFromDB P) (tracker : LeaseTracker) (nextTick : ℕ) (beat : Option Beat)
  | succeeded (job : JobFromDB P)
  | failing (job : JobFromDB P) (message : String)
  /-- Out of the loop, at `cleanup_worker_locks`. -/
  | cleaning
  /-- Gone; `released` if `job_worker` returned `Ok`. -/
  | exited (released : Bool)
deriving Repr, DecidableEq

/-- The phase after the body: `none` is `Ok`, an error or a panic carries its
message. -/
def Phase.returned (job : JobFromDB P) : Option String → Phase P
  | none => .succeeded job
  | some message => .failing job message

/-- A statement other than a heartbeat. -/
inductive Statement (P : Type)
  | claim (sentAt : ℕ)
  | delete (job : JobFromDB P)
  | fail (job : JobFromDB P) (message : String)
  | deadLetter (job : JobFromDB P) (count : ℕ) (message : String) (failedBody : Bool)
deriving Repr, DecidableEq

structure Worker (P : Type) where
  phase : Phase P := .idle
  abandoned : List Uuid := []
  dropped : Option (Statement P) := none
  beats : List (Uuid × ℕ) := []
deriving Repr, DecidableEq

/-- Adding to and removing from the `HashSet` of abandoned jobs. -/
def Worker.abandon (wk : Worker P) (j : Uuid) : Worker P :=
  { wk with abandoned := j :: wk.abandoned }

def Worker.reclaim (wk : Worker P) (j : Uuid) : Worker P :=
  { wk with abandoned := wk.abandoned.filter (· ≠ j) }

/-- The heartbeat future is dropped with the scope of the body; a statement
not yet applied stays in flight. -/
def Phase.droppedBeat : Phase P → List (Uuid × ℕ)
  | .running job _ _ (some ⟨sentAt, none⟩) => [(job.jobId, sentAt)]
  | _ => []

def Worker.leave (wk : Worker P) (phase : Phase P) : Worker P :=
  { wk with phase := phase, beats := wk.phase.droppedBeat ++ wk.beats }

/-- The statement a phase waits for. A failed body at the limit is
dead-lettered with the next count, which must still be an `i32`. -/
def Phase.statement (cfg : Settings) : Phase P → Option (Statement P)
  | .fetching sentAt => some (.claim sentAt)
  | .expiring c =>
      some (.deadLetter c.job c.job.errorCount
        (c.job.lastErrorMessage.getD "Job lease expired") false)
  | .succeeded job => some (.delete job)
  | .failing job message =>
      if cfg.maxRetries ≤ job.errorCount then
        if job.errorCount + 1 ≤ i32Max then
          some (.deadLetter job (job.errorCount + 1) message true)
        else none
      else some (.fail job message)
  | _ => none

/-- The phases whose statement ends the claim, outside the claim itself. -/
def Phase.finalizing : Phase P → Bool
  | .expiring _ | .succeeded _ | .failing _ _ => true
  | _ => false

def Phase.live : Phase P → Bool
  | .cleaning | .exited _ => false
  | _ => true

def Worker.inFlight (cfg : Settings) (wk : Worker P) : Option (Statement P) :=
  (wk.phase.statement cfg).or wk.dropped

/-! ## Events -/

/-- What a step did to one job, as the database or the worker's log shows it. -/
inductive Event
  | inserted (job : Uuid)
  | claimed (w : OwnerToken) (job : Uuid) (previous : Option OwnerToken) (count : ℕ)
  | dispatched (w : OwnerToken) (job : Uuid) (count : ℕ)
  | returned (w : OwnerToken) (job : Uuid) (ok owned : Bool)
  | abandoned (w : OwnerToken) (job : Uuid)
  | failed (w : OwnerToken) (job : Uuid)
  | released (w : OwnerToken) (job : Uuid)
  | deadLettered (w : OwnerToken) (job : Uuid) (count : ℕ) (failedBody : Bool)
  | deleted (w : OwnerToken) (job : Uuid)
deriving Repr, DecidableEq

def Event.job : Event → Uuid
  | .inserted j | .claimed _ j _ _ | .dispatched _ j _ | .returned _ j _ _ | .abandoned _ j
  | .failed _ j | .released _ j | .deadLettered _ j _ _ | .deleted _ j => j

def claimEvents (w : OwnerToken) : Option (ClaimedRow P) → List Event
  | none => []
  | some c => [.claimed w c.job.jobId c.previousLockedBy c.job.errorCount]

/-- The database applies a statement of worker `w`; `none` is an error. -/
def Statement.apply (cfg : Settings) (w : OwnerToken) (now : ℕ) (skip : List Uuid)
    (db : Db P) : Statement P → Option (Db P × List Event)
  | .claim _ =>
      let r := claimRow w cfg.reclaimWindowMicros now skip db
      some (r.1, claimEvents w r.2)
  | .delete job =>
      let r := deleteRow w job.jobId db
      some (r.1, if r.2 = 1 then [.deleted w job.jobId] else [])
  | .fail job message =>
      (failRow w job.jobId message now db).map fun r =>
        (r.1, if r.2 = 1 then [.failed w job.jobId] else [])
  | .deadLetter job count message failedBody =>
      (deadLetterOwned w job count message now db).map fun r =>
        (r.1, if r.2 then [.deadLettered w job.jobId count failedBody] else [])

def Statement.sentAt : Statement P → ℕ
  | .claim sentAt => sentAt
  | _ => 0

def releasedEvents (w : OwnerToken) (abandoned : List Uuid) (db : Db P) : List Event :=
  (db.jobs.rows.filter (JobRow.releasable w abandoned)).map fun r => .released w r.jobId

/-! ## The system -/

/-- `issued` holds the job ids `Uuid::new_v4` has given out, which never repeat. -/
structure State (P : Type) where
  now : ℕ
  db : Db P
  workers : OwnerToken → Worker P
  issued : List Uuid

def State.init : State P := ⟨0, .empty, fun _ => {}, []⟩

inductive Action (P : Type)
  | tick (elapsed : ℕ)
  | enqueue (job : NewJob P)
  | sendClaim (w : OwnerToken)
  | applyClaim (w : OwnerToken) (now : ℕ) (skip : List Uuid)
  /-- An error answers a claim that was not applied. -/
  | claimFails (w : OwnerToken)
  | receiveClaim (w : OwnerToken)
  /-- The claim was applied and the worker sees an error. -/
  | claimLost (w : OwnerToken)
  | sendBeat (w : OwnerToken)
  | applyBeat (w : OwnerToken) (now : ℕ)
  | receiveBeat (w : OwnerToken)
  /-- The heartbeat failed or timed out; it may still be in flight. -/
  | loseBeat (w : OwnerToken)
  | bodyReturns (w : OwnerToken) (error : Option String)
  | watchdog (w : OwnerToken)
  | finish (w : OwnerToken) (now : ℕ) (applied : Bool)
  /-- The shutdown path drops whatever future the loop awaits. -/
  | shutdown (w : OwnerToken)
  | die (w : OwnerToken)
  | cleanup (w : OwnerToken) (applied answered : Bool)
  | applyDropped (w : OwnerToken) (now : ℕ) (skip : List Uuid)
  | applyDroppedBeat (w : OwnerToken) (i : ℕ) (now : ℕ)

abbrev StepResult (P : Type) := Option (State P × List Event)

def State.setWorker (s : State P) (w : OwnerToken) (wk : Worker P) : State P :=
  { s with workers := Function.update s.workers w wk }

def State.setPhase (s : State P) (w : OwnerToken) (phase : Phase P) : State P :=
  s.setWorker w { s.workers w with phase := phase }

def State.setDb (s : State P) (db : Db P) : State P := { s with db := db }

/-- `NOW()` of a statement: not before it was sent, not after this moment. -/
def stampable (sentAt : ℕ) (now : ℕ) (clock : ℕ) : Bool :=
  sentAt / 1000 ≤ now && now ≤ clock / 1000

def State.owns (s : State P) (w : OwnerToken) (j : Uuid) : Bool :=
  (s.db.jobs.lookup j).any fun r => r.lockedBy == some w

def State.enqueue (s : State P) (n : NewJob P) : StepResult P :=
  if n.jobId ∈ s.issued then none
  else (enqueueOnConnection n s.db).map fun db =>
    ({ s with db := db, issued := n.jobId :: s.issued }, [.inserted n.jobId])

def State.sendClaim (s : State P) (w : OwnerToken) : StepResult P :=
  match (s.workers w).phase with
  | .idle => some (s.setPhase w (.fetching s.now), [])
  | _ => none

def State.applyClaim (cfg : Settings) (s : State P) (w : OwnerToken) (now : ℕ)
    (skip : List Uuid) : StepResult P :=
  match (s.workers w).phase with
  | .fetching sentAt =>
      if stampable sentAt now s.now then
        let r := claimRow w cfg.reclaimWindowMicros now skip s.db
        some ((s.setPhase w (.fetched (r.2.map fun c => ⟨c, sentAt⟩))).setDb r.1,
          claimEvents w r.2)
      else none
  | _ => none

def State.claimFails (s : State P) (w : OwnerToken) : StepResult P :=
  match (s.workers w).phase with
  | .fetching _ => some (s.setPhase w .idle, [])
  | _ => none

/-- The rest of `fetch_next_job` after the row arrived, and the entry check of
`run_next_job`. -/
def State.receiveClaim (cfg : Settings) (s : State P) (w : OwnerToken) : StepResult P :=
  match (s.workers w).phase with
  | .fetched none => some (s.setPhase w .idle, [])
  | .fetched (some c) =>
      let wk := (s.workers w).reclaim c.job.jobId
      if c.previousLockedBy.isSome ∧ cfg.maxRetries ≤ c.previousErrorCount then
        some (s.setWorker w { wk with phase := .expiring c }, [])
      else
        if (c.tracker cfg).deadline ≤ s.now then
          some (s.setWorker w { wk.abandon c.job.jobId with phase := .idle },
            [.abandoned w c.job.jobId])
        else
          some (s.setWorker w
              { wk with phase := .running c.job (c.tracker cfg)
                          (c.claimSentAt + cfg.config.heartbeatInterval) none },
            [.dispatched w c.job.jobId c.job.errorCount])
  | _ => none

def State.claimLost (s : State P) (w : OwnerToken) : StepResult P :=
  match (s.workers w).phase with
  | .fetched _ => some (s.setPhase w .idle, [])
  | _ => none

def State.sendBeat (s : State P) (w : OwnerToken) : StepResult P :=
  match (s.workers w).phase with
  | .running job tracker nextTick none =>
      if nextTick ≤ s.now then
        some (s.setPhase w (.running job tracker (s.now + tracker.heartbeatInterval)
          (some ⟨s.now, none⟩)), [])
      else none
  | _ => none

def State.applyBeat (s : State P) (w : OwnerToken) (now : ℕ) : StepResult P :=
  match (s.workers w).phase with
  | .running job tracker nextTick (some ⟨sentAt, none⟩) =>
      if stampable sentAt now s.now then
        let r := heartbeatRow w job.jobId now s.db
        some ((s.setPhase w (.running job tracker nextTick
          (some ⟨sentAt, some (r.2 == 1)⟩))).setDb r.1, [])
      else none
  | _ => none

/-- One updated row refreshes the lease as of the moment the heartbeat was
sent; no row means the lease is lost. -/
def State.receiveBeat (s : State P) (w : OwnerToken) : StepResult P :=
  match (s.workers w).phase with
  | .running job tracker nextTick (some ⟨sentAt, some true⟩) =>
      some (s.setPhase w (.running job { tracker with lastRefreshSent := sentAt } nextTick none), [])
  | .running _ _ _ (some ⟨_, some false⟩) => some (s.setPhase w .idle, [])
  | _ => none

def State.loseBeat (s : State P) (w : OwnerToken) : StepResult P :=
  match (s.workers w).phase with
  | .running job tracker nextTick (some _) =>
      some (s.setWorker w ((s.workers w).leave (.running job tracker nextTick none)), [])
  | _ => none

def State.bodyReturns (s : State P) (w : OwnerToken) (error : Option String) : StepResult P :=
  match (s.workers w).phase with
  | .running job _ _ _ =>
      some (s.setWorker w ((s.workers w).leave (.returned job error)),
        [.returned w job.jobId error.isNone (s.owns w job.jobId)])
  | _ => none

def State.watchdog (s : State P) (w : OwnerToken) : StepResult P :=
  match (s.workers w).phase with
  | .running job tracker _ _ =>
      if tracker.deadline ≤ s.now then
        some (s.setWorker w (((s.workers w).leave .idle).abandon job.jobId),
          [.abandoned w job.jobId])
      else none
  | _ => none

def State.finish (cfg : Settings) (s : State P) (w : OwnerToken) (now : ℕ)
    (applied : Bool) : StepResult P :=
  if (s.workers w).phase.finalizing then
    if applied then
      if now ≤ s.now / 1000 then
        ((s.workers w).phase.statement cfg).bind fun st =>
          (st.apply cfg w now [] s.db).map fun r => ((s.setPhase w .idle).setDb r.1, r.2)
      else none
    else some (s.setPhase w .idle, [])
  else none

def State.shutdown (cfg : Settings) (s : State P) (w : OwnerToken) : StepResult P :=
  if (s.workers w).phase.live then
    some (s.setWorker w { (s.workers w).leave .cleaning with
      dropped := (s.workers w).inFlight cfg }, [])
  else none

def State.die (cfg : Settings) (s : State P) (w : OwnerToken) : StepResult P :=
  match (s.workers w).phase with
  | .exited _ => none
  | _ => some (s.setWorker w { (s.workers w).leave (.exited false) with
      dropped := (s.workers w).inFlight cfg }, [])

def State.cleanup (s : State P) (w : OwnerToken) (applied answered : Bool) : StepResult P :=
  match (s.workers w).phase with
  | .cleaning =>
      if applied then
        some ((s.setPhase w (.exited answered)).setDb
            (cleanupWorkerLocks w (s.workers w).abandoned s.db),
          releasedEvents w (s.workers w).abandoned s.db)
      else some (s.setPhase w (.exited false), [])
  | _ => none

def State.applyDropped (cfg : Settings) (s : State P) (w : OwnerToken) (now : ℕ)
    (skip : List Uuid) : StepResult P :=
  (s.workers w).dropped.bind fun st =>
    if stampable st.sentAt now s.now then
      (st.apply cfg w now skip s.db).map fun r =>
        ((s.setWorker w { s.workers w with dropped := none }).setDb r.1, r.2)
    else none

def State.applyDroppedBeat (s : State P) (w : OwnerToken) (i : ℕ) (now : ℕ) :
    StepResult P :=
  (s.workers w).beats[i]?.bind fun b =>
    if stampable b.2 now s.now then
      some ((s.setWorker w { s.workers w with beats := (s.workers w).beats.eraseIdx i }).setDb
        (heartbeatRow w b.1 now s.db).1, [])
    else none

def step (cfg : OwnerToken → Settings) (s : State P) : Action P → StepResult P
  | .tick elapsed => some ({ s with now := s.now + elapsed }, [])
  | .enqueue n => s.enqueue n
  | .sendClaim w => s.sendClaim w
  | .applyClaim w now skip => s.applyClaim (cfg w) w now skip
  | .claimFails w => s.claimFails w
  | .receiveClaim w => s.receiveClaim (cfg w) w
  | .claimLost w => s.claimLost w
  | .sendBeat w => s.sendBeat w
  | .applyBeat w now => s.applyBeat w now
  | .receiveBeat w => s.receiveBeat w
  | .loseBeat w => s.loseBeat w
  | .bodyReturns w error => s.bodyReturns w error
  | .watchdog w => s.watchdog w
  | .finish w now applied => s.finish (cfg w) w now applied
  | .shutdown w => s.shutdown (cfg w) w
  | .die w => s.die (cfg w) w
  | .cleanup w applied answered => s.cleanup w applied answered
  | .applyDropped w now skip => s.applyDropped (cfg w) w now skip
  | .applyDroppedBeat w i now => s.applyDroppedBeat w i now

/-- Runs of the queue under a condition on their steps. -/
abbrev QueueRun (cfg : OwnerToken → Settings) (C : State P → Action P → Prop) :
    List Event → State P → Prop :=
  StepRun.Run (step cfg) C State.init

end Cja.Jobs
