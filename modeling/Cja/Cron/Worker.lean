import Cja.Cron.Claim

/-!
# The cron worker

A tick of the worker reads the last runs of all crons and then ticks the crons of
its registry one after the other. Every statement of a claim answers or fails, and
a failure that `recoverable` accepts skips the cron. The read of the last runs and
the callbacks have no such branch: their errors leave the loop of the worker.
-/
namespace Cja.Cron.Worker

variable {Tz : Type}

inductive TickError
  | jobError (text : String)
  | sqlxError (error : SqlxError)
deriving Repr, DecidableEq

inductive EnqueueError
  | sqlxError (error : SqlxError)
  | serdeJsonError (text : String)
deriving Repr, DecidableEq

/-! ## One cron -/

/-- What the process clock, the statements and the callback of one cron answer in a
tick, where it comes to them. -/
structure Answers where
  now : ℤ
  begin : Except SqlxError Unit
  setLocal : String → Except SqlxError Unit
  select : Except SqlxError (Option ℤ)
  /-- Whether the `INSERT` returned a row. -/
  insertRow : Except SqlxError Bool
  reselect : Except SqlxError ℤ
  clockTimestamp : Except SqlxError ℤ
  insertJob : Except EnqueueError Unit
  update : Except SqlxError Unit
  commit : Except SqlxError Unit
  callback : Except String Unit

structure Claim where
  time : ℤ
  lastRun : Option ℤ
deriving Repr, DecidableEq

/-- `skip_recoverable` around a statement: the cron is skipped, or the tick fails. -/
def orSkip {α β : Type} (r : Except SqlxError α) (skipped : β) (next : α → Except TickError β) :
    Except TickError β :=
  match r with
  | .ok a => next a
  | .error err => if recoverable err then .ok skipped else .error (.sqlxError err)

/-- `claim_due` behind the lock of the row. -/
def claimRow (schedule : Schedule Tz) (config : SchedulerConfig Tz) (a : Answers)
    (lastRun : Option ℤ) : Except TickError (Option Claim) :=
  orSkip a.clockTimestamp none fun claimTime =>
    if schedule.shouldRun lastRun claimTime config.startedAt config.timezone then
      .ok (some ⟨claimTime, lastRun⟩)
    else .ok none

def claimDue (schedule : Schedule Tz) (config : SchedulerConfig Tz) (a : Answers) :
    Except TickError (Option Claim) :=
  orSkip a.begin none fun _ =>
  orSkip (a.setLocal "lock_timeout") none fun _ =>
  orSkip (a.setLocal "statement_timeout") none fun _ =>
  orSkip (a.setLocal "idle_in_transaction_session_timeout") none fun _ =>
  orSkip a.select none fun existing =>
    match existing with
    | some lastRun => claimRow schedule config a (some lastRun)
    | none =>
        orSkip a.insertRow none fun inserted =>
          if inserted then claimRow schedule config a none
          else orSkip a.reselect none fun lastRun => claimRow schedule config a (some lastRun)

/-- Whether the claim is committed. -/
def commitClaim (a : Answers) : Except TickError Bool :=
  orSkip a.update false fun _ => orSkip a.commit false fun _ => .ok true

def fire (a : Answers) : Except TickError Unit :=
  match a.insertJob with
  | .error (.sqlxError err) => if recoverable err then .ok () else .error (.sqlxError err)
  | .error (.serdeJsonError text) => .error (.jobError text)
  | .ok _ =>
      match commitClaim a with
      | .error err => .error err
      | .ok _ => .ok ()

def tickClaimed (job : CronJob Tz) (config : SchedulerConfig Tz) (a : Answers) :
    Except TickError Unit :=
  match claimDue job.schedule config a with
  | .error err => .error err
  | .ok none => .ok ()
  | .ok (some _) =>
      match job.action with
      | .job => fire a
      | .callback =>
          match commitClaim a with
          | .error err => .error err
          | .ok false => .ok ()
          | .ok true =>
              match a.callback with
              | .ok _ => .ok ()
              | .error text => .error (.jobError text)

/-! ## The registry -/

structure Entry (Tz : Type) where
  name : String
  job : CronJob Tz

/-- The crons in the order of the hash map. -/
structure CronRegistry (Tz : Type) where
  jobs : List (Entry Tz)
  nodup : (jobs.map fun e => e.name).Nodup

/-- What a tick of the worker meets. -/
structure Inputs where
  lastRuns : Except SqlxError (String → Option ℤ)
  answers : String → Answers

def Entry.due (e : Entry Tz) (config : SchedulerConfig Tz) (lastRuns : String → Option ℤ)
    (i : Inputs) : Bool :=
  e.job.schedule.shouldRun (lastRuns e.name) (i.answers e.name).now config.startedAt config.timezone

/-- `CronJob::tick`, with the names of the crons it attempted to claim. -/
def Entry.tick (e : Entry Tz) (config : SchedulerConfig Tz) (lastRuns : String → Option ℤ)
    (i : Inputs) : List String × Except TickError Unit :=
  if e.due config lastRuns i then ([e.name], tickClaimed e.job config (i.answers e.name))
  else ([], .ok ())

/-- The loop of `Worker::tick`. -/
def tickAll (config : SchedulerConfig Tz) (lastRuns : String → Option ℤ) (i : Inputs) :
    List (Entry Tz) → List String × Except TickError Unit
  | [] => ([], .ok ())
  | e :: es =>
      match e.tick config lastRuns i with
      | (attempted, .error err) => (attempted, .error err)
      | (attempted, .ok _) =>
          let r := tickAll config lastRuns i es
          (attempted ++ r.1, r.2)

/-- `Worker::tick` -/
def tick (registry : CronRegistry Tz) (config : SchedulerConfig Tz) (i : Inputs) :
    List String × Except TickError Unit :=
  match i.lastRuns with
  | .error err => ([], .error (.sqlxError err))
  | .ok lastRuns => tickAll config lastRuns i registry.jobs

/-! ## The loop -/

inductive Phase
  | checking
  | sleeping
  /-- `run` returned, with the shutdown token cancelled by then or not. -/
  | returned (result : Except TickError Unit) (cancelled : Bool)

structure State where
  phase : Phase
  cancelled : Bool

def State.init : State := ⟨.checking, false⟩

/-- A tick that ran, and whether the token was cancelled at its end. -/
structure Tick where
  inputs : Inputs
  cancelled : Bool
  attempted : List String
  result : Except TickError Unit

inductive Action
  | cancel
  /-- The head of the loop and its tick, during which the token may be cancelled. -/
  | check (inputs : Inputs) (cancels : Bool)
  | elapse
  | wake

def step (registry : CronRegistry Tz) (config : SchedulerConfig Tz) (s : State) :
    Action → Option (State × List Tick)
  | .cancel => some ({ s with cancelled := true }, [])
  | .check i cancels =>
      match s.phase with
      | .checking =>
          if s.cancelled then some (⟨.returned (.ok ()) true, true⟩, [])
          else
            let r := tick registry config i
            let phase : Phase := match r.2 with
              | .ok _ => .sleeping
              | .error err => .returned (.error err) cancels
            some (⟨phase, cancels⟩, [⟨i, cancels, r.1, r.2⟩])
      | _ => none
  | .elapse =>
      match s.phase with
      | .sleeping => some ({ s with phase := .checking }, [])
      | _ => none
  | .wake =>
      match s.phase, s.cancelled with
      | .sleeping, true => some (⟨.returned (.ok ()) true, true⟩, [])
      | _, _ => none

/-! ## Recoverable failures -/

def Fails {α : Type} (r : Except SqlxError α) : Prop :=
  ∀ err, r = .error err → recoverable err = true

/-- Every database error is one that `recoverable` accepts; the callback may fail. -/
structure Answers.Recoverable (a : Answers) : Prop where
  begin : Fails a.begin
  setLocal : ∀ setting, Fails (a.setLocal setting)
  select : Fails a.select
  insertRow : Fails a.insertRow
  reselect : Fails a.reselect
  clockTimestamp : Fails a.clockTimestamp
  insertJob : ∀ err, a.insertJob = .error err → ∃ e, err = .sqlxError e ∧ recoverable e = true
  update : Fails a.update
  commit : Fails a.commit

structure Inputs.Recoverable (i : Inputs) : Prop where
  lastRuns : Fails i.lastRuns
  answers : ∀ name, (i.answers name).Recoverable

/-- Runs of the worker in which every database error is recoverable. -/
abbrev WorkerRun (registry : CronRegistry Tz) (config : SchedulerConfig Tz) :
    List Tick → State → Prop :=
  StepRun.Run (step registry config)
    (fun _ a => ∀ i cancels, a = .check i cancels → i.Recoverable) State.init

/-- The row is locked, with this `last_run_at`. -/
inductive Locked (a : Answers) : Option ℤ → Prop
  | existing {lastRun : ℤ} : a.select = .ok (some lastRun) → Locked a (some lastRun)
  | inserted : a.select = .ok none → a.insertRow = .ok true → Locked a none
  | reselected {lastRun : ℤ} : a.select = .ok none → a.insertRow = .ok false →
      a.reselect = .ok lastRun → Locked a (some lastRun)

/-- Every statement up to the claim is answered, and the cron is due by the time of
the database. -/
structure Claims (schedule : Schedule Tz) (config : SchedulerConfig Tz) (a : Answers) : Prop where
  begin : a.begin = .ok ()
  lockTimeout : a.setLocal "lock_timeout" = .ok ()
  statementTimeout : a.setLocal "statement_timeout" = .ok ()
  idleTimeout : a.setLocal "idle_in_transaction_session_timeout" = .ok ()
  due : ∃ lastRun time, Locked a lastRun ∧ a.clockTimestamp = .ok time ∧
    schedule.shouldRun lastRun time config.startedAt config.timezone = true

/-- The callback of a cron is invoked and fails. -/
structure CallbackFails (job : CronJob Tz) (config : SchedulerConfig Tz) (a : Answers) : Prop where
  action : job.action = .callback
  claims : Claims job.schedule config a
  update : a.update = .ok ()
  commit : a.commit = .ok ()
  callback : ∃ text, a.callback = .error text

section OneCron

variable {α β : Type} {r : Except SqlxError α} {skipped b : β} {next : α → Except TickError β}
variable {config : SchedulerConfig Tz} {schedule : Schedule Tz} {job : CronJob Tz} {a : Answers}
variable {err : TickError} {lastRun : Option ℤ} {claim : Claim}

/-- A recoverable failure is no error of the tick. -/
theorem orSkip_error (h : Fails r) :
    orSkip r skipped next = .error err ↔ ∃ x, r = .ok x ∧ next x = .error err := by
  cases r with
  | ok x => simp [orSkip]
  | error e => simp [orSkip, h e rfl]

theorem orSkip_ok (h : Fails r) (hne : skipped ≠ b) :
    orSkip r skipped next = .ok b ↔ ∃ x, r = .ok x ∧ next x = .ok b := by
  cases r with
  | ok x => simp [orSkip]
  | error e => simp [orSkip, h e rfl, hne]

theorem claimRow_no_error (h : Fails a.clockTimestamp) :
    claimRow schedule config a lastRun ≠ .error err := by
  intro herr
  obtain ⟨time, _, hnext⟩ := (orSkip_error h).1 herr
  split at hnext <;> cases hnext

theorem claimDue_no_error (h : a.Recoverable) : claimDue schedule config a ≠ .error err := by
  intro herr
  unfold claimDue at herr
  rw [orSkip_error h.begin] at herr
  obtain ⟨_, _, herr⟩ := herr
  rw [orSkip_error (h.setLocal _)] at herr
  obtain ⟨_, _, herr⟩ := herr
  rw [orSkip_error (h.setLocal _)] at herr
  obtain ⟨_, _, herr⟩ := herr
  rw [orSkip_error (h.setLocal _)] at herr
  obtain ⟨_, _, herr⟩ := herr
  rw [orSkip_error h.select] at herr
  obtain ⟨existing, _, herr⟩ := herr
  cases existing with
  | some lastRun => exact claimRow_no_error h.clockTimestamp herr
  | none =>
      rw [orSkip_error h.insertRow] at herr
      obtain ⟨inserted, _, herr⟩ := herr
      split at herr
      · exact claimRow_no_error h.clockTimestamp herr
      · rw [orSkip_error h.reselect] at herr
        obtain ⟨_, _, herr⟩ := herr
        exact claimRow_no_error h.clockTimestamp herr

theorem claimRow_ok_iff (lastRun : Option ℤ) (h : Fails a.clockTimestamp) :
    (∃ claim, claimRow schedule config a lastRun = .ok (some claim)) ↔
      ∃ time, a.clockTimestamp = .ok time ∧
        schedule.shouldRun lastRun time config.startedAt config.timezone = true := by
  unfold claimRow
  constructor
  · rintro ⟨claim, hclaim⟩
    rw [orSkip_ok h (by simp)] at hclaim
    obtain ⟨time, htime, hnext⟩ := hclaim
    split at hnext
    · rename_i hdue
      exact ⟨time, htime, hdue⟩
    · cases hnext
  · rintro ⟨time, htime, hdue⟩
    exact ⟨⟨time, lastRun⟩, by simp [htime, orSkip, hdue]⟩

theorem claims_of_claimDue (h : a.Recoverable)
    (hclaim : claimDue schedule config a = .ok (some claim)) : Claims schedule config a := by
  have hrow {lastRun : Option ℤ} (hlocked : Locked a lastRun)
      (hok : claimRow schedule config a lastRun = .ok (some claim)) :
      ∃ lastRun time, Locked a lastRun ∧ a.clockTimestamp = .ok time ∧
        schedule.shouldRun lastRun time config.startedAt config.timezone = true := by
    obtain ⟨time, htime, hdue⟩ := (claimRow_ok_iff lastRun h.clockTimestamp).1 ⟨claim, hok⟩
    exact ⟨lastRun, time, hlocked, htime, hdue⟩
  unfold claimDue at hclaim
  rw [orSkip_ok h.begin (by simp)] at hclaim
  obtain ⟨_, hbegin, hclaim⟩ := hclaim
  rw [orSkip_ok (h.setLocal _) (by simp)] at hclaim
  obtain ⟨_, hlock, hclaim⟩ := hclaim
  rw [orSkip_ok (h.setLocal _) (by simp)] at hclaim
  obtain ⟨_, hstatement, hclaim⟩ := hclaim
  rw [orSkip_ok (h.setLocal _) (by simp)] at hclaim
  obtain ⟨_, hidle, hclaim⟩ := hclaim
  rw [orSkip_ok h.select (by simp)] at hclaim
  obtain ⟨existing, hselect, hclaim⟩ := hclaim
  refine ⟨hbegin, hlock, hstatement, hidle, ?_⟩
  cases existing with
  | some lastRun => exact hrow (.existing hselect) hclaim
  | none =>
      rw [orSkip_ok h.insertRow (by simp)] at hclaim
      obtain ⟨inserted, hinserted, hclaim⟩ := hclaim
      cases inserted with
      | true => exact hrow (.inserted hselect hinserted) hclaim
      | false =>
          simp only [Bool.false_eq_true, if_false] at hclaim
          rw [orSkip_ok h.reselect (by simp)] at hclaim
          obtain ⟨lastRun, hreselect, hclaim⟩ := hclaim
          exact hrow (.reselected hselect hinserted hreselect) hclaim

theorem claimDue_of_claims (h : a.Recoverable) (hclaims : Claims schedule config a) :
    ∃ claim, claimDue schedule config a = .ok (some claim) := by
  obtain ⟨lastRun, time, hlocked, htime, hdue⟩ := hclaims.due
  obtain ⟨claim, hrow⟩ := (claimRow_ok_iff lastRun h.clockTimestamp).2 ⟨time, htime, hdue⟩
  refine ⟨claim, ?_⟩
  simp only [claimDue, hclaims.begin, hclaims.lockTimeout, hclaims.statementTimeout,
    hclaims.idleTimeout, orSkip]
  cases hlocked with
  | existing hselect => simpa only [hselect] using hrow
  | inserted hselect hinserted => simpa only [hselect, hinserted, if_true] using hrow
  | reselected hselect hinserted hreselect =>
      simpa only [hselect, hinserted, hreselect, Bool.false_eq_true, if_false] using hrow

theorem commitClaim_no_error (h : a.Recoverable) : commitClaim a ≠ .error err := by
  intro herr
  unfold commitClaim at herr
  rw [orSkip_error h.update] at herr
  obtain ⟨_, _, herr⟩ := herr
  rw [orSkip_error h.commit] at herr
  obtain ⟨_, _, herr⟩ := herr
  cases herr

theorem commitClaim_true_iff (h : a.Recoverable) :
    commitClaim a = .ok true ↔ a.update = .ok () ∧ a.commit = .ok () := by
  unfold commitClaim
  rw [orSkip_ok h.update (by simp)]
  constructor
  · rintro ⟨_, hupdate, hcommit⟩
    rw [orSkip_ok h.commit (by simp)] at hcommit
    obtain ⟨_, hcommit, _⟩ := hcommit
    exact ⟨hupdate, hcommit⟩
  · rintro ⟨hupdate, hcommit⟩
    exact ⟨(), hupdate, by simp [hcommit, orSkip]⟩

theorem fire_no_error (h : a.Recoverable) : fire a = .ok () := by
  unfold fire
  split
  · rename_i e hinsert
    obtain ⟨e', heq, hrecoverable⟩ := h.insertJob _ hinsert
    cases heq
    rw [if_pos hrecoverable]
  · rename_i text hinsert
    obtain ⟨_, heq, _⟩ := h.insertJob _ hinsert
    cases heq
  · split
    · rename_i herr
      exact absurd herr (commitClaim_no_error h)
    · rfl

/-- Among recoverable failures only that of a callback is an error of the tick. -/
theorem tickClaimed_error_iff (h : a.Recoverable) :
    (∃ err, tickClaimed job config a = .error err) ↔ CallbackFails job config a := by
  constructor
  · rintro ⟨err, herr⟩
    unfold tickClaimed at herr
    split at herr
    · rename_i hclaim
      exact absurd hclaim (claimDue_no_error h)
    · cases herr
    · rename_i claim hclaim
      split at herr
      · rw [fire_no_error h] at herr
        cases herr
      · rename_i haction
        split at herr
        · rename_i hcommit
          exact absurd hcommit (commitClaim_no_error h)
        · cases herr
        · rename_i hcommit
          obtain ⟨hupdate, hcommit⟩ := (commitClaim_true_iff h).1 hcommit
          split at herr
          · cases herr
          · rename_i text hcallback
            exact ⟨haction, claims_of_claimDue h hclaim, hupdate, hcommit, text, hcallback⟩
  · intro hfails
    obtain ⟨claim, hclaim⟩ := claimDue_of_claims h hfails.claims
    obtain ⟨text, hcallback⟩ := hfails.callback
    have hcommit := (commitClaim_true_iff h).2 ⟨hfails.update, hfails.commit⟩
    exact ⟨.jobError text, by simp [tickClaimed, hclaim, hfails.action, hcommit, hcallback]⟩

end OneCron

/-! ## One tick -/

/-- A due cron whose callback is invoked and fails. -/
def Entry.Breaks (e : Entry Tz) (config : SchedulerConfig Tz) (lastRuns : String → Option ℤ)
    (i : Inputs) : Prop :=
  e.due config lastRuns i = true ∧ CallbackFails e.job config (i.answers e.name)

section OneTick

variable {config : SchedulerConfig Tz} {lastRuns : String → Option ℤ} {i : Inputs}
variable {e : Entry Tz} {es : List (Entry Tz)}

/-- The names of the due crons. -/
def dueNames (config : SchedulerConfig Tz) (lastRuns : String → Option ℤ) (i : Inputs)
    (es : List (Entry Tz)) : List String :=
  (es.filter fun e => e.due config lastRuns i).map fun e => e.name

theorem Entry.tick_attempted (e : Entry Tz) (config : SchedulerConfig Tz)
    (lastRuns : String → Option ℤ) (i : Inputs) :
    (e.tick config lastRuns i).1 = dueNames config lastRuns i [e] := by
  unfold Entry.tick dueNames
  split
  · rename_i hdue
    simp [hdue]
  · rename_i hdue
    simp [hdue]

theorem Entry.tick_error_iff (e : Entry Tz) (config : SchedulerConfig Tz)
    (lastRuns : String → Option ℤ) (h : i.Recoverable) :
    (∃ err, (e.tick config lastRuns i).2 = .error err) ↔ e.Breaks config lastRuns i := by
  unfold Entry.tick Entry.Breaks
  split
  · rename_i hdue
    rw [tickClaimed_error_iff (h.answers e.name)]
    simp [hdue]
  · rename_i hdue
    simp [hdue]

theorem dueNames_cons (e : Entry Tz) (es : List (Entry Tz)) :
    dueNames config lastRuns i (e :: es) =
      dueNames config lastRuns i [e] ++ dueNames config lastRuns i es := by
  unfold dueNames
  rw [← List.map_append, ← List.filter_append]
  rfl

/-- A tick goes through all crons, or up to the first whose callback fails. -/
theorem tickAll_cases (config : SchedulerConfig Tz) (lastRuns : String → Option ℤ)
    (es : List (Entry Tz)) (h : i.Recoverable) :
    ((tickAll config lastRuns i es).2 = .ok () ∧
      (tickAll config lastRuns i es).1 = dueNames config lastRuns i es ∧
      ∀ e ∈ es, ¬ e.Breaks config lastRuns i) ∨
    ∃ pre e post err, es = pre ++ e :: post ∧ e.Breaks config lastRuns i ∧
      (∀ e' ∈ pre, ¬ e'.Breaks config lastRuns i) ∧
      (tickAll config lastRuns i es).2 = .error err ∧
      (tickAll config lastRuns i es).1 = dueNames config lastRuns i (pre ++ [e]) := by
  induction es with
  | nil => exact .inl ⟨rfl, rfl, fun e he => by cases he⟩
  | cons e es ih =>
      have hattempted := e.tick_attempted config lastRuns i
      have hiff := e.tick_error_iff config lastRuns h
      cases htick : e.tick config lastRuns i with
      | mk attempted result =>
          rw [htick] at hattempted hiff
          dsimp only at hattempted hiff
          cases result with
          | error err =>
              refine .inr ⟨[], e, es, err, rfl, hiff.1 ⟨err, rfl⟩, by simp, ?_, ?_⟩
              · simp [tickAll, htick]
              · simp [tickAll, htick, hattempted]
          | ok u =>
              have hnot : ¬ e.Breaks config lastRuns i := by
                intro hbreaks
                obtain ⟨err, herr⟩ := hiff.2 hbreaks
                cases herr
              obtain ⟨hok, hnames, hquiet⟩ | ⟨pre, e', post, err, rfl, hbreaks, hquiet, herr, hnames⟩ := ih
              · refine .inl ⟨?_, ?_, ?_⟩
                · simpa [tickAll, htick] using hok
                · rw [dueNames_cons, ← hattempted, ← hnames]
                  simp [tickAll, htick]
                · intro e' he'
                  obtain rfl | he' := List.mem_cons.1 he'
                  · exact hnot
                  · exact hquiet e' he'
              · refine .inr ⟨e :: pre, e', post, err, rfl, hbreaks, ?_, ?_, ?_⟩
                · intro e'' he''
                  obtain rfl | he'' := List.mem_cons.1 he''
                  · exact hnot
                  · exact hquiet e'' he''
                · simpa [tickAll, htick] using herr
                · rw [List.cons_append, dueNames_cons, ← hattempted, ← hnames]
                  simp [tickAll, htick]

theorem mem_dueNames (he : e ∈ es) (hdue : e.due config lastRuns i = true) :
    e.name ∈ dueNames config lastRuns i es :=
  List.mem_map_of_mem (List.mem_filter.2 ⟨he, hdue⟩)

/-- Names are unique in a registry. -/
theorem not_mem_dueNames {pre post : List (Entry Tz)}
    (hnodup : ((pre ++ post).map fun e => e.name).Nodup) (he : e ∈ post) :
    e.name ∉ dueNames config lastRuns i pre := by
  intro hmem
  obtain ⟨e', he', heq⟩ := List.mem_map.1 hmem
  rw [List.map_append] at hnodup
  exact (List.disjoint_of_nodup_append hnodup)
    (List.mem_map_of_mem (List.mem_of_mem_filter he')) (heq ▸ List.mem_map_of_mem he)

end OneTick

/-! ## The worker -/

/-- The worker does not return before its token is cancelled, and a tick that could
read the last runs attempts every due cron. -/
structure Undisturbed (registry : CronRegistry Tz) (config : SchedulerConfig Tz) (log : List Tick)
    (s : State) : Prop where
  returned : ∀ result cancelled, s.phase = .returned result cancelled → cancelled = true
  attempted : ∀ t ∈ log, ∀ lastRuns, t.inputs.lastRuns = .ok lastRuns → ∀ e ∈ registry.jobs,
    e.due config lastRuns t.inputs = true → e.name ∈ t.attempted

/-- Before the token is cancelled no read of the last runs fails and no invoked
callback, and after it none fails ahead of another due cron. -/
structure Calm (registry : CronRegistry Tz) (config : SchedulerConfig Tz) (log : List Tick) :
    Prop where
  lastRuns : ∀ t ∈ log, ∀ err, t.inputs.lastRuns = .error err → t.cancelled = true
  callback : ∀ t ∈ log, ∀ lastRuns, t.inputs.lastRuns = .ok lastRuns → ∀ pre e post,
    registry.jobs = pre ++ e :: post → e.Breaks config lastRuns t.inputs →
    t.cancelled = true ∧ ∀ e' ∈ post, e'.due config lastRuns t.inputs = false

/-- The ticks of a run, and how an error of the last one returned. -/
structure Ticked (registry : CronRegistry Tz) (config : SchedulerConfig Tz) (log : List Tick)
    (s : State) : Prop where
  ran : ∀ t ∈ log, t.inputs.Recoverable ∧ tick registry config t.inputs = (t.attempted, t.result)
  failed : ∀ t ∈ log, ∀ err, t.result = .error err → s.phase = .returned (.error err) t.cancelled
  returned : ∀ result cancelled, s.phase = .returned result cancelled → cancelled = true ∨
    ∃ t ∈ log, ∃ err, t.result = .error err ∧ t.cancelled = cancelled

section Run

variable {registry : CronRegistry Tz} {config : SchedulerConfig Tz} {log : List Tick}
variable {s s' : State} {ts : List Tick} {a : Action} {i : Inputs} {cancels : Bool}

/-- A loop that goes on has not failed. -/
theorem Ticked.move (h : Ticked registry config log s)
    (hopen : ∀ result cancelled, s.phase ≠ .returned result cancelled)
    (hnext : ∀ result cancelled, s'.phase = .returned result cancelled → cancelled = true) :
    Ticked registry config log s' where
  ran := h.ran
  failed := fun t ht err herr => absurd (h.failed t ht err herr) (hopen _ _)
  returned := fun result cancelled hr => .inl (hnext result cancelled hr)

theorem Ticked.check (h : Ticked registry config log s) (hphase : s.phase = .checking)
    (hrecoverable : i.Recoverable)
    (hs : step registry config s (.check i cancels) = some (s', ts)) :
    Ticked registry config (log ++ ts) s' := by
  have hopen : ∀ result cancelled, s.phase ≠ .returned result cancelled := by
    intro result cancelled hr
    rw [hphase] at hr
    cases hr
  simp only [step, hphase] at hs
  split at hs
  · cases hs
    rw [List.append_nil]
    refine h.move hopen fun result cancelled hr => ?_
    cases hr
    rfl
  · cases hs
    constructor
    · intro t ht
      obtain hold | hnew := List.mem_append.1 ht
      · exact h.ran t hold
      · rw [List.mem_singleton.1 hnew]
        exact ⟨hrecoverable, rfl⟩
    · intro t ht err herr
      obtain hold | hnew := List.mem_append.1 ht
      · exact absurd (h.failed t hold err herr) (hopen _ _)
      · rw [List.mem_singleton.1 hnew] at herr ⊢
        dsimp only at herr ⊢
        rw [herr]
    · intro result cancelled hr
      dsimp only at hr
      split at hr
      · cases hr
      · rename_i err herr
        cases hr
        exact .inr ⟨_, List.mem_append_right _ (List.mem_singleton.2 rfl), err, herr, rfl⟩

theorem Ticked.step (h : Ticked registry config log s)
    (hrecoverable : ∀ i cancels, a = .check i cancels → i.Recoverable)
    (hs : Worker.step registry config s a = some (s', ts)) :
    Ticked registry config (log ++ ts) s' := by
  cases a with
  | cancel =>
      cases hs
      rw [List.append_nil]
      exact ⟨h.ran, h.failed, h.returned⟩
  | check i cancels =>
      have hphase : s.phase = .checking := by
        simp only [Worker.step] at hs
        split at hs
        · assumption
        · cases hs
      exact h.check hphase (hrecoverable i cancels rfl) hs
  | elapse =>
      simp only [Worker.step] at hs
      split at hs
      · rename_i hphase
        cases hs
        rw [List.append_nil]
        refine h.move ?_ ?_
        · intro result cancelled hr
          rw [hphase] at hr
          cases hr
        · intro result cancelled hr
          cases hr
      · cases hs
  | wake =>
      simp only [Worker.step] at hs
      split at hs
      · rename_i hphase _
        cases hs
        rw [List.append_nil]
        refine h.move ?_ ?_
        · intro result cancelled hr
          rw [hphase] at hr
          cases hr
        · intro result cancelled hr
          cases hr
          rfl
      · cases hs

theorem run_ticked (h : WorkerRun registry config log s) : Ticked registry config log s := by
  refine h.invariant (I := fun log s => Ticked registry config log s) ?_ ?_
  · constructor
    · intro t ht
      cases ht
    · intro t ht
      cases ht
    · intro result cancelled hr
      cases hr
  · intro log s a s' ts _ hticked hrecoverable hs
    exact hticked.step hrecoverable hs

theorem Ticked.calm (h : Ticked registry config log s)
    (hu : Undisturbed registry config log s) : Calm registry config log := by
  have hcancelled : ∀ t ∈ log, ∀ err, t.result = .error err → t.cancelled = true := by
    intro t ht err herr
    exact hu.returned _ _ (h.failed t ht err herr)
  constructor
  · intro t ht err hmap
    have hran := (h.ran t ht).2
    simp only [tick, hmap, Prod.mk.injEq] at hran
    exact hcancelled t ht _ hran.2.symm
  · intro t ht lastRuns hmap pre e post hjobs hbreaks
    obtain ⟨hrecoverable, hran⟩ := h.ran t ht
    simp only [tick, hmap] at hran
    have hmem : e ∈ registry.jobs := hjobs ▸ List.mem_append_right pre (List.mem_cons_self ..)
    obtain ⟨_, _, hquiet⟩ | ⟨pre', e', post', err, hjobs', _, hquiet, herr, hnames⟩ :=
      tickAll_cases config lastRuns registry.jobs hrecoverable
    · exact absurd hbreaks (hquiet e hmem)
    · rw [hran] at herr hnames
      dsimp only at herr hnames
      have hnodup : (((pre' ++ [e']) ++ post').map fun e => e.name).Nodup := by
        rw [List.append_assoc, List.singleton_append, ← hjobs']
        exact registry.nodup
      -- a due cron behind the first failing callback was not attempted
      have hpost : ∀ e'' ∈ post', e''.due config lastRuns t.inputs = false := by
        intro e'' he''
        by_contra hdue
        rw [Bool.not_eq_false] at hdue
        have hattempted := hu.attempted t ht lastRuns hmap e''
          (hjobs' ▸ List.mem_append_right _ (List.mem_cons_of_mem _ he'')) hdue
        rw [hnames] at hattempted
        exact not_mem_dueNames hnodup he'' hattempted
      -- so the callback in question is that first one
      have hsplit : post = post' := by
        obtain ⟨as, hpre, hrest⟩ | ⟨bs, hpre, hrest⟩ :=
          List.append_eq_append_iff.1 (hjobs.symm.trans hjobs')
        · cases as with
          | nil =>
              rw [List.nil_append] at hrest
              exact (List.cons.inj hrest).2
          | cons x as =>
              obtain ⟨rfl, _⟩ := List.cons.inj hrest
              have hmem' : e ∈ pre' := hpre ▸ List.mem_append_right _ (List.mem_cons_self ..)
              exact absurd hbreaks (hquiet e hmem')
        · cases bs with
          | nil =>
              rw [List.nil_append] at hrest
              exact (List.cons.inj hrest).2.symm
          | cons x bs =>
              obtain ⟨_, hpost'⟩ := List.cons.inj hrest
              have hmem' : e ∈ post' := hpost' ▸ List.mem_append_right _ (List.mem_cons_self ..)
              have hdue := hpost e hmem'
              rw [hbreaks.1] at hdue
              cases hdue
      rw [hsplit]
      exact ⟨hcancelled t ht err herr, hpost⟩

theorem Ticked.undisturbed (h : Ticked registry config log s)
    (hcalm : Calm registry config log) : Undisturbed registry config log s := by
  constructor
  · intro result cancelled hr
    obtain hcancelled | ⟨t, ht, err, herr, rfl⟩ := h.returned result cancelled hr
    · exact hcancelled
    · obtain ⟨hrecoverable, hran⟩ := h.ran t ht
      cases hmap : t.inputs.lastRuns with
      | error e => exact hcalm.lastRuns t ht e hmap
      | ok lastRuns =>
          simp only [tick, hmap] at hran
          obtain ⟨hok, _, _⟩ | ⟨pre, e, post, _, hjobs, hbreaks, _, _, _⟩ :=
            tickAll_cases config lastRuns registry.jobs hrecoverable
          · rw [hran, herr] at hok
            cases hok
          · exact (hcalm.callback t ht lastRuns hmap pre e post hjobs hbreaks).1
  · intro t ht lastRuns hmap e he hdue
    obtain ⟨hrecoverable, hran⟩ := h.ran t ht
    simp only [tick, hmap] at hran
    obtain ⟨_, hnames, _⟩ | ⟨pre, e', post, _, hjobs, hbreaks, _, _, hnames⟩ :=
      tickAll_cases config lastRuns registry.jobs hrecoverable
    · rw [hran] at hnames
      dsimp only at hnames
      exact hnames ▸ mem_dueNames he hdue
    · rw [hran] at hnames
      dsimp only at hnames
      have hpost := (hcalm.callback t ht lastRuns hmap pre e' post hjobs hbreaks).2
      have hmem : e ∈ pre ++ [e'] := by
        rw [hjobs] at he
        obtain hpre | hrest := List.mem_append.1 he
        · exact List.mem_append_left _ hpre
        · obtain rfl | hbehind := List.mem_cons.1 hrest
          · exact List.mem_append_right _ (List.mem_singleton.2 rfl)
          · rw [hpost e hbehind] at hdue
            cases hdue
      exact hnames ▸ mem_dueNames hmem hdue

/-- Where all database errors are recoverable, the worker runs on and attempts every
due cron exactly as long as no read of the last runs and no callback fails. -/
theorem recoverable_undisturbed (h : WorkerRun registry config log s) :
    Undisturbed registry config log s ↔ Calm registry config log :=
  ⟨(run_ticked h).calm, (run_ticked h).undisturbed⟩

end Run

/-! ## A worker with two crons -/

/-- Every statement is answered, the row is new, and the callback answers `callback`. -/
def answering (callback : Except String Unit) : Answers where
  now := 0
  begin := .ok ()
  setLocal := fun _ => .ok ()
  select := .ok none
  insertRow := .ok true
  reselect := .ok 0
  clockTimestamp := .ok 0
  insertJob := .ok ()
  update := .ok ()
  commit := .ok ()
  callback := callback

/-- The lock of the row is not available. -/
def contended : Answers :=
  { answering (.ok ()) with
    select := .error (.database (some "55P03")) }

def pair : CronRegistry Unit where
  jobs := [⟨"first", .callback, .interval ⟨1⟩⟩, ⟨"second", .job, .interval ⟨1⟩⟩]
  nodup := by decide

theorem answering_recoverable (callback : Except String Unit) :
    (answering callback).Recoverable := by
  constructor <;> simp [answering, Fails, recoverable]

theorem contended_recoverable : contended.Recoverable := by
  constructor <;> simp [contended, answering, Fails, recoverable, recoverableSqlstate]

/-- A tick in which the last runs were read, with these answers for the first cron. -/
def inputsWith (first : Answers) : Inputs where
  lastRuns := .ok fun _ => none
  answers := fun name => if name = "first" then first else answering (.ok ())

theorem inputsWith_recoverable {first : Answers} (h : first.Recoverable) :
    (inputsWith first).Recoverable where
  lastRuns := by simp [inputsWith, Fails]
  answers := by
    intro name
    unfold inputsWith
    dsimp only
    split
    · exact h
    · exact answering_recoverable _

/-- The worker after one tick. -/
theorem exists_tick {i : Inputs} (h : i.Recoverable) : ∃ s, WorkerRun pair ⟨0, ()⟩
    [⟨i, false, (tick pair ⟨0, ()⟩ i).1, (tick pair ⟨0, ()⟩ i).2⟩] s := by
  refine ⟨_, StepRun.Run.snoc (a := Action.check i false) .start ?_ rfl⟩
  intro i' cancels heq
  cases heq
  exact h

/-- The row of the first cron is locked: the second is attempted. -/
theorem recoverable_undisturbed_contended : ∃ log s, WorkerRun pair ⟨0, ()⟩ log s ∧
    log.length = 1 ∧ Undisturbed pair ⟨0, ()⟩ log s := by
  obtain ⟨s, hrun⟩ := exists_tick (inputsWith_recoverable contended_recoverable)
  refine ⟨_, s, hrun, rfl, (recoverable_undisturbed hrun).2 ⟨?_, ?_⟩⟩
  · intro t ht err herr
    rw [List.mem_singleton.1 ht] at herr
    cases herr
  · intro t ht lastRuns _ pre e post hjobs hbreaks
    rw [List.mem_singleton.1 ht] at hbreaks
    have hmem : e ∈ pair.jobs := hjobs ▸ List.mem_append_right pre (List.mem_cons_self ..)
    obtain ⟨text, htext⟩ := hbreaks.2.callback
    exfalso
    simp only [pair, List.mem_cons, List.not_mem_nil, or_false] at hmem
    obtain rfl | rfl := hmem
    · simp [inputsWith, contended, answering] at htext
    · simp [inputsWith, answering] at htext

/-- The callback of the first cron fails: the worker returns and the second cron is
not attempted. And a recoverable failure to read the last runs makes it return. -/
theorem not_recoverable_undisturbed :
    (∃ log s, WorkerRun pair ⟨0, ()⟩ log s ∧ ¬ Undisturbed pair ⟨0, ()⟩ log s ∧
      ∃ t ∈ log, t.attempted = ["first"] ∧ ∃ text, t.result = .error (.jobError text)) ∧
    ∃ log s, WorkerRun pair ⟨0, ()⟩ log s ∧ ¬ Undisturbed pair ⟨0, ()⟩ log s ∧
      ∃ t ∈ log, t.inputs.lastRuns = .error .io := by
  constructor
  · obtain ⟨s, hrun⟩ := exists_tick (inputsWith_recoverable (answering_recoverable (.error "boom")))
    refine ⟨_, s, hrun, fun hu => ?_, _, List.mem_singleton.2 rfl, by decide, "boom", by decide⟩
    have hsecond := hu.attempted _ (List.mem_singleton.2 rfl) _ rfl
      ⟨"second", .job, .interval ⟨1⟩⟩ (by simp [pair]) rfl
    revert hsecond
    decide
  · let i : Inputs := { inputsWith contended with lastRuns := .error .io }
    have hi : i.Recoverable :=
      ⟨by simp [i, Fails, recoverable], (inputsWith_recoverable contended_recoverable).answers⟩
    obtain ⟨s, hrun⟩ := exists_tick hi
    refine ⟨_, s, hrun, fun hu => ?_, _, List.mem_singleton.2 rfl, rfl⟩
    have hphase := (run_ticked hrun).failed _ (List.mem_singleton.2 rfl) _ rfl
    cases hu.returned _ _ hphase

end Cja.Cron.Worker
