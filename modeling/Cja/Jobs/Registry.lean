import Cja.Jobs.Payload

/-!
# The job registry

`impl_job_registry!` matches the name of a claimed row against the names of the
registered types, in order, and the first that fits deserializes the payload. No
statement assigns the columns that say what a job is, so the body that runs, whenever
and at whatever worker, is the one that was enqueued.
-/
namespace Cja.Jobs

variable {P : Type}

/-- A type with an implementation of `Job`: its `NAME` and its serde implementations. -/
structure JobType (P : Type) where
  name : String
  Value : Type
  toValue : Value → Except String P
  fromValue : P → Except String Value

/-- A call of `run_with_cancellation`. -/
structure JobCall (P : Type) where
  jobType : JobType P
  value : jobType.Value

inductive RunJobError
  | serde (message : String)
  | unknownJobType (name : String)
deriving Repr, DecidableEq

def RunJobError.message : RunJobError → String
  | serde message => message
  | unknownJobType name => "Unknown job type: " ++ name

/-- `run_from_value` up to its call of `run_with_cancellation`. -/
def JobType.runFromValue (J : JobType P) (value : P) : Except RunJobError (JobCall P) :=
  match J.fromValue value with
  | .ok job => .ok ⟨J, job⟩
  | .error message => .error (.serde message)

abbrev JobRegistry (P : Type) := List (JobType P)

/-- The arm of the `match` that takes a name. -/
def JobRegistry.arm (registry : JobRegistry P) (name : String) : Option (JobType P) :=
  registry.find? fun J => J.name = name

def JobRegistry.runJob (registry : JobRegistry P) (job : JobFromDB P) :
    Except RunJobError (JobCall P) :=
  match registry.arm job.name with
  | some J => J.runFromValue job.payload
  | none => .error (.unknownJobType job.name)

def JobRegistry.jobNames (registry : JobRegistry P) : List String := registry.map JobType.name

/-- `enqueue_on_connection` up to its `INSERT`. -/
def JobType.enqueueOnConnection (J : JobType P) (job : J.Value) (context : String)
    (priority : Option ℤ) (createdAt : ℕ) (jobId : Uuid) : Except String (NewJob P) :=
  (J.toValue job).map fun payload => ⟨jobId, J.name, payload, priority, context, createdAt⟩

/-- Serde and the `JSONB` column give a value back. -/
def JobType.RoundTrips (J : JobType P) : Prop :=
  ∀ v payload, J.toValue v = .ok payload → J.fromValue payload = .ok v

/-! ## What a job is -/

/-- The columns that no statement assigns. -/
structure Columns (P : Type) where
  name : String
  payload : P
  priority : ℤ
  createdAt : ℕ
  context : String

def NewJob.columns (n : NewJob P) : Columns P :=
  ⟨n.name, n.payload, n.priority.getD 0, n.createdAt, n.context⟩

def JobRow.columns (r : JobRow P) : Columns P :=
  ⟨r.name, r.payload, r.priority, r.createdAt, r.context⟩

def JobFromDB.columns (job : JobFromDB P) : Columns P :=
  ⟨job.name, job.payload, job.priority, job.createdAt, job.context⟩

def DeadLetterRow.columns (d : DeadLetterRow P) : Columns P :=
  ⟨d.name, d.payload, d.priority, d.createdAt, d.context⟩

/-- The database has a job under `j` with these columns. -/
inductive Db.Copy (db : Db P) : Uuid → Columns P → Prop
  | row {j : Uuid} {r : JobRow P} (h : db.jobs.lookup j = some r) : Db.Copy db j r.columns
  | dead {d : DeadLetterRow P} (h : d ∈ db.deadLetterJobs) : Db.Copy db d.originalJobId d.columns

/-- A worker has it, or a statement that it dropped. -/
inductive Worker.Copy (wk : Worker P) : Uuid → Columns P → Prop
  | job {job : JobFromDB P} (h : wk.phase.job? = some job) : Worker.Copy wk job.jobId job.columns
  | dropped {st : Statement P} {job : JobFromDB P} (h : wk.dropped = some st)
      (hjob : st.job? = some job) : Worker.Copy wk job.jobId job.columns

def State.Copy (s : State P) (j : Uuid) (c : Columns P) : Prop :=
  s.db.Copy j c ∨ ∃ w, (s.workers w).Copy j c

/-! ## Where copies come from -/

section

variable {db db' : Db P} {cfg : Settings} {w : OwnerToken} {j : Uuid} {c : Columns P}

/-- An update that assigns none of the columns. -/
theorem Db.Copy.of_update {p : JobRow P → Bool} {f : JobRow P → JobRow P}
    {hf : ∀ r, (f r).jobId = r.jobId} (h : (db.updateJobs p f hf).Copy j c)
    (hc : ∀ r, (f r).columns = r.columns) : db.Copy j c := by
  cases h with
  | row hr =>
      rw [lookup_updateJobs, Option.map_eq_some_iff] at hr
      obtain ⟨q, hq, rfl⟩ := hr
      split_ifs
      · exact hc q ▸ .row hq
      · exact .row hq
  | dead hd => exact .dead hd

theorem Db.Copy.of_delete {p : JobRow P → Bool} {dead : List (DeadLetterRow P)}
    (h : (⟨db.jobs.delete p, dead⟩ : Db P).Copy j c) :
    db.Copy j c ∨ ∃ d ∈ dead, d.originalJobId = j ∧ d.columns = c := by
  cases h with
  | row hr =>
      rw [KeyedTable.lookup_delete, Option.filter_eq_some_iff] at hr
      exact .inl (.row hr.1)
  | dead hd => exact .inr ⟨_, hd, rfl, rfl⟩

theorem Db.Copy.of_heartbeat {k : Uuid} {now n : ℕ} (hdb : heartbeatRow w k now db = (db', n))
    (h : db'.Copy j c) : db.Copy j c := by
  cases hdb
  exact h.of_update fun _ => rfl

/-- A claim hands out a copy of its row. -/
theorem Db.Copy.of_claim {window now : ℕ} {skip : List Uuid} {row : Option (ClaimedRow P)}
    (hdb : claimRow w window now skip db = (db', row)) :
    (db'.Copy j c → db.Copy j c) ∧ ∀ r, row = some r → db.Copy r.job.jobId r.job.columns := by
  rcases claimRow_spec hdb with ⟨rfl, rfl⟩ | ⟨r, hr, -, rfl, rfl⟩
  · exact ⟨id, by simp⟩
  · refine ⟨fun h => h.of_update fun _ => rfl, ?_⟩
    rintro r' ⟨⟩
    have hcopy : db.Copy r.jobId r.columns := .row hr
    exact hcopy

/-- A statement writes copies of what was there and of the job it carries. -/
theorem Db.Copy.of_apply {st : Statement P} {now : ℕ} {skip : List Uuid} {es : List Event}
    (hdb : st.apply cfg w now skip db = some (db', es)) (h : db'.Copy j c) :
    db.Copy j c ∨ ∃ job, st.job? = some job ∧ job.jobId = j ∧ job.columns = c := by
  cases st with
  | claim sentAt =>
      cases hdb
      exact .inl ((Db.Copy.of_claim rfl).1 h)
  | delete job =>
      cases hdb
      rcases h.of_delete with hold | ⟨d, hd, rfl, rfl⟩
      · exact .inl hold
      · exact .inl (.dead hd)
  | fail job message =>
      simp only [Statement.apply, Option.map_eq_some_iff, Prod.mk.injEq] at hdb
      obtain ⟨⟨db₁, n⟩, hf, rfl, -⟩ := hdb
      unfold failRow at hf
      split_ifs at hf
      cases hf
      exact .inl (h.of_update fun _ => rfl)
  | deadLetter job count message failedBody =>
      simp only [Statement.apply, Option.map_eq_some_iff, Prod.mk.injEq, deadLetterOwned_eq] at hdb
      obtain ⟨⟨db₁, owned⟩, hd, rfl, -⟩ := hdb
      split_ifs at hd
      · cases hd
        rcases h.of_delete with hold | ⟨d, hd, rfl, rfl⟩
        · exact .inl hold
        · rcases List.mem_append.mp hd with hd | hd
          · exact .inl (.dead hd)
          · rw [List.mem_singleton.mp hd]
            exact .inr ⟨job, rfl, rfl, rfl⟩
      · cases hd
        exact .inl h

end

variable {cfg : OwnerToken → Settings} {s s' : State P} {w : OwnerToken} {j : Uuid}
  {c : Columns P}

/-- Worker `w` moves on, and the tables change. -/
theorem State.Copy.of_set {wk : Worker P} {db : Db P}
    (h : ((s.setWorker w wk).setDb db).Copy j c) (hdb : ∀ j c, db.Copy j c → s.Copy j c)
    (hwk : ∀ j c, wk.Copy j c → s.Copy j c) : s.Copy j c := by
  rcases h with hd | ⟨v, hv⟩
  · exact hdb j c hd
  · by_cases hvw : v = w
    · subst hvw
      rw [State.setDb_workers, State.setWorker_self] at hv
      exact hwk j c hv
    · rw [State.setDb_workers, State.setWorker_other _ _ hvw] at hv
      exact .inr ⟨v, hv⟩

/-- Worker `w` moves on with the job it had, or with none. -/
theorem State.Copy.of_move {wk : Worker P} (h : (s.setWorker w wk).Copy j c)
    (hjob : ∀ job, wk.phase.job? = some job → (s.workers w).phase.job? = some job)
    (hdropped : wk.dropped = (s.workers w).dropped) : s.Copy j c := by
  refine State.Copy.of_set (show ((s.setWorker w _).setDb s.db).Copy j c from h)
    (fun _ _ => .inl) fun j c hc => .inr ⟨w, ?_⟩
  cases hc with
  | job hj => exact .job (hjob _ hj)
  | dropped hst hj => exact .dropped (hdropped ▸ hst) hj

/-- A worker leaves the loop with the statement in flight dropped. -/
theorem State.Copy.of_exit {cfg : Settings} {phase : Phase P} (hphase : phase.job? = none)
    (h : (s.setWorker w { (s.workers w).leave phase with
      dropped := (s.workers w).inFlight cfg }).Copy j c) : s.Copy j c := by
  refine State.Copy.of_set (show ((s.setWorker w _).setDb s.db).Copy j c from h)
    (fun _ _ => .inl) fun j c hc => .inr ⟨w, ?_⟩
  cases hc with
  | job hj =>
      rw [show Worker.phase _ = phase from rfl, hphase] at hj
      cases hj
  | dropped hst hj =>
      rcases Option.or_eq_some_iff.mp hst with hst | ⟨-, hst⟩
      · exact .job (Phase.statement_job hst hj)
      · exact .dropped hst hj

/-- What an enqueue adds is a copy of what it was given. -/
theorem State.Copy.of_enqueue {n : NewJob P} {db : Db P}
    (hdb : Jobs.enqueueOnConnection n s.db = some db)
    (h : ({ s with db := db, issued := n.jobId :: s.issued } : State P).Copy j c) :
    s.Copy j c ∨ j = n.jobId ∧ c = n.columns := by
  simp only [Jobs.enqueueOnConnection, Option.map_eq_some_iff] at hdb
  obtain ⟨t, ht, rfl⟩ := hdb
  rcases h with hd | hw
  · cases hd with
    | @row _ r hr =>
        have hlook := KeyedTable.lookup_insert ht j
        rw [show t.lookup j = some r from hr] at hlook
        split_ifs at hlook with hj
        · cases hlook
          exact .inr ⟨hj, rfl⟩
        · exact .inl (.inl (.row hlook.symm))
    | dead hd => exact .inl (.inl (.dead hd))
  · exact .inl (.inr hw)

/-- A copy after a step was one before it, or is the row of an enqueue. -/
theorem Took.copy {a : Action P} {es : List Event} (h : Took cfg s a s' es) (hc : s'.Copy j c) :
    s.Copy j c ∨ ∃ n : NewJob P, a = .enqueue n ∧ j = n.jobId ∧ c = n.columns := by
  cases h with
  | tick elapsed => exact .inl hc
  | @enqueue n db hn hdb => exact (hc.of_enqueue hdb).imp_right fun hnew => ⟨n, rfl, hnew⟩
  | @applyClaim w now sentAt skip db row hp ht hdb =>
      refine .inl (hc.of_set (fun _ _ hd => .inl ((Db.Copy.of_claim hdb).1 hd)) fun j c hwk => ?_)
      cases hwk with
      | job hj =>
          cases row with
          | none => cases hj
          | some r =>
              cases hj
              exact .inl ((Db.Copy.of_claim (j := j) (c := c) hdb).2 r rfl)
      | dropped hst hj => exact .inr ⟨w, .dropped hst hj⟩
  | receiveExpired hp => exact .inl (hc.of_move (by rw [hp]; exact fun _ => id) rfl)
  | dispatch hp => exact .inl (hc.of_move (by rw [hp]; exact fun _ => id) rfl)
  | sendBeat hp => exact .inl (hc.of_move (by rw [hp]; exact fun _ => id) rfl)
  | @applyBeat w job tracker nextTick now sentAt n db hp ht hdb =>
      refine .inl (hc.of_set (fun _ _ hd => .inl (hd.of_heartbeat hdb)) fun j c hwk => ?_)
      cases hwk with
      | job hj => exact .inr ⟨w, .job (by rw [hp]; exact hj)⟩
      | dropped hst hj => exact .inr ⟨w, .dropped hst hj⟩
  | receiveBeat hp => exact .inl (hc.of_move (by rw [hp]; exact fun _ => id) rfl)
  | loseBeat hp => exact .inl (hc.of_move (by rw [hp]; exact fun _ => id) rfl)
  | @bodyReturns w error job tracker nextTick beat hp =>
      refine .inl (hc.of_move (fun j hj => ?_) rfl)
      rw [hp]
      cases error <;> exact hj
  | @finish w now st db es hp ht hst hdb =>
      refine .inl (hc.of_set (fun j c hd => ?_) fun j c hwk => ?_)
      · rcases hd.of_apply hdb with hold | ⟨job, hjob, rfl, rfl⟩
        · exact .inl hold
        · exact .inr ⟨w, .job (Phase.statement_job hst hjob)⟩
      · cases hwk with
        | job hj => cases hj
        | dropped hdr hj => exact .inr ⟨w, .dropped hdr hj⟩
  | shutdown hp => exact .inl (hc.of_exit rfl)
  | die hp => exact .inl (hc.of_exit rfl)
  | @cleanup w answered hp =>
      refine .inl (hc.of_set (fun _ _ hd => .inl (hd.of_update fun _ => rfl)) fun j c hwk => ?_)
      cases hwk with
      | job hj => cases hj
      | dropped hst hj => exact .inr ⟨w, .dropped hst hj⟩
  | @applyDropped w now skip st db es hst ht hdb =>
      refine .inl (hc.of_set (fun j c hd => ?_) fun j c hwk => ?_)
      · rcases hd.of_apply hdb with hold | ⟨job, hjob, rfl, rfl⟩
        · exact .inl hold
        · exact .inr ⟨w, .dropped hst hjob⟩
      · cases hwk with
        | job hj => exact .inr ⟨w, .job hj⟩
        | dropped hdr hj => cases hdr
  | @applyDroppedBeat w i now n b db hb ht hdb =>
      refine .inl (hc.of_set (fun _ _ hd => .inl (hd.of_heartbeat hdb)) fun j c hwk => ?_)
      cases hwk with
      | job hj => exact .inr ⟨w, .job hj⟩
      | dropped hst hj => exact .inr ⟨w, .dropped hst hj⟩
  | _ => exact .inl (hc.of_move (fun j hj => by cases hj) rfl)

/-- No id is taken back. -/
theorem Took.issued_mono {a : Action P} {es : List Event} (h : Took cfg s a s' es)
    (hj : j ∈ s.issued) : j ∈ s'.issued := by
  cases h with
  | enqueue => exact List.mem_cons_of_mem _ hj
  | _ => exact hj

theorem Took.enqueue_fresh {n : NewJob P} {es : List Event} (h : Took cfg s (.enqueue n) s' es) :
    n.jobId ∉ s.issued ∧ n.jobId ∈ s'.issued := by
  cases h with
  | enqueue hn hdb => exact ⟨hn, List.mem_cons_self ..⟩

/-- Whatever has a copy was enqueued. -/
theorem copy_issued {C : State P → Action P → Prop} {log : List Event} (h : QueueRun cfg C log s) :
    ∀ j c, s.Copy j c → j ∈ s.issued := by
  refine StepRun.Run.safe (I := fun s => ∀ j c, State.Copy s j c → j ∈ s.issued) ?_ ?_ h
  · rintro j c (hd | ⟨w, hw⟩)
    · cases hd with
      | row hr => cases hr
      | dead hd => cases hd
    · cases hw with
      | job hj => cases hj
      | dropped hst hj => cases hst
  · intro s a s' es hi _ hs j c hc
    have htook := step_took hs
    rcases htook.copy hc with hold | ⟨n, rfl, rfl, -⟩
    · exact htook.issued_mono (hi j c hold)
    · exact htook.enqueue_fresh.2

/-- Whatever there is of the job, it has the columns it was enqueued with. -/
structure State.Says (s : State P) (n : NewJob P) : Prop where
  issued : n.jobId ∈ s.issued
  columns : ∀ c, s.Copy n.jobId c → c = n.columns

theorem enqueued_kept {C : State P → Action P → Prop} {log es : List Event} {n : NewJob P}
    (h : QueueRun cfg C log s) (hs : step cfg s (.enqueue n) = some (s', es)) : s'.Says n := by
  have htook := step_took hs
  refine ⟨htook.enqueue_fresh.2, fun c hc => ?_⟩
  rcases htook.copy hc with hold | ⟨n', he, -, rfl⟩
  · exact absurd (copy_issued h _ _ hold) htook.enqueue_fresh.1
  · cases he
    rfl

theorem State.Says.run {C : State P → Action P → Prop} {log : List Event} {n : NewJob P}
    (h : s.Says n) (hrun : StepRun.Run (step cfg) C s log s') : s'.Says n := by
  refine hrun.safe (I := fun s => s.Says n) h ?_
  intro s a s' es hi _ hs
  have htook := step_took hs
  refine ⟨htook.issued_mono hi.issued, fun c hc => ?_⟩
  rcases htook.copy hc with hold | ⟨n', rfl, hid, rfl⟩
  · exact hi.columns c hold
  · exact absurd (hid ▸ hi.issued) htook.enqueue_fresh.1

/-! ## The dispatch -/

variable {registry : JobRegistry P} {J : JobType P} {v : J.Value} {context : String}
  {priority : Option ℤ} {createdAt : ℕ} {jobId : Uuid} {n : NewJob P}

theorem JobType.enqueueOnConnection_ok
    (hn : J.enqueueOnConnection v context priority createdAt jobId = .ok n) :
    ∃ payload, J.toValue v = .ok payload ∧
      n = ⟨jobId, J.name, payload, priority, context, createdAt⟩ := by
  unfold JobType.enqueueOnConnection at hn
  cases hv : J.toValue v with
  | error message => rw [hv] at hn; cases hn
  | ok payload =>
      rw [hv] at hn
      cases hn
      exact ⟨payload, rfl, rfl⟩

theorem JobType.runFromValue_enqueued {payload : P} (hJ : J.RoundTrips)
    (hv : J.toValue v = .ok payload) : J.runFromValue payload = .ok ⟨J, v⟩ := by
  simp only [JobType.runFromValue, hJ v payload hv]

/-- What a worker gets of a job runs the body of its type on the value. -/
theorem State.Says.runs {payload : P} {job : JobFromDB P}
    (h : s.Says ⟨jobId, J.name, payload, priority, context, createdAt⟩)
    (hv : J.toValue v = .ok payload) (harm : registry.arm J.name = some J) (hJ : J.RoundTrips)
    (hjob : (s.workers w).phase.job? = some job) (hid : job.jobId = jobId) :
    registry.runJob job = .ok ⟨J, v⟩ ∧ job.context = context ∧ job.priority = priority.getD 0 ∧
      job.createdAt = createdAt := by
  have hcopy : s.Copy jobId job.columns := .inr ⟨w, hid ▸ .job hjob⟩
  have hcol := h.columns _ hcopy
  simp only [JobFromDB.columns, NewJob.columns, Columns.mk.injEq] at hcol
  obtain ⟨hname, hpayload, hprio, hcreated, hctx⟩ := hcol
  refine ⟨?_, hctx, hprio, hcreated⟩
  simp only [JobRegistry.runJob, hname, harm, hpayload, JobType.runFromValue_enqueued hJ hv]

/-- However often and wherever a job is claimed after `enqueue_on_connection` stored it,
`run_job` calls the body of its own type on the value that was enqueued; a dead letter
still says the same. -/
theorem runJob_enqueued {C D : State P → Action P → Prop} {log log' es : List Event}
    {s₁ : State P} (h : QueueRun cfg C log s)
    (hn : J.enqueueOnConnection v context priority createdAt jobId = .ok n)
    (hs : step cfg s (.enqueue n) = some (s₁, es)) (h' : StepRun.Run (step cfg) D s₁ log' s')
    (harm : registry.arm J.name = some J) (hJ : J.RoundTrips) :
    (∀ w job, (s'.workers w).phase.job? = some job → job.jobId = jobId →
      registry.runJob job = .ok ⟨J, v⟩ ∧ job.context = context ∧ job.priority = priority.getD 0 ∧
        job.createdAt = createdAt) ∧
    ∀ d ∈ s'.db.deadLetterJobs, d.originalJobId = jobId →
      registry.arm d.name = some J ∧ J.runFromValue d.payload = .ok ⟨J, v⟩ ∧
        d.context = context ∧ d.priority = priority.getD 0 ∧ d.createdAt = createdAt := by
  obtain ⟨payload, hv, rfl⟩ := JobType.enqueueOnConnection_ok hn
  have hkept := (enqueued_kept h hs).run h'
  constructor
  · intro w job hjob hid
    exact hkept.runs hv harm hJ hjob hid
  · intro d hd hid
    have hcopy : s'.Copy jobId d.columns := .inl (hid ▸ .dead hd)
    have hcol := hkept.columns _ hcopy
    simp only [DeadLetterRow.columns, NewJob.columns, Columns.mk.injEq] at hcol
    obtain ⟨hname, hpayload, hprio, hcreated, hctx⟩ := hcol
    exact ⟨by rw [hname, harm], by rw [hpayload, JobType.runFromValue_enqueued hJ hv], hctx, hprio,
      hcreated⟩

/-- Two types over payloads that are lists of numbers. -/
def pingJob : JobType (List ℕ) := ⟨"PingJob", Unit, fun _ => .ok [], fun _ => .ok ()⟩

def addJob : JobType (List ℕ) where
  name := "AddJob"
  Value := ℕ × ℕ
  toValue v := .ok [v.1, v.2]
  fromValue
    | [a, b] => .ok (a, b)
    | _ => .error "invalid length"

def sumRow : NewJob (List ℕ) := ⟨7, "AddJob", [2, 3], some 5, "sums", 0⟩

/-- The queue right after the enqueue. -/
def sumEnqueued : State (List ℕ) :=
  ((step (fun _ => .default 3 (by decide)) .init (.enqueue sumRow)).get (by decide)).1

/-- The first worker dies with the job, and the second gets it past the lease. -/
def sumTakenOver : List (Action (List ℕ)) :=
  [.sendClaim 1, .applyClaim 1 0 [], .receiveClaim 1, .die 1, .tick 121000000000, .sendClaim 2,
    .applyClaim 2 121000000 [], .receiveClaim 2]

theorem runJob_enqueued_taken_over : ∃ (s : State (List ℕ)) (job : JobFromDB (List ℕ)),
    (s.workers 2).phase.job? = some job ∧ job.errorCount = 1 ∧
      JobRegistry.runJob [pingJob, addJob] job = .ok ⟨addJob, (2, 3)⟩ := by
  obtain ⟨log, s, hrun, hend⟩ := StepRun.exists_free_run
    (step (P := List ℕ) fun _ => .default 3 (by decide)) sumEnqueued sumTakenOver
    (fun _ s => (s.workers 2).phase.job?.any fun job => job.jobId == 7 && job.errorCount == 1)
    (by decide)
  rw [Option.any_eq_true] at hend
  obtain ⟨job, hjob, hend⟩ := hend
  rw [Bool.and_eq_true, beq_iff_eq, beq_iff_eq] at hend
  have hround : addJob.RoundTrips := by
    rintro v payload ⟨⟩
    rfl
  have hs : step (fun _ => .default 3 (by decide)) .init (.enqueue sumRow) =
      some (sumEnqueued, [.inserted 7]) := rfl
  have hn : addJob.enqueueOnConnection (2, 3) "sums" (some 5) 0 7 = .ok sumRow := rfl
  have hempty : QueueRun (P := List ℕ) (fun _ => .default 3 (by decide)) StepRun.Free [] .init :=
    .start
  have harm : JobRegistry.arm [pingJob, addJob] addJob.name = some addJob := rfl
  have hdispatch := (runJob_enqueued hempty hn hs hrun harm hround).1 2 job hjob hend.1
  exact ⟨s, job, hjob, hend.2, hdispatch.1⟩

end Cja.Jobs
