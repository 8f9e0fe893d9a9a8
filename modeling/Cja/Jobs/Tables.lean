import Cja.Lib.KeyedTable

/-!
# The tables `jobs` and `dead_letter_jobs`, and the statements of the worker

Each SQL statement of `jobs/worker.rs` is a function on the two tables, with
the row count or the row it returns. The dead-letter transaction is one
function, since it commits or rolls back as a whole. `NOW()` is an argument.

Timestamps are microseconds, as PostgreSQL stores them; the durations and
instants of the worker are nanoseconds. `error_count` starts
at zero and only grows, so a natural number with the `INTEGER` bound models
it. The surrogate `id` of `dead_letter_jobs` is read by no statement and is
left out.
-/
namespace Cja.Jobs

abbrev Uuid := ℕ

/-- The UUID text of one worker, stored in `jobs.locked_by`. -/
abbrev OwnerToken := ℕ

def i32Max : ℕ := 2147483647
def i64Max : ℕ := 9223372036854775807
def microsPerSecond : ℕ := 1000000

structure JobRow (P : Type) where
  jobId : Uuid
  name : String
  payload : P
  priority : ℤ
  runAt : ℕ
  createdAt : ℕ
  lockedAt : Option ℕ
  lockedBy : Option OwnerToken
  context : String
  errorCount : ℕ
  lastErrorMessage : Option String
  lastFailedAt : Option ℕ
deriving Repr, DecidableEq

structure DeadLetterRow (P : Type) where
  originalJobId : Uuid
  name : String
  payload : P
  context : String
  priority : ℤ
  errorCount : ℕ
  lastErrorMessage : Option String
  createdAt : ℕ
  failedAt : ℕ
deriving Repr, DecidableEq

/-- The columns a claim returns to the worker. -/
structure JobFromDB (P : Type) where
  jobId : Uuid
  name : String
  payload : P
  priority : ℤ
  runAt : ℕ
  createdAt : ℕ
  context : String
  errorCount : ℕ
  lastErrorMessage : Option String
  lastFailedAt : Option ℕ
deriving Repr, DecidableEq

variable {P : Type}

def JobRow.toJob (r : JobRow P) : JobFromDB P :=
  ⟨r.jobId, r.name, r.payload, r.priority, r.runAt, r.createdAt, r.context, r.errorCount,
    r.lastErrorMessage, r.lastFailedAt⟩

abbrev JobTable (P : Type) := KeyedTable (JobRow.jobId : JobRow P → Uuid)

structure Db (P : Type) where
  jobs : JobTable P
  deadLetterJobs : List (DeadLetterRow P)

def Db.empty : Db P := ⟨.empty, []⟩

/-- `UPDATE jobs SET f WHERE p`. No statement assigns `job_id`. -/
def Db.updateJobs (db : Db P) (p : JobRow P → Bool) (f : JobRow P → JobRow P)
    (hf : ∀ r, (f r).jobId = r.jobId) : Db P :=
  { db with jobs := db.jobs.update p f hf }

/-- The dead letters of one original job. -/
def Db.deadOf (db : Db P) (j : Uuid) : List (DeadLetterRow P) :=
  db.deadLetterJobs.filter fun d => d.originalJobId = j

/-! ## Enqueue -/

structure NewJob (P : Type) where
  jobId : Uuid
  name : String
  payload : P
  priority : Option ℤ
  context : String
  createdAt : ℕ

/-- `DEFAULT 0` of the column. -/
def initialErrorCount : ℕ := 0

/-- The columns `enqueue_on_connection` leaves out take their defaults. -/
def NewJob.row (n : NewJob P) : JobRow P where
  jobId := n.jobId
  name := n.name
  payload := n.payload
  priority := n.priority.getD 0
  runAt := n.createdAt
  createdAt := n.createdAt
  lockedAt := none
  lockedBy := none
  context := n.context
  errorCount := initialErrorCount
  lastErrorMessage := none
  lastFailedAt := none

def enqueueOnConnection (n : NewJob P) (db : Db P) : Option (Db P) :=
  (db.jobs.insert n.row).map fun t => { db with jobs := t }

/-! ## The claim -/

/-- The `WHERE` clause of the candidate. A null `locked_at` compares as
unknown, so it never makes a locked row claimable. -/
def JobRow.claimable (now window : ℕ) (r : JobRow P) : Bool :=
  r.runAt ≤ now &&
  (r.lockedBy.isNone || r.lockedAt.any fun t => t + window < now) &&
  (r.lockedBy.isNone || r.errorCount < i32Max)

/-- `ORDER BY priority DESC, run_at ASC, created_at ASC`. -/
def JobRow.before (a b : JobRow P) : Bool :=
  b.priority < a.priority ||
    (a.priority == b.priority && (a.runAt < b.runAt ||
      (a.runAt == b.runAt && a.createdAt < b.createdAt)))

def firstOf (best : Option (JobRow P)) (r : JobRow P) : Option (JobRow P) :=
  match best with
  | none => some r
  | some b => if r.before b then some r else some b

/-- `LIMIT 1 FOR UPDATE SKIP LOCKED`: `skip` lists the rows that other
transactions hold at this moment. -/
def candidate (now window : ℕ) (skip : List Uuid) (t : JobTable P) : Option (JobRow P) :=
  (t.rows.filter fun r => r.claimable now window && !skip.contains r.jobId).foldl firstOf none

def leaseExpiredMessage (previous : OwnerToken) : String :=
  "Job lease expired (previous worker: " ++ toString previous ++ ")"

/-- The assignments of the claim: an owner in place means an expired lease,
which is charged here. -/
def JobRow.claimedBy (w : OwnerToken) (now : ℕ) (r : JobRow P) : JobRow P :=
  { r with
    lockedBy := some w
    lockedAt := some now
    errorCount := r.errorCount + if r.lockedBy.isNone then 0 else 1
    lastErrorMessage := match r.lockedBy with
      | none => r.lastErrorMessage
      | some previous => some (leaseExpiredMessage previous)
    lastFailedAt := if r.lockedBy.isNone then r.lastFailedAt else some now }

@[simp] theorem JobRow.claimedBy_jobId (w : OwnerToken) (now : ℕ) (r : JobRow P) :
    (r.claimedBy w now).jobId = r.jobId := rfl

structure ClaimedRow (P : Type) where
  job : JobFromDB P
  previousLockedBy : Option OwnerToken
  previousErrorCount : ℕ
deriving Repr, DecidableEq

def claimRow (w : OwnerToken) (window now : ℕ) (skip : List Uuid) (db : Db P) :
    Db P × Option (ClaimedRow P) :=
  match candidate now window skip db.jobs with
  | none => (db, none)
  | some c =>
      (db.updateJobs (fun r => r.jobId == c.jobId) (JobRow.claimedBy w now)
          (JobRow.claimedBy_jobId w now),
        some ⟨(c.claimedBy w now).toJob, c.lockedBy, c.errorCount⟩)

/-! ## Statements fenced by the owner -/

/-- `job_id = $1 AND locked_by = $2`. -/
def JobRow.ownedBy (j : Uuid) (w : OwnerToken) (r : JobRow P) : Bool :=
  r.jobId == j && r.lockedBy == some w

def JobRow.refreshed (now : ℕ) (r : JobRow P) : JobRow P := { r with lockedAt := some now }

@[simp] theorem JobRow.refreshed_jobId (now : ℕ) (r : JobRow P) :
    (r.refreshed now).jobId = r.jobId := rfl

def heartbeatRow (w : OwnerToken) (j : Uuid) (now : ℕ) (db : Db P) : Db P × ℕ :=
  (db.updateJobs (JobRow.ownedBy j w) (JobRow.refreshed now) (JobRow.refreshed_jobId now),
    db.jobs.affected (JobRow.ownedBy j w))

def deleteRow (w : OwnerToken) (j : Uuid) (db : Db P) : Db P × ℕ :=
  ({ db with jobs := db.jobs.delete (JobRow.ownedBy j w) },
    db.jobs.affected (JobRow.ownedBy j w))

def retryDelay (errorCount : ℕ) : ℕ := microsPerSecond * 2 ^ (errorCount + 1)

/-- `NOW() + POWER(2, error_count + 1) * interval '1 second'`. Intervals and
timestamps are signed 64-bit counts of microseconds; out of range is an error
of the statement. -/
def retryAt (now : ℕ) (errorCount : ℕ) : Option ℕ :=
  if retryDelay errorCount ≤ i64Max ∧ now + retryDelay errorCount ≤ i64Max then
    some (now + retryDelay errorCount)
  else none

def JobRow.failedWith (message : String) (now : ℕ) (r : JobRow P) : JobRow P :=
  { r with
    lockedBy := none
    lockedAt := none
    errorCount := r.errorCount + 1
    lastErrorMessage := some message
    lastFailedAt := some now
    runAt := (retryAt now r.errorCount).getD r.runAt }

@[simp] theorem JobRow.failedWith_jobId (message : String) (now : ℕ) (r : JobRow P) :
    (r.failedWith message now).jobId = r.jobId := rfl

/-- The failure update matches an owned row below the `INTEGER` bound. -/
def JobRow.failable (j : Uuid) (w : OwnerToken) (r : JobRow P) : Bool :=
  r.ownedBy j w && r.errorCount < i32Max

def failRow (w : OwnerToken) (j : Uuid) (message : String) (now : ℕ) (db : Db P) :
    Option (Db P × ℕ) :=
  if db.jobs.rows.all fun r => !r.failable j w || (retryAt now r.errorCount).isSome then
    some (db.updateJobs (JobRow.failable j w) (JobRow.failedWith message now)
        (JobRow.failedWith_jobId message now),
      db.jobs.affected (JobRow.failable j w))
  else none

def JobFromDB.deadLetter (job : JobFromDB P) (count : ℕ) (message : String) (now : ℕ) :
    DeadLetterRow P :=
  ⟨job.jobId, job.name, job.payload, job.context, job.priority, count, some message,
    job.createdAt, now⟩

/-- The transaction of `dead_letter_owned`. `none` is its error branch, which
rolls back: the owned row was not there to delete. -/
def deadLetterOwned (w : OwnerToken) (job : JobFromDB P) (count : ℕ) (message : String)
    (now : ℕ) (db : Db P) : Option (Db P × Bool) :=
  if db.jobs.rows.any (JobRow.ownedBy job.jobId w) then
    let inserted : Db P :=
      { db with deadLetterJobs := db.deadLetterJobs ++ [job.deadLetter count message now] }
    let deleted := deleteRow w job.jobId inserted
    if deleted.2 = 1 then some (deleted.1, true) else none
  else some (db, false)

/-- `locked_by = $1 AND NOT (job_id = ANY($2))`. -/
def JobRow.releasable (w : OwnerToken) (abandoned : List Uuid) (r : JobRow P) : Bool :=
  r.lockedBy == some w && !abandoned.contains r.jobId

def JobRow.unlocked (r : JobRow P) : JobRow P := { r with lockedBy := none, lockedAt := none }

@[simp] theorem JobRow.unlocked_jobId (r : JobRow P) : r.unlocked.jobId = r.jobId := rfl

def cleanupWorkerLocks (w : OwnerToken) (abandoned : List Uuid) (db : Db P) : Db P :=
  db.updateJobs (JobRow.releasable w abandoned) JobRow.unlocked JobRow.unlocked_jobId

/-! ## What the statements do to one key -/

theorem firstOf_foldl_mem (rows : List (JobRow P)) (best : Option (JobRow P)) {r : JobRow P}
    (h : rows.foldl firstOf best = some r) : r ∈ rows ∨ best = some r := by
  induction rows generalizing best with
  | nil => exact Or.inr h
  | cons q qs ih =>
      rcases ih _ h with hm | hb
      · exact Or.inl (List.mem_cons_of_mem _ hm)
      · cases best with
        | none => left; simp only [firstOf, Option.some.injEq] at hb; simp [hb]
        | some b =>
            simp only [firstOf] at hb
            split at hb
            · left; simp only [Option.some.injEq] at hb; simp [hb]
            · exact Or.inr hb

theorem candidate_spec {now window : ℕ} {skip : List Uuid} {t : JobTable P} {c : JobRow P}
    (h : candidate now window skip t = some c) :
    t.lookup c.jobId = some c ∧ c.claimable now window = true := by
  rcases firstOf_foldl_mem _ _ h with hm | hb
  · rw [List.mem_filter, Bool.and_eq_true] at hm
    exact ⟨KeyedTable.lookup_of_mem hm.1, hm.2.1⟩
  · cases hb

/-- A locked row is claimable only past the reclaim window. -/
theorem JobRow.expired_of_claimable {now window : ℕ} {c : JobRow P} {w : OwnerToken}
    (h : c.claimable now window = true) (hw : c.lockedBy = some w) :
    c.errorCount < i32Max ∧ ∃ t, c.lockedAt = some t ∧ t + window < now := by
  simp only [JobRow.claimable, hw, Option.isNone_some, Bool.false_or, Bool.and_eq_true,
    decide_eq_true_eq] at h
  obtain ⟨⟨-, hl⟩, hc⟩ := h
  refine ⟨hc, ?_⟩
  cases ht : c.lockedAt with
  | none => simp [ht] at hl
  | some t => exact ⟨t, rfl, by simpa [ht] using hl⟩

@[simp] theorem JobRow.ownedBy_iff {j : Uuid} {w : OwnerToken} {r : JobRow P} :
    r.ownedBy j w = true ↔ r.jobId = j ∧ r.lockedBy = some w := by
  simp [JobRow.ownedBy]

theorem affected_owned (t : JobTable P) (j : Uuid) (w : OwnerToken) :
    t.affected (JobRow.ownedBy j w) =
      if (t.lookup j).any fun r => r.lockedBy == some w then 1 else 0 := by
  rw [KeyedTable.affected_eq t (k := j) (by simp +contextual)]
  cases h : t.lookup j with
  | none => rfl
  | some r => simp [JobRow.ownedBy, KeyedTable.key_of_lookup h]

theorem any_owned (t : JobTable P) (j : Uuid) (w : OwnerToken) :
    t.rows.any (JobRow.ownedBy j w) = (t.lookup j).any fun r => r.lockedBy == some w := by
  rw [Bool.eq_iff_iff, List.any_eq_true, Option.any_eq_true]
  constructor
  · rintro ⟨r, hr, ho⟩
    rw [JobRow.ownedBy_iff] at ho
    exact ⟨r, ho.1 ▸ KeyedTable.lookup_of_mem hr, by simp [ho.2]⟩
  · rintro ⟨r, hr, ho⟩
    exact ⟨r, KeyedTable.mem_of_lookup hr,
      JobRow.ownedBy_iff.mpr ⟨KeyedTable.key_of_lookup hr, by simpa using ho⟩⟩

end Cja.Jobs
