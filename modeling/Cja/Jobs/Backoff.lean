import Cja.Jobs.Simulation

/-!
# The backoff of a failed job

The failure update computes `run_at` in PostgreSQL. The worker bounds the count by its
retry limit alone, and the limit by nothing but `i32`; what bounds the sum is the range of
timestamps. Past it the statement fails and the row stays locked.
-/
namespace Cja.Jobs

variable {P : Type} {cfg : OwnerToken → Settings} {log : List Event} {s : State P}
  {w : OwnerToken} {job : JobFromDB P} {message : String} {now : ℕ}

theorem retryAt_some_iff {e t : ℕ} :
    retryAt now e = some t ↔ now + retryDelay e ≤ i64Max ∧ t = now + retryDelay e := by
  unfold retryAt
  split_ifs with h
  · constructor
    · intro ht
      cases ht
      exact ⟨h.2, rfl⟩
    · rintro ⟨-, rfl⟩
      rfl
  · constructor
    · intro ht
      cases ht
    · rintro ⟨hle, -⟩
      exact absurd ⟨by omega, hle⟩ h

theorem retryAt_isSome_iff {e : ℕ} :
    (retryAt now e).isSome = true ↔ now + retryDelay e ≤ i64Max := by
  rw [Option.isSome_iff_exists]
  constructor
  · rintro ⟨t, ht⟩
    exact (retryAt_some_iff.mp ht).1
  · intro h
    exact ⟨_, retryAt_some_iff.mpr ⟨h, rfl⟩⟩

/-- The update decides on the owned row alone. -/
theorem failRow_owned {db : Db P} {j : Uuid} {r : JobRow P} (hr : db.jobs.lookup j = some r)
    (hw : r.lockedBy = some w) (hcount : r.errorCount < i32Max) :
    failRow w j message now db =
      if (retryAt now r.errorCount).isSome then
        some (db.updateJobs (JobRow.failable j w) (JobRow.failedWith message now)
          (JobRow.failedWith_jobId message now), 1)
      else none := by
  have hfailable : r.failable j w = true := by
    simp [JobRow.failable, JobRow.ownedBy, KeyedTable.key_of_lookup hr, hw, hcount]
  have hall : (db.jobs.rows.all fun q => !q.failable j w || (retryAt now q.errorCount).isSome) =
      (retryAt now r.errorCount).isSome := by
    rw [Bool.eq_iff_iff, List.all_eq_true]
    constructor
    · intro hrows
      have hrow := hrows r (KeyedTable.mem_of_lookup hr)
      rw [hfailable, Bool.not_true, Bool.false_or] at hrow
      exact hrow
    · intro hsome q hq
      by_cases hk : q.jobId = j
      · have hlook := KeyedTable.lookup_of_mem hq
        rw [hk, hr] at hlook
        cases hlook
        rw [hsome, Bool.or_true]
      · rw [failable_false rfl (Ne.symm hk), Bool.not_false, Bool.true_or]
  unfold failRow
  rw [hall, affected_failable, hr]
  simp [hw, hcount]

/-- A failed body finds the count it was claimed with. -/
theorem failing_row (h : QueueRun cfg StepRun.Free log s)
    (hphase : (s.workers w).phase = .failing job message) (hown : s.owns w job.jobId = true) :
    ∃ r, s.db.jobs.lookup job.jobId = some r ∧ r.lockedBy = some w ∧
      r.errorCount = job.errorCount := by
  obtain ⟨L, -, hsim⟩ := Sim.of_run job.jobId h
  obtain ⟨l, r, hl, hw, hr, hrw, hcount, -⟩ := hsim.tables.of_owned hown
  subst hw
  have hjob : (s.workers l.owner).phase.job? = some job := by rw [hphase]; rfl
  have hagree := ((hsim.owner l hl).job job hjob rfl).1
  exact ⟨r, hr, hrw, by rw [hcount, hagree]⟩

/-- The finalization of a failed body below the limit is one update of the row. -/
theorem finish_failing (h : QueueRun cfg StepRun.Free log s)
    (hphase : (s.workers w).phase = .failing job message)
    (hbelow : job.errorCount < (cfg w).maxRetries) (hown : s.owns w job.jobId = true) :
    s.finish (cfg w) w now true =
      if now ≤ s.now / 1000 ∧ now + retryDelay job.errorCount ≤ i64Max then
        some ((s.setPhase w .idle).setDb (s.db.updateJobs (JobRow.failable job.jobId w)
          (JobRow.failedWith message now) (JobRow.failedWith_jobId message now)),
          [.failed w job.jobId])
      else none := by
  obtain ⟨r, hr, hw, hcount⟩ := failing_row h hphase hown
  have hint : r.errorCount < i32Max := by
    have := (cfg w).maxRetries_le
    omega
  have hstatement : (s.workers w).phase.statement (cfg w) = some (.fail job message) := by
    rw [hphase]
    simp only [Phase.statement, if_neg (Nat.not_le.mpr hbelow)]
  have hfinalizing : (s.workers w).phase.finalizing = true := by rw [hphase]; rfl
  simp only [State.finish, hfinalizing, if_true, hstatement, Option.bind_some, Statement.apply,
    failRow_owned hr hw hint, hcount, retryAt_isSome_iff]
  by_cases hnow : now ≤ s.now / 1000
  · by_cases hrange : now + retryDelay job.errorCount ≤ i64Max
    · simp only [if_pos hnow, if_pos hrange, if_pos (And.intro hnow hrange), Option.map_some,
        if_true]
    · simp only [if_pos hnow, hrange, and_false, if_false, Option.map_none]
  · simp only [hnow, false_and, if_false]

/-- The finalization of a failed body puts its job back, due after the backoff. -/
def State.Reschedules (cfg : Settings) (s : State P) (w : OwnerToken) (job : JobFromDB P)
    (now : ℕ) : Prop :=
  ∃ s', s.finish cfg w now true = some (s', [.failed w job.jobId]) ∧
    ∃ r, s'.db.jobs.lookup job.jobId = some r ∧ r.lockedBy = none ∧ r.lockedAt = none ∧
      r.errorCount = job.errorCount + 1 ∧
      r.runAt = now + microsPerSecond * 2 ^ (job.errorCount + 1)

/-- In every run, a failed body below the limit is put back if the due time is a
timestamp, and only then. -/
theorem reschedules_iff (h : QueueRun cfg StepRun.Free log s)
    (hphase : (s.workers w).phase = .failing job message)
    (hbelow : job.errorCount < (cfg w).maxRetries) (hown : s.owns w job.jobId = true)
    (hnow : now ≤ s.now / 1000) :
    s.Reschedules (cfg w) w job now ↔
      now + microsPerSecond * 2 ^ (job.errorCount + 1) ≤ i64Max := by
  unfold State.Reschedules
  rw [finish_failing h hphase hbelow hown]
  constructor
  · rintro ⟨s', hs', -⟩
    split_ifs at hs' with hrange
    exact hrange.2
  · intro hle
    obtain ⟨r, hr, hw, hcount⟩ := failing_row h hphase hown
    have hint : r.errorCount < i32Max := by
      have := (cfg w).maxRetries_le
      omega
    rw [if_pos ⟨hnow, hle⟩]
    refine ⟨_, rfl, r.failedWith message now, ?_, rfl, rfl, ?_, ?_⟩
    · change (s.db.updateJobs _ _ _).jobs.lookup job.jobId = _
      rw [lookup_updateJobs, hr]
      simp [JobRow.failable, JobRow.ownedBy, KeyedTable.key_of_lookup hr, hw, hint]
    · change r.errorCount + 1 = _
      rw [hcount]
    · change (retryAt now r.errorCount).getD r.runAt = _
      rw [hcount, retryAt_some_iff.mpr ⟨hle, rfl⟩]
      rfl

/-- The first failure of a job. -/
def firstFailure : List (Action Unit) :=
  [.enqueue ⟨7, "Job", (), none, "", 0⟩, .sendClaim 1, .applyClaim 1 0 [], .receiveClaim 1,
    .bodyReturns 1 (some "Err")]

theorem firstFailure_reschedules : ∃ (log : List Event) (s : State Unit) (job : JobFromDB Unit),
    QueueRun (fun _ => .default 3 (by decide)) StepRun.Free log s ∧
      job.errorCount < 3 ∧ s.Reschedules (.default 3 (by decide)) 1 job 0 := by
  obtain ⟨log, s, hrun, hend⟩ := StepRun.exists_free_run
    (step (P := Unit) fun _ => .default 3 (by decide)) .init firstFailure
    (fun _ s => (s.workers 1).phase ==
        .failing ⟨7, "Job", (), 0, 0, 0, "", 0, none, none⟩ "Err" && s.owns 1 7)
    (by decide)
  rw [Bool.and_eq_true, beq_iff_eq] at hend
  refine ⟨log, s, _, hrun, ?_, (reschedules_iff hrun hend.1 ?_ hend.2 (Nat.zero_le _)).mpr ?_⟩
  · decide
  · decide
  · decide

/-- Forty-three workers die with the job, each past the lease of the one before. -/
def manyDeaths : List (Action Unit) :=
  .enqueue ⟨7, "Job", (), none, "", 0⟩ ::
    ((List.range 43).flatMap fun w =>
      [.sendClaim w, .applyClaim w (121000000 * w) [], .die w, .tick 121000000000]) ++
    [.sendClaim 43, .applyClaim 43 (121000000 * 43) [], .receiveClaim 43,
      .bodyReturns 43 (some "Err")]

theorem manyDeaths_locked : ∃ (log : List Event) (s : State Unit) (job : JobFromDB Unit),
    QueueRun (fun _ => .default 100 (by decide)) StepRun.Free log s ∧
      (s.workers 43).phase = .failing job "Err" ∧ job.errorCount < 100 ∧
      s.owns 43 job.jobId = true ∧ ∀ now, ¬s.Reschedules (.default 100 (by decide)) 43 job now := by
  obtain ⟨log, s, hrun, hend⟩ := StepRun.exists_free_run
    (step (P := Unit) fun _ => .default 100 (by decide)) .init manyDeaths
    (fun _ s => match (s.workers 43).phase with
      | .failing job message => job.errorCount == 43 && message == "Err" && s.owns 43 job.jobId
      | _ => false)
    (by decide +kernel)
  cases hphase : (s.workers 43).phase with
  | failing job message =>
      rw [hphase] at hend
      simp only [Bool.and_eq_true, beq_iff_eq] at hend
      obtain ⟨⟨hcount, rfl⟩, hown⟩ := hend
      have hbelow : job.errorCount < 100 := by omega
      refine ⟨log, s, job, hrun, hphase, hbelow, hown, ?_⟩
      rintro now ⟨s', hs', -⟩
      rw [finish_failing hrun hphase hbelow hown, hcount] at hs'
      have hrange : ¬now + retryDelay 43 ≤ i64Max := by
        have hdelay : i64Max < retryDelay 43 := by decide
        omega
      rw [if_neg (fun hboth => hrange hboth.2)] at hs'
      cases hs'
  | _ => rw [hphase] at hend; cases hend

end Cja.Jobs
