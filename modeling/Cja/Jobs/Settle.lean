import Cja.Jobs.Backoff
import Cja.Jobs.Conservation
import Cja.Jobs.Drain

/-!
# Every job ends

Whatever the bodies return, one idle worker brings every job to its end. A job that fails
is put back with one attempt less, or stays locked where its due time is no timestamp, and
then the next claim charges it. So what is left to do falls with every claim, and the
dead letters are where it ends at the latest.
-/
namespace Cja.Jobs

variable {P : Type} {cfg : OwnerToken → Settings} {s s' : State P} {w : OwnerToken}
  {verdict : JobFromDB P → Option String} {log : List Event} {t : ℕ}

/-- What is left to do with a row: two for each charge that it can still take, and one for
the claim of an expired lease, where the lease is charged, or two for any other. -/
def JobRow.load (maxRetries : ℕ) (r : JobRow P) : ℕ :=
  2 * (maxRetries - r.errorCount) + if r.lockedBy.isNone then 2 else 1

/-- The lease of a row expires, and a claim can count it. -/
structure JobRow.Expires (r : JobRow P) : Prop where
  stamped : r.lockedBy.isSome = true → r.lockedAt.isSome = true
  countable : r.errorCount < i32Max

/-- What a claim leaves of a row in the end: nothing, or a row with less to do. -/
structure Less (cfg : Settings) (r : JobRow P) (left : Option (JobRow P)) : Prop where
  expires : ∀ q ∈ left, q.Expires
  load : ∀ q ∈ left, q.load cfg.maxRetries < r.load cfg.maxRetries

theorem Less.gone {c : Settings} {r : JobRow P} : Less c r none where
  expires := nofun
  load := nofun

/-- The row has less to do after the failure update, and also if it stays as it was claimed. -/
theorem load_failed {r q : JobRow P} {m : ℕ} (hbelow : (r.claimedBy w 0).errorCount < m)
    (hq : (q.lockedBy = none ∧ q.errorCount = (r.claimedBy w 0).errorCount + 1) ∨
      (q.lockedBy = some w ∧ q.errorCount = (r.claimedBy w 0).errorCount)) :
    q.load m < r.load m := by
  unfold JobRow.load
  rcases hq with ⟨hby, hcount⟩ | ⟨hby, hcount⟩ <;> cases hr : r.lockedBy <;>
    simp [JobRow.claimedBy, hr, hby, hcount] at * <;> omega

theorem fate_of_inserted {j : Uuid} (h : QueueRun cfg StepRun.Free log s) (hj : .inserted j ∈ log) :
    ∃! fate : Fate, fate.Holds j s.db log := by
  obtain ⟨L, hlife, hsim⟩ := Sim.of_run j h
  exact hsim.tables.fate hlife (Life.ne_absent_of_inserted hlife hj)

/-! ## One claim -/

/-- A failed body is dead-lettered, or its row is put back, or it stays locked. -/
theorem failing_runs {job : JobFromDB P} {message : String} {r : JobRow P}
    (hphase : (s.workers w).phase = .failing job message)
    (hr : s.db.jobs.lookup job.jobId = some (r.claimedBy w t))
    (hjob : job.errorCount = (r.claimedBy w 0).errorCount)
    (hcount : (r.claimedBy w 0).errorCount < i32Max) (hretries : (cfg w).maxRetries < i32Max) :
    ∃ es s' left, StepRun.Run (step cfg) (Ruled w verdict) s es s' ∧
      (s'.workers w).phase = .idle ∧ s'.now = s.now ∧ Less (cfg w) r left ∧
      (left.toList ++ s.db.jobs.rows.filter fun q => q.jobId ≠ job.jobId).Perm s'.db.jobs.rows := by
  have hby : (r.claimedBy w t).lockedBy = some w := rfl
  have hmem := KeyedTable.mem_of_lookup hr
  have hkey := KeyedTable.key_of_lookup hr
  by_cases hlast : (cfg w).maxRetries ≤ job.errorCount
  · have hstatement : (s.workers w).phase.statement (cfg w) =
        some (.deadLetter job (job.errorCount + 1) message true) := by
      have hfits : job.errorCount + 1 ≤ i32Max := by omega
      rw [hphase]
      simp only [Phase.statement, if_pos hlast, if_pos hfits]
    have howner : (s.db.jobs.lookup job.jobId).any (fun q => q.lockedBy == some w) = true := by
      simp [hr, hby]
    have hfinish : step cfg s (.finish w (s.now / 1000) true) = some ((s.setPhase w .idle).setDb
        ⟨s.db.jobs.delete (JobRow.ownedBy job.jobId w), s.db.deadLetterJobs ++
          [job.deadLetter (job.errorCount + 1) message (s.now / 1000)]⟩,
        [.deadLettered w job.jobId (job.errorCount + 1) true]) := by
      simp only [step, State.finish, hstatement]
      simp [hphase, Phase.finalizing, Statement.apply, deadLetterOwned_eq, howner]
    refine ⟨_, _, none, ruled_snoc .start hfinish rfl (by simp), by simp [State.setPhase_eq], rfl,
      .gone, ?_⟩
    have hgone := KeyedTable.rows_delete (p := JobRow.ownedBy job.jobId w) hmem
      (fun q hq => (JobRow.ownedBy_iff.mp hq).1.trans hkey.symm)
      (JobRow.ownedBy_iff.mpr ⟨hkey, hby⟩)
    rw [hkey] at hgone
    exact .of_eq hgone.symm
  · have hbelow : (r.claimedBy w 0).errorCount < (cfg w).maxRetries := by omega
    have hstatement : (s.workers w).phase.statement (cfg w) = some (.fail job message) := by
      rw [hphase]
      simp only [Phase.statement, if_neg hlast]
    have hfail : failRow w job.jobId message (s.now / 1000) s.db =
        if (retryAt (s.now / 1000) (r.claimedBy w t).errorCount).isSome then
          some (s.db.updateJobs (JobRow.failable job.jobId w)
            (JobRow.failedWith message (s.now / 1000))
            (JobRow.failedWith_jobId message (s.now / 1000)), 1)
        else none := failRow_owned hr hby hcount
    cases htime : (retryAt (s.now / 1000) (r.claimedBy w t).errorCount).isSome with
    | true =>
        rw [if_pos htime] at hfail
        have hfinish : step cfg s (.finish w (s.now / 1000) true) = some ((s.setPhase w .idle).setDb
            (s.db.updateJobs (JobRow.failable job.jobId w)
              (JobRow.failedWith message (s.now / 1000))
              (JobRow.failedWith_jobId message (s.now / 1000))), [.failed w job.jobId]) := by
          simp only [step, State.finish, hstatement]
          simp [hphase, Phase.finalizing, Statement.apply, hfail]
        refine ⟨_, _, some ((r.claimedBy w t).failedWith message (s.now / 1000)),
          ruled_snoc .start hfinish rfl (by simp), by simp [State.setPhase_eq], rfl, ⟨?_, ?_⟩, ?_⟩
        · rintro q ⟨⟩
          refine ⟨by simp [JobRow.failedWith], ?_⟩
          change (r.claimedBy w 0).errorCount + 1 < i32Max
          omega
        · rintro q ⟨⟩
          exact load_failed hbelow (.inl ⟨rfl, rfl⟩)
        · have hfailable : (r.claimedBy w t).failable job.jobId w = true := by
            rw [JobRow.failable, Bool.and_eq_true, JobRow.ownedBy_iff, decide_eq_true_eq]
            exact ⟨⟨hkey, hby⟩, hcount⟩
          have hperm := KeyedTable.rows_update hmem
            (JobRow.failedWith_jobId message (s.now / 1000)) (fun q hq => ?_) hfailable
          · rw [hkey] at hperm
            exact hperm
          · rw [JobRow.failable, Bool.and_eq_true, JobRow.ownedBy_iff] at hq
            exact hq.1.1.trans hkey.symm
    | false =>
        have hfinish : step cfg s (.finish w (s.now / 1000) false) =
            some (s.setPhase w .idle, []) := by
          simp [step, State.finish, hphase, Phase.finalizing]
        refine ⟨_, _, some (r.claimedBy w t), ruled_snoc .start hfinish rfl (by simp),
          by simp [State.setPhase_eq], rfl, ⟨?_, ?_⟩, ?_⟩
        · rintro q ⟨⟩
          exact ⟨fun _ => rfl, hcount⟩
        · rintro q ⟨⟩
          exact load_failed hbelow (.inr ⟨rfl, rfl⟩)
        · have hperm := KeyedTable.rows_perm hmem
          rw [hkey] at hperm
          exact hperm

/-- An idle worker takes a job, and less is left to do. -/
theorem settle_one (verdict : JobFromDB P → Option String) (hidle : (s.workers w).phase = .idle)
    (hne : s.db.jobs.rows ≠ []) (hretries : (cfg w).maxRetries < i32Max)
    (hexpires : ∀ r ∈ s.db.jobs.rows, r.Expires)
    (hripe : ∀ r ∈ s.db.jobs.rows,
      r.claimable (s.now / 1000) (cfg w).reclaimWindowMicros = true) :
    ∃ r ∈ s.db.jobs.rows, ∃ es s' left, StepRun.Run (step cfg) (Ruled w verdict) s es s' ∧
      (s'.workers w).phase = .idle ∧ Less (cfg w) r left ∧
      (left.toList ++ s.db.jobs.rows.filter fun q => q.jobId ≠ r.jobId).Perm s'.db.jobs.rows := by
  obtain ⟨r, hmem, hr, -⟩ := candidate_first hne hripe
  refine ⟨r, hmem, ?_⟩
  have hclaim := claim_runs verdict hidle hr
  have hphase : ((s.claiming (cfg w) w r).workers w).phase = .fetched (some (s.claimOf w r)) := by
    simp [State.claiming, State.claimOf, State.setPhase_eq]
  have hdb : (s.claiming (cfg w) w r).db = s.db.updateJobs (fun q => q.jobId == r.jobId)
      (JobRow.claimedBy w (s.now / 1000)) (JobRow.claimedBy_jobId w (s.now / 1000)) := by
    simp [State.claiming, claimRow, hr]
  have hrow : (s.claiming (cfg w) w r).db.jobs.lookup r.jobId =
      some (r.claimedBy w (s.now / 1000)) := by
    rw [hdb, lookup_updateJobs, KeyedTable.lookup_of_mem hmem]
    simp
  have howner : ((s.claiming (cfg w) w r).db.jobs.lookup r.jobId).any
      (fun q => q.lockedBy == some w) = true := by
    simp [hrow, JobRow.claimedBy]
  have hgone := rows_claimed_gone s.db w (s.now / 1000) r.jobId
  rw [← hdb] at hgone
  have hrest : (s.claiming (cfg w) w r).db.jobs.rows.filter (fun q => q.jobId ≠ r.jobId) =
      s.db.jobs.rows.filter fun q => q.jobId ≠ r.jobId := by
    have hdeleted := KeyedTable.rows_delete (p := JobRow.ownedBy r.jobId w)
      (KeyedTable.mem_of_lookup hrow) (fun q hq => (JobRow.ownedBy_iff.mp hq).1)
      (JobRow.ownedBy_iff.mpr ⟨rfl, rfl⟩)
    exact hdeleted.symm.trans hgone
  cases hex : r.exhausted (cfg w) with
  | true =>
      obtain ⟨s', hrun, hidle', -, hjobs⟩ := exhausted_runs hphase howner hex
      refine ⟨_, s', none, hclaim.trans hrun, hidle', .gone, ?_⟩
      rw [hjobs, hgone]
      exact .refl _
  | false =>
      obtain ⟨s₁, hreturn, hphase₁, -, hdb₁⟩ := returned_runs verdict hphase rfl howner hex
      rw [← hdb₁] at howner hgone hrow hrest
      cases hverdict : verdict (s.claimOf w r).job with
      | none =>
          rw [hverdict] at hphase₁
          obtain ⟨s', hrun, hidle', -, hjobs⟩ := deleted_runs hphase₁ howner
          refine ⟨_, s', none, (hclaim.trans hreturn).trans hrun, hidle', .gone, ?_⟩
          rw [hjobs]
          exact .of_eq hgone.symm
      | some message =>
          rw [hverdict] at hphase₁
          have hcount : (r.claimedBy w 0).errorCount < i32Max := by
            have hbound := (hexpires r hmem).countable
            rw [JobRow.exhausted, Bool.and_eq_false_iff, decide_eq_false_iff_not] at hex
            cases hby : r.lockedBy with
            | none => simpa [JobRow.claimedBy, hby] using hbound
            | some v =>
                have hleft : r.errorCount < (cfg w).maxRetries := by simpa [hby] using hex
                simp only [JobRow.claimedBy, hby, Option.isNone_some, Bool.false_eq_true, if_false]
                omega
          obtain ⟨es, s', left, hrun, hidle', -, hless, hperm⟩ :=
            failing_runs hphase₁ hrow rfl hcount hretries
          refine ⟨_, s', left, (hclaim.trans hreturn).trans hrun, hidle', hless, ?_⟩
          rw [← hrest]
          exact hperm

/-! ## The whole table -/

/-- What is left to do with a table. -/
def workLeft (maxRetries : ℕ) (rows : List (JobRow P)) : ℕ :=
  (rows.map (JobRow.load maxRetries)).sum

theorem workLeft_falls {c : Settings} {t t' : JobTable P} {r : JobRow P} (hr : r ∈ t.rows)
    {left : Option (JobRow P)} (hless : Less c r left)
    (hperm : (left.toList ++ t.rows.filter fun q => q.jobId ≠ r.jobId).Perm t'.rows) :
    workLeft c.maxRetries t'.rows < workLeft c.maxRetries t.rows := by
  have hafter := (hperm.map (JobRow.load c.maxRetries)).sum_eq
  have hbefore := ((KeyedTable.rows_perm hr).map (JobRow.load c.maxRetries)).sum_eq
  unfold workLeft
  rw [← hafter, ← hbefore, List.map_append, List.sum_append, List.map_cons, List.sum_cons]
  cases left with
  | none =>
      have hpos : 0 < r.load c.maxRetries := by
        unfold JobRow.load
        split_ifs <;> omega
      simpa using hpos
  | some q =>
      have hload := hless.load q rfl
      simpa using hload

/-- Time passes until a claim can take any row, and the worker takes one; and so on. -/
theorem settle_rows (verdict : JobFromDB P → Option String) (hretries : (cfg w).maxRetries < i32Max)
    (n : ℕ) (hn : workLeft (cfg w).maxRetries s.db.jobs.rows = n)
    (hidle : (s.workers w).phase = .idle) (hexpires : ∀ r ∈ s.db.jobs.rows, r.Expires) :
    ∃ es s', StepRun.Run (step cfg) (Ruled w verdict) s es s' ∧ s'.db.jobs.rows = [] := by
  induction n using Nat.strong_induction_on generalizing s with
  | h n ih =>
      by_cases hne : s.db.jobs.rows = []
      · exact ⟨[], s, .start, hne⟩
      · obtain ⟨T, hT⟩ := claimable_eventually s.db.jobs.rows (cfg w).reclaimWindowMicros
          (fun r hr => (hexpires r hr).stamped) fun r hr _ => (hexpires r hr).countable
        have hlate : T ≤ (s.now + 1000 * T) / 1000 := by omega
        obtain ⟨r, hmem, es, s₁, left, hrun, hidle₁, hless, hperm⟩ :=
          settle_one (s := { s with now := s.now + 1000 * T }) verdict hidle hne hretries hexpires
            (hT _ hlate)
        have hwait : StepRun.Run (step cfg) (Ruled w verdict) s []
            { s with now := s.now + 1000 * T } := by
          have htick : step cfg s (.tick (1000 * T)) =
              some ({ s with now := s.now + 1000 * T }, []) := rfl
          have hruled : Ruled w verdict s (.tick (1000 * T)) := ⟨.inl rfl, nofun⟩
          exact .snoc .start hruled htick
        have hexpires₁ : ∀ q ∈ s₁.db.jobs.rows, q.Expires := by
          intro q hq
          rw [← hperm.mem_iff, List.mem_append, Option.mem_toList] at hq
          rcases hq with hq | hq
          · exact hless.expires q hq
          · exact hexpires q (List.mem_of_mem_filter hq)
        have hfalls := workLeft_falls hmem hless hperm
        obtain ⟨fs, s', hrun', hend⟩ := ih _ (hn ▸ hfalls) rfl hidle₁ hexpires₁
        exact ⟨_, s', (hwait.trans hrun).trans hrun', hend⟩

/-- In an empty table no job is queued. -/
theorem ended_of_empty {j : Uuid} (h : QueueRun cfg StepRun.Free log s) (hend : s.db.jobs.rows = [])
    (hj : .inserted j ∈ log) :
    Fate.completed.Holds j s.db log ∨ Fate.deadLettered.Holds j s.db log := by
  obtain ⟨fate, hfate, -⟩ := fate_of_inserted h hj
  cases fate with
  | queued =>
      have hnone : s.db.jobRows j = 0 := by simp [Db.jobRows, hend]
      exact absurd (hnone.symm.trans hfate.1) (by decide)
  | deadLettered => exact .inr hfate
  | completed => exact .inl hfate

theorem settles {C : State P → Action P → Prop} (h : QueueRun cfg C log s)
    (verdict : JobFromDB P → Option String) (hidle : (s.workers w).phase = .idle)
    (hretries : (cfg w).maxRetries < i32Max)
    (hcount : ∀ r ∈ s.db.jobs.rows, r.errorCount < i32Max) :
    ∃ es s', StepRun.Run (step cfg) (Ruled w verdict) s es s' ∧ s'.db.jobs.rows = [] := by
  have hexpires : ∀ r ∈ s.db.jobs.rows, r.Expires := fun r hr =>
    ⟨rows_stamped h r hr, hcount r hr⟩
  exact settle_rows verdict hretries _ rfl hidle hexpires

/-- From every state of every run, whatever the bodies return, one idle worker can bring
every job that was ever enqueued to its end: it is completed or dead-lettered. -/
theorem queue_settles {C : State P → Action P → Prop} (h : QueueRun cfg C log s)
    (verdict : JobFromDB P → Option String) (hidle : (s.workers w).phase = .idle)
    (hretries : (cfg w).maxRetries < i32Max)
    (hcount : ∀ r ∈ s.db.jobs.rows, r.errorCount < i32Max) :
    ∃ es s', StepRun.Run (step cfg) (Ruled w verdict) s es s' ∧ s'.db.jobs.rows = [] ∧
      ∀ j, .inserted j ∈ log → Fate.completed.Holds j s'.db (log ++ es) ∨
        Fate.deadLettered.Holds j s'.db (log ++ es) := by
  obtain ⟨es, s', hrun, hend⟩ := settles h verdict hidle hretries hcount
  refine ⟨es, s', hrun, hend, fun j hj => ?_⟩
  exact ended_of_empty (h.free.trans hrun.free) hend (List.mem_append_left _ hj)

theorem queue_settles_failing : ∃ (s : State Unit) (log es : List Event) (s' : State Unit),
    s.db.jobs.rows.length = 2 ∧ s.owns 1 7 = true ∧
      StepRun.Run (step fun _ => .default 3 (by decide)) (Ruled 2 fun _ => some "no") s es s' ∧
      ∀ j ∈ [7, 8], Fate.completed.Holds j s'.db (log ++ es) ∨
        Fate.deadLettered.Holds j s'.db (log ++ es) := by
  obtain ⟨log, s, hrun, hend⟩ := StepRun.exists_free_run
    (step (P := Unit) fun _ => .default 3 (by decide)) .init abandonedQueue
    (fun log s => (s.workers 2).phase == .idle && s.owns 1 7 && s.db.jobs.rows.length == 2 &&
      (s.db.jobs.rows.all fun r => r.errorCount < 3) &&
      [7, 8].all fun j => log.contains (.inserted j)) (by decide)
  simp only [Bool.and_eq_true, beq_iff_eq, List.all_eq_true, decide_eq_true_eq,
    List.contains_iff_mem] at hend
  obtain ⟨⟨⟨⟨hidle, hown⟩, htwo⟩, hfew⟩, hinserted⟩ := hend
  have hcount : ∀ r ∈ s.db.jobs.rows, r.errorCount < i32Max :=
    fun r hr => (hfew r hr).trans (by decide)
  obtain ⟨es, s', hsettle, -, hends⟩ :=
    queue_settles hrun (fun _ => some "no") hidle (by decide) hcount
  exact ⟨s, log, es, s', htwo, hown, hsettle, fun j hj => hends j (hinserted j hj)⟩

end Cja.Jobs
