import Cja.Jobs.Payload

/-!
# The queue drains

Whatever happened to the workers before, one idle worker whose bodies return `Ok`
empties the table `jobs`, once every due time and every lease has passed: no job gets
stuck behind a crashed worker or behind another job. It takes the jobs in the order of
the claim.
-/
namespace Cja.Jobs

variable {P : Type}

/-! ## The order of the claim -/

theorem JobRow.before_iff {a b : JobRow P} :
    a.before b = true ↔ b.priority < a.priority ∨ a.priority = b.priority ∧
      (a.runAt < b.runAt ∨ a.runAt = b.runAt ∧ a.createdAt < b.createdAt) := by
  simp [JobRow.before]

theorem JobRow.before_trans {a b c : JobRow P} (hab : a.before b = true) (hbc : b.before c = true) :
    a.before c = true := by
  rw [JobRow.before_iff] at hab hbc ⊢
  omega

theorem JobRow.before_irrefl (a : JobRow P) : a.before a = false := by
  rw [Bool.eq_false_iff, Ne, JobRow.before_iff]
  omega

/-- The fold keeps a row that nothing it has seen comes before. -/
theorem firstOf_foldl_first (rows : List (JobRow P)) {best : Option (JobRow P)} {c : JobRow P}
    (h : rows.foldl firstOf best = some c) :
    (∀ b, best = some b → b.before c = false) ∧ ∀ r ∈ rows, r.before c = false := by
  induction rows generalizing best with
  | nil =>
      refine ⟨fun b hb => ?_, by simp⟩
      rw [List.foldl_nil, hb] at h
      cases h
      exact c.before_irrefl
  | cons q qs ih =>
      rw [List.foldl_cons] at h
      obtain ⟨hbest, hqs⟩ := ih h
      cases best with
      | none =>
          refine ⟨by simp, fun r hr => ?_⟩
          rcases List.mem_cons.mp hr with rfl | hr
          · exact hbest _ rfl
          · exact hqs r hr
      | some b =>
          by_cases hq : q.before b = true
          · have hqc : q.before c = false := hbest q (by simp [firstOf, hq])
            have hbc : b.before c = false := by
              by_contra hb
              rw [Bool.not_eq_false] at hb
              rw [JobRow.before_trans hq hb] at hqc
              cases hqc
            refine ⟨fun b' hb' => Option.some.inj hb' ▸ hbc, fun r hr => ?_⟩
            rcases List.mem_cons.mp hr with rfl | hr
            · exact hqc
            · exact hqs r hr
          · have hbc : b.before c = false := hbest b (by simp [firstOf, hq])
            have hqc : q.before c = false := by
              by_contra hqc
              rw [Bool.not_eq_false, JobRow.before_iff] at hqc
              rw [Bool.eq_false_iff, Ne, JobRow.before_iff] at hbc
              rw [JobRow.before_iff] at hq
              omega
            refine ⟨fun b' hb' => Option.some.inj hb' ▸ hbc, fun r hr => ?_⟩
            rcases List.mem_cons.mp hr with rfl | hr
            · exact hqc
            · exact hqs r hr

theorem firstOf_foldl_isSome (rows : List (JobRow P)) {best : Option (JobRow P)}
    (h : best.isSome = true ∨ rows ≠ []) : (rows.foldl firstOf best).isSome = true := by
  induction rows generalizing best with
  | nil => simpa using h
  | cons q qs ih =>
      refine ih (.inl ?_)
      cases best with
      | none => rfl
      | some b =>
          simp only [firstOf]
          split_ifs <;> rfl

/-- Where every row may be claimed, the claim takes one that no row comes before. -/
theorem candidate_first {now window : ℕ} {t : JobTable P} (hne : t.rows ≠ [])
    (hall : ∀ r ∈ t.rows, r.claimable now window = true) :
    ∃ c ∈ t.rows, candidate now window [] t = some c ∧ ∀ r ∈ t.rows, r.before c = false := by
  have hfilter : t.rows.filter (fun r =>
      r.claimable now window && !([] : List Uuid).contains r.jobId) = t.rows := by
    rw [List.filter_eq_self]
    intro r hr
    simp [hall r hr]
  have hsome : (candidate now window [] t).isSome = true := by
    unfold candidate
    rw [hfilter]
    exact firstOf_foldl_isSome _ (.inr hne)
  obtain ⟨c, hc⟩ := Option.isSome_iff_exists.mp hsome
  refine ⟨c, KeyedTable.mem_of_lookup (candidate_spec hc).1, hc, ?_⟩
  unfold candidate at hc
  rw [hfilter] at hc
  exact (firstOf_foldl_first _ hc).2

/-! ## Every lease ends -/

/-- A locked row says since when. -/
def Db.Stamped (db : Db P) : Prop :=
  ∀ j r, db.jobs.lookup j = some r → r.lockedBy.isSome = true → r.lockedAt.isSome = true

section

variable {db db' : Db P} {cfg : Settings} {w : OwnerToken}

theorem Db.Stamped.update (h : db.Stamped) {p : JobRow P → Bool} {f : JobRow P → JobRow P}
    (hf : ∀ r, (f r).jobId = r.jobId)
    (hs : ∀ r, (r.lockedBy.isSome = true → r.lockedAt.isSome = true) →
      (f r).lockedBy.isSome = true → (f r).lockedAt.isSome = true) :
    (db.updateJobs p f hf).Stamped := by
  intro j r hr
  rw [lookup_updateJobs, Option.map_eq_some_iff] at hr
  obtain ⟨q, hq, rfl⟩ := hr
  split_ifs
  · exact hs q (h j q hq)
  · exact h j q hq

theorem Db.Stamped.delete (h : db.Stamped) (p : JobRow P → Bool) (dead : List (DeadLetterRow P)) :
    (⟨db.jobs.delete p, dead⟩ : Db P).Stamped := by
  intro j r hr
  rw [KeyedTable.lookup_delete, Option.filter_eq_some_iff] at hr
  exact h j r hr.1

theorem Db.Stamped.heartbeat (h : db.Stamped) {k : Uuid} {now n : ℕ}
    (hdb : heartbeatRow w k now db = (db', n)) : db'.Stamped := by
  cases hdb
  exact h.update _ fun _ _ _ => rfl

theorem Db.Stamped.claim (h : db.Stamped) {window now : ℕ} {skip : List Uuid}
    {row : Option (ClaimedRow P)} (hdb : claimRow w window now skip db = (db', row)) :
    db'.Stamped := by
  rcases claimRow_spec hdb with ⟨rfl, rfl⟩ | ⟨r, hr, -, rfl, rfl⟩
  · exact h
  · exact h.update _ fun _ _ _ => rfl

theorem Db.Stamped.apply (h : db.Stamped) {st : Statement P} {now : ℕ} {skip : List Uuid}
    {es : List Event} (hdb : st.apply cfg w now skip db = some (db', es)) : db'.Stamped := by
  cases st with
  | claim sentAt =>
      cases hdb
      exact h.claim rfl
  | delete job =>
      cases hdb
      exact h.delete _ _
  | fail job message =>
      simp only [Statement.apply, Option.map_eq_some_iff, Prod.mk.injEq] at hdb
      obtain ⟨⟨db₁, n⟩, hf, rfl, -⟩ := hdb
      unfold failRow at hf
      split_ifs at hf
      cases hf
      exact h.update _ fun _ _ hs => by cases hs
  | deadLetter job count message failedBody =>
      simp only [Statement.apply, Option.map_eq_some_iff, Prod.mk.injEq, deadLetterOwned_eq] at hdb
      obtain ⟨⟨db₁, owned⟩, hd, rfl, -⟩ := hdb
      split_ifs at hd <;> cases hd
      · exact h.delete _ _
      · exact h

end

variable {cfg : OwnerToken → Settings} {s s' : State P} {w : OwnerToken}

theorem Took.stamped {a : Action P} {es : List Event} (h : Took cfg s a s' es)
    (hs : s.db.Stamped) : s'.db.Stamped := by
  cases h with
  | @enqueue n db hn hdb =>
      simp only [enqueueOnConnection, Option.map_eq_some_iff] at hdb
      obtain ⟨t, ht, rfl⟩ := hdb
      intro j r hr
      have hlook := KeyedTable.lookup_insert ht j
      rw [show t.lookup j = some r from hr] at hlook
      split_ifs at hlook
      · cases hlook
        exact fun hlocked => by cases hlocked
      · exact hs j r hlook.symm
  | applyClaim hp ht hdb => exact hs.claim hdb
  | applyBeat hp ht hdb => exact hs.heartbeat hdb
  | finish hp ht hst hdb => exact hs.apply hdb
  | cleanup hp => exact hs.update _ fun _ _ hlocked => by cases hlocked
  | applyDropped hst ht hdb => exact hs.apply hdb
  | applyDroppedBeat hb ht hdb => exact hs.heartbeat hdb
  | _ => exact hs

theorem stamped_of_run {C : State P → Action P → Prop} {log : List Event}
    (h : QueueRun cfg C log s) : s.db.Stamped :=
  h.safe (I := fun s => s.db.Stamped) (by intro j r hr; cases hr)
    fun _ _ _ _ hi _ hs => (step_took hs).stamped hi

/-- There is a moment from which every row may be claimed, short of the `INTEGER` bound. -/
theorem claimable_eventually (rows : List (JobRow P)) (window : ℕ)
    (hstamped : ∀ r ∈ rows, r.lockedBy.isSome = true → r.lockedAt.isSome = true)
    (hcount : ∀ r ∈ rows, r.lockedBy.isSome = true → r.errorCount < i32Max) :
    ∃ T, ∀ now, T ≤ now → ∀ r ∈ rows, r.claimable now window = true := by
  induction rows with
  | nil => exact ⟨0, by simp⟩
  | cons q qs ih =>
      obtain ⟨T, hT⟩ := ih (fun r hr => hstamped r (List.mem_cons_of_mem _ hr))
        fun r hr => hcount r (List.mem_cons_of_mem _ hr)
      refine ⟨T + q.runAt + q.lockedAt.getD 0 + window + 1, fun now hnow r hr => ?_⟩
      rcases List.mem_cons.mp hr with rfl | hr
      · have hstamp := hstamped r (List.mem_cons_self ..)
        have hbound := hcount r (List.mem_cons_self ..)
        have hdue : r.runAt ≤ now := by omega
        cases hby : r.lockedBy with
        | none => simp [JobRow.claimable, hby, hdue]
        | some v =>
            rw [hby] at hstamp hbound
            obtain ⟨t, ht⟩ := Option.isSome_iff_exists.mp (hstamp rfl)
            have hlate : t + window < now := by
              rw [ht, Option.getD_some] at hnow
              omega
            simp [JobRow.claimable, hby, hdue, ht, hlate, hbound rfl]
      · exact hT now (by omega) r hr

/-! ## One job -/

/-- An expired lease with no attempt left. -/
def JobRow.exhausted (cfg : Settings) (r : JobRow P) : Bool :=
  r.lockedBy.isSome && cfg.maxRetries ≤ r.errorCount

/-- What a worker does with a job whose body returns `Ok`, if it still has an attempt. -/
def JobRow.drained (cfg : Settings) (w : OwnerToken) (r : JobRow P) : List Event :=
  let count := (r.claimedBy w 0).errorCount
  .claimed w r.jobId r.lockedBy count ::
    if r.exhausted cfg then [.deadLettered w r.jobId count false]
    else [.dispatched w r.jobId count, .returned w r.jobId true true, .deleted w r.jobId]

/-- Nobody but worker `w` acts. -/
def Alone (w : OwnerToken) (_ : State P) (a : Action P) : Prop :=
  a.worker = none ∨ a.worker = some w

/-- Nobody but worker `w` acts, and the body of a job returns its `verdict`. -/
structure Ruled (w : OwnerToken) (verdict : JobFromDB P → Option String) (s : State P)
    (a : Action P) : Prop where
  alone : Alone w s a
  verdict : ∀ error job, a = .bodyReturns w error → (s.workers w).phase.body? = some job →
    error = verdict job

/-- The table after the claim of job `j` and its end. -/
theorem rows_claimed_gone (db : Db P) (w : OwnerToken) (now : ℕ) (j : Uuid) :
    ((db.updateJobs (fun r => r.jobId == j) (JobRow.claimedBy w now)
      (JobRow.claimedBy_jobId w now)).jobs.delete (JobRow.ownedBy j w)).rows =
      db.jobs.rows.filter fun r => r.jobId ≠ j := by
  change ((db.jobs.rows.map _).filter _) = _
  induction db.jobs.rows with
  | nil => rfl
  | cons q qs ih =>
      by_cases hq : q.jobId = j
      · simpa [JobRow.ownedBy, JobRow.claimedBy, hq] using ih
      · simpa [JobRow.ownedBy, JobRow.claimedBy, hq] using ih

theorem owner_claimed {db : Db P} (w : OwnerToken) (now : ℕ) {r : JobRow P}
    (hr : db.jobs.lookup r.jobId = some r) :
    ((db.updateJobs (fun q => q.jobId == r.jobId) (JobRow.claimedBy w now)
      (JobRow.claimedBy_jobId w now)).jobs.lookup r.jobId).any (fun q => q.lockedBy == some w) =
      true := by
  rw [lookup_updateJobs, hr]
  simp [JobRow.claimedBy]

/-- A lease has time left when it starts. -/
theorem tracker_in_time (cfg : Settings) (c : ClaimedJob P) :
    c.claimSentAt < (c.tracker cfg).deadline := by
  obtain ⟨hpos, hwindow, -⟩ := JobWorkerConfig.validate_ok cfg.valid
  simp only [ClaimedJob.tracker, LeaseTracker.deadline]
  omega

@[simp] theorem State.setWorker_now (s : State P) (w : OwnerToken) (wk : Worker P) :
    (s.setWorker w wk).now = s.now := rfl

@[simp] theorem State.setDb_now (s : State P) (db : Db P) : (s.setDb db).now = s.now := rfl

/-- The state after worker `w` has claimed `r`. -/
def State.claiming (cfg : Settings) (s : State P) (w : OwnerToken) (r : JobRow P) : State P :=
  (s.setPhase w (.fetched (some ⟨⟨(r.claimedBy w (s.now / 1000)).toJob, r.lockedBy, r.errorCount⟩,
    s.now⟩))).setDb (claimRow w cfg.reclaimWindowMicros (s.now / 1000) [] s.db).1

variable {verdict : JobFromDB P → Option String}

/-- A step of the worker itself. -/
theorem ruled_snoc {log es : List Event} {s₁ s₂ : State P} {a : Action P}
    (h : StepRun.Run (step cfg) (Ruled w verdict) s log s₁) (hs : step cfg s₁ a = some (s₂, es))
    (hw : a.worker = some w) (hne : ∀ error, a ≠ .bodyReturns w error) :
    StepRun.Run (step cfg) (Ruled w verdict) s (log ++ es) s₂ :=
  .snoc h ⟨.inr hw, fun error _ ha _ => absurd ha (hne error)⟩ hs

/-- The claim of an idle worker. -/
theorem claim_runs (verdict : JobFromDB P → Option String)
    (hidle : (s.workers w).phase = .idle) {r : JobRow P}
    (hr : candidate (s.now / 1000) (cfg w).reclaimWindowMicros [] s.db.jobs = some r) :
    StepRun.Run (step cfg) (Ruled w verdict) s
      [.claimed w r.jobId r.lockedBy (r.claimedBy w 0).errorCount] (s.claiming (cfg w) w r) := by
  have hsend : step cfg s (.sendClaim w) = some (s.setPhase w (.fetching s.now), []) := by
    simp [step, State.sendClaim, hidle]
  have happly : step cfg (s.setPhase w (.fetching s.now)) (.applyClaim w (s.now / 1000) []) =
      some (s.claiming (cfg w) w r,
        [.claimed w r.jobId r.lockedBy (r.claimedBy w 0).errorCount]) := by
    simp [step, State.applyClaim, State.setPhase_eq, stampable, claimRow, hr, claimEvents,
      State.claiming, State.setWorker, JobRow.toJob, JobRow.claimedBy]
  exact ruled_snoc (ruled_snoc .start hsend rfl (by simp)) happly rfl (by simp)

/-- The claimed row as the worker gets it. -/
def State.claimOf (s : State P) (w : OwnerToken) (r : JobRow P) : ClaimedJob P :=
  ⟨⟨(r.claimedBy w (s.now / 1000)).toJob, r.lockedBy, r.errorCount⟩, s.now⟩

/-- An expired lease with no attempt left is dead-lettered inside the fetch. -/
theorem exhausted_runs {r : JobRow P} {s₁ : State P}
    (hphase : (s₁.workers w).phase = .fetched (some (s.claimOf w r)))
    (howner : (s₁.db.jobs.lookup r.jobId).any (fun q => q.lockedBy == some w) = true)
    (hex : r.exhausted (cfg w) = true) :
    ∃ s', StepRun.Run (step cfg) (Ruled w verdict) s₁
        [.deadLettered w r.jobId (r.claimedBy w 0).errorCount false] s' ∧
      (s'.workers w).phase = .idle ∧ s'.now = s₁.now ∧
      s'.db.jobs = s₁.db.jobs.delete (JobRow.ownedBy r.jobId w) := by
  rw [JobRow.exhausted, Bool.and_eq_true, decide_eq_true_eq] at hex
  obtain ⟨s₂, hs₂⟩ : ∃ s₂, s₂ = s₁.setWorker w
      { (s₁.workers w).reclaim r.jobId with phase := .expiring (s.claimOf w r) } := ⟨_, rfl⟩
  have hreceive : step cfg s₁ (.receiveClaim w) = some (s₂, []) := by
    simp [step, State.receiveClaim, hphase, State.claimOf, JobRow.toJob, JobRow.claimedBy, hex, hs₂]
  have hfinish : step cfg s₂ (.finish w (s₂.now / 1000) true) = some ((s₂.setPhase w .idle).setDb
      ⟨s₂.db.jobs.delete (JobRow.ownedBy r.jobId w), s₂.db.deadLetterJobs ++
        [(s.claimOf w r).job.deadLetter (r.claimedBy w 0).errorCount
          ((s.claimOf w r).job.lastErrorMessage.getD "Job lease expired") (s₂.now / 1000)]⟩,
      [.deadLettered w r.jobId (r.claimedBy w 0).errorCount false]) := by
    simp [step, State.finish, Phase.finalizing, Phase.statement, Statement.apply,
      deadLetterOwned_eq, State.claimOf, JobRow.toJob, JobRow.claimedBy, howner, hs₂]
  subst hs₂
  exact ⟨_, ruled_snoc (ruled_snoc .start hreceive rfl (by simp)) hfinish rfl (by simp),
    by simp [State.setPhase_eq], rfl, rfl⟩

/-- A job with an attempt left is dispatched, and its body returns. -/
theorem returned_runs (verdict : JobFromDB P → Option String) {r : JobRow P} {s₁ : State P}
    (hphase : (s₁.workers w).phase = .fetched (some (s.claimOf w r))) (hnow : s₁.now = s.now)
    (howner : (s₁.db.jobs.lookup r.jobId).any (fun q => q.lockedBy == some w) = true)
    (hex : r.exhausted (cfg w) = false) :
    ∃ s', StepRun.Run (step cfg) (Ruled w verdict) s₁
        [.dispatched w r.jobId (r.claimedBy w 0).errorCount,
          .returned w r.jobId (verdict (s.claimOf w r).job).isNone true] s' ∧
      (s'.workers w).phase = .returned (s.claimOf w r).job (verdict (s.claimOf w r).job) ∧
      s'.now = s₁.now ∧ s'.db = s₁.db := by
  have hintime : s₁.now < ((s.claimOf w r).tracker (cfg w)).deadline :=
    hnow ▸ tracker_in_time (cfg w) (s.claimOf w r)
  have hlim : ¬((s.claimOf w r).previousLockedBy.isSome ∧
      (cfg w).maxRetries ≤ (s.claimOf w r).previousErrorCount) := by
    simpa [JobRow.exhausted, State.claimOf] using hex
  obtain ⟨s₂, hs₂⟩ : ∃ s₂, s₂ = s₁.setWorker w { (s₁.workers w).reclaim r.jobId with
      phase := .running (s.claimOf w r).job ((s.claimOf w r).tracker (cfg w))
        ((s.claimOf w r).claimSentAt + (cfg w).config.heartbeatInterval) none } := ⟨_, rfl⟩
  have hreceive : step cfg s₁ (.receiveClaim w) =
      some (s₂, [.dispatched w r.jobId (r.claimedBy w 0).errorCount]) := by
    simp only [step, State.receiveClaim, hphase]
    rw [if_neg hlim, if_neg (Nat.not_le.mpr hintime), hs₂]
    rfl
  have hphase₂ : (s₂.workers w).phase = .running (s.claimOf w r).job
      ((s.claimOf w r).tracker (cfg w))
      ((s.claimOf w r).claimSentAt + (cfg w).config.heartbeatInterval) none := by
    rw [hs₂, State.setWorker_self]
  obtain ⟨s₃, hs₃⟩ : ∃ s₃, s₃ = s₂.setWorker w ((s₂.workers w).leave
      (.returned (s.claimOf w r).job (verdict (s.claimOf w r).job))) := ⟨_, rfl⟩
  have hbody : step cfg s₂ (.bodyReturns w (verdict (s.claimOf w r).job)) =
      some (s₃, [.returned w r.jobId (verdict (s.claimOf w r).job).isNone true]) := by
    have howns : s₂.owns w r.jobId = true := by
      rw [hs₂]
      exact howner
    have hreturn : step cfg s₂ (.bodyReturns w (verdict (s.claimOf w r).job)) = some (s₃,
        [.returned w r.jobId (verdict (s.claimOf w r).job).isNone (s₂.owns w r.jobId)]) := by
      simp only [step, State.bodyReturns, hphase₂, hs₃]
      rfl
    rwa [howns] at hreturn
  have hruled : Ruled w verdict s₂ (.bodyReturns w (verdict (s.claimOf w r).job)) := by
    refine ⟨.inr rfl, fun error job ha hjob => ?_⟩
    rw [hphase₂] at hjob
    cases ha
    cases hjob
    rfl
  refine ⟨s₃, .snoc (ruled_snoc .start hreceive rfl (by simp)) hruled hbody, ?_, ?_, ?_⟩
  · rw [hs₃, State.setWorker_self]
    rfl
  · rw [hs₃, hs₂]
    rfl
  · rw [hs₃, hs₂]
    rfl

/-- The row of a body that returned `Ok` is deleted. -/
theorem deleted_runs {job : JobFromDB P} {s₁ : State P}
    (hphase : (s₁.workers w).phase = .succeeded job)
    (howner : (s₁.db.jobs.lookup job.jobId).any (fun q => q.lockedBy == some w) = true) :
    ∃ s', StepRun.Run (step cfg) (Ruled w verdict) s₁ [.deleted w job.jobId] s' ∧
      (s'.workers w).phase = .idle ∧ s'.now = s₁.now ∧
      s'.db.jobs = s₁.db.jobs.delete (JobRow.ownedBy job.jobId w) := by
  have hfinish : step cfg s₁ (.finish w (s₁.now / 1000) true) = some ((s₁.setPhase w .idle).setDb
      { s₁.db with jobs := s₁.db.jobs.delete (JobRow.ownedBy job.jobId w) },
      [.deleted w job.jobId]) := by
    simp [step, State.finish, hphase, Phase.finalizing, Phase.statement, Statement.apply,
      deleteRow, affected_owned, howner]
  exact ⟨_, ruled_snoc .start hfinish rfl (by simp), by simp [State.setPhase_eq], rfl, rfl⟩

/-- An idle worker takes a job that none comes before, and ends it. -/
theorem drain_one (hidle : (s.workers w).phase = .idle) (hne : s.db.jobs.rows ≠ [])
    (hripe : ∀ r ∈ s.db.jobs.rows,
      r.claimable (s.now / 1000) (cfg w).reclaimWindowMicros = true) :
    ∃ r ∈ s.db.jobs.rows, (∀ q ∈ s.db.jobs.rows, q.before r = false) ∧
      ∃ s', StepRun.Run (step cfg) (Ruled w fun _ => none) s (r.drained (cfg w) w) s' ∧
        (s'.workers w).phase = .idle ∧ s'.now = s.now ∧
        s'.db.jobs.rows = s.db.jobs.rows.filter fun q => q.jobId ≠ r.jobId := by
  obtain ⟨r, hmem, hr, hfirst⟩ := candidate_first hne hripe
  refine ⟨r, hmem, hfirst, ?_⟩
  have hclaim := claim_runs (fun _ => none) hidle hr
  have hphase : ((s.claiming (cfg w) w r).workers w).phase = .fetched (some (s.claimOf w r)) := by
    simp [State.claiming, State.claimOf, State.setPhase_eq]
  have hdb : (s.claiming (cfg w) w r).db = s.db.updateJobs (fun q => q.jobId == r.jobId)
      (JobRow.claimedBy w (s.now / 1000)) (JobRow.claimedBy_jobId w (s.now / 1000)) := by
    simp [State.claiming, claimRow, hr]
  have howner := owner_claimed w (s.now / 1000) (KeyedTable.lookup_of_mem hmem)
  have hgone := rows_claimed_gone s.db w (s.now / 1000) r.jobId
  rw [← hdb] at howner hgone
  cases hex : r.exhausted (cfg w) with
  | true =>
      obtain ⟨s', hrun, hidle', hnow', hjobs⟩ := exhausted_runs hphase howner hex
      refine ⟨s', ?_, hidle', hnow', by rw [hjobs, hgone]⟩
      simpa [JobRow.drained, hex] using hclaim.trans hrun
  | false =>
      obtain ⟨s₁, hreturn, hphase₁, hnow₁, hdb₁⟩ :=
        returned_runs (fun _ => none) hphase rfl howner hex
      rw [← hdb₁] at howner hgone
      obtain ⟨s', hrun, hidle', hnow', hjobs⟩ := deleted_runs hphase₁ howner
      refine ⟨s', ?_, hidle', hnow'.trans hnow₁, ?_⟩
      · simpa [JobRow.drained, hex, State.claimOf, JobRow.toJob] using
          (hclaim.trans hreturn).trans hrun
      · rw [hjobs]
        exact hgone

/-! ## The whole table -/

/-- What a worker has to do with a table where every row may be claimed. -/
theorem drain_ripe (n : ℕ) (hn : s.db.jobs.rows.length = n) (hidle : (s.workers w).phase = .idle)
    (hripe : ∀ r ∈ s.db.jobs.rows,
      r.claimable (s.now / 1000) (cfg w).reclaimWindowMicros = true) :
    ∃ (order : List (JobRow P)) (s' : State P), order.Perm s.db.jobs.rows ∧
      order.Pairwise (fun a b => b.before a = false) ∧
      StepRun.Run (step cfg) (Alone w) s (order.flatMap (JobRow.drained (cfg w) w)) s' ∧
      s'.db.jobs.rows = [] := by
  induction n generalizing s with
  | zero =>
      have hempty := List.length_eq_zero_iff.mp hn
      exact ⟨[], s, by simp [hempty], .nil, .start, hempty⟩
  | succ n ih =>
      have hne : s.db.jobs.rows ≠ [] := by
        rintro hempty
        simp [hempty] at hn
      obtain ⟨r, hmem, hfirst, s₁, hrun, hidle₁, hnow₁, hrows₁⟩ := drain_one hidle hne hripe
      have hperm := KeyedTable.rows_perm hmem
      have hlength : s₁.db.jobs.rows.length = n := by
        have hlen := hperm.length_eq
        rw [List.length_cons, ← hrows₁] at hlen
        omega
      have hripe₁ : ∀ q ∈ s₁.db.jobs.rows,
          q.claimable (s₁.now / 1000) (cfg w).reclaimWindowMicros = true := by
        intro q hq
        rw [hrows₁] at hq
        rw [hnow₁]
        exact hripe q (List.mem_of_mem_filter hq)
      obtain ⟨order, s', horder, hsorted, hrun', hend⟩ := ih hlength hidle₁ hripe₁
      refine ⟨r :: order, s', ?_, ?_, ?_, hend⟩
      · exact ((horder.trans (hrows₁ ▸ .refl _)).cons r).trans hperm
      · refine List.pairwise_cons.mpr ⟨fun q hq => hfirst q ?_, hsorted⟩
        have hq := horder.mem_iff.mp hq
        rw [hrows₁] at hq
        exact List.mem_of_mem_filter hq
      · rw [List.flatMap_cons]
        exact (hrun.mono fun _ _ h => h.alone).trans hrun'

theorem rows_stamped {C : State P → Action P → Prop} {log : List Event}
    (h : QueueRun cfg C log s) :
    ∀ r ∈ s.db.jobs.rows, r.lockedBy.isSome = true → r.lockedAt.isSome = true :=
  fun r hr => stamped_of_run h r.jobId r (KeyedTable.lookup_of_mem hr)

/-- From every state of every run, one idle worker empties the queue if the others stand
still and the bodies return `Ok`: every job is dispatched and deleted, or dead-lettered if
its lease expired with no attempt left, in the order of the claim. No row is stuck unless
its lease has expired as often as an `INTEGER` can count. -/
theorem queue_drains {C : State P → Action P → Prop} {log : List Event} (h : QueueRun cfg C log s)
    (hidle : (s.workers w).phase = .idle)
    (hcount : ∀ r ∈ s.db.jobs.rows, r.lockedBy.isSome = true → r.errorCount < i32Max) :
    ∃ (order : List (JobRow P)) (s' : State P), order.Perm s.db.jobs.rows ∧
      order.Pairwise (fun a b => b.before a = false) ∧
      StepRun.Run (step cfg) (Alone w) s (order.flatMap (JobRow.drained (cfg w) w)) s' ∧
      s'.db.jobs.rows = [] := by
  -- time passes until the last lease has expired, and then the worker takes one job after another
  obtain ⟨T, hT⟩ :=
    claimable_eventually s.db.jobs.rows (cfg w).reclaimWindowMicros (rows_stamped h) hcount
  have hlate : T ≤ (s.now + 1000 * T) / 1000 := by omega
  obtain ⟨order, s', horder, hsorted, hrun, hend⟩ :=
    drain_ripe (s := { s with now := s.now + 1000 * T }) _ rfl hidle (hT _ hlate)
  have htick : step cfg s (.tick (1000 * T)) =
      some ({ s with now := s.now + 1000 * T }, []) := rfl
  have hwait : StepRun.Run (step cfg) (Alone w) s [] { s with now := s.now + 1000 * T } :=
    .snoc .start (.inl rfl) htick
  exact ⟨order, s', horder, hsorted, hwait.trans hrun, hend⟩

/-- Worker 1 dies with job 7, and job 8 waits. -/
def abandonedQueue : List (Action Unit) :=
  [.enqueue ⟨7, "Job", (), none, "", 0⟩, .sendClaim 1, .applyClaim 1 0 [], .receiveClaim 1, .die 1,
    .enqueue ⟨8, "Job", (), some 3, "", 0⟩]

theorem queue_drains_abandoned : ∃ (s : State Unit) (order : List (JobRow Unit)) (s' : State Unit),
    s.db.jobs.rows.length = 2 ∧ s.owns 1 7 = true ∧ order.Perm s.db.jobs.rows ∧
      StepRun.Run (step fun _ => .default 3 (by decide)) (Alone 2) s
        (order.flatMap (JobRow.drained (.default 3 (by decide)) 2)) s' ∧ s'.db.jobs.rows = [] := by
  obtain ⟨log, s, hrun, hend⟩ := StepRun.exists_free_run
    (step (P := Unit) fun _ => .default 3 (by decide)) .init abandonedQueue
    (fun _ s => (s.workers 2).phase == .idle && s.owns 1 7 && s.db.jobs.rows.length == 2 &&
      s.db.jobs.rows.all fun r => r.errorCount < 3) (by decide)
  simp only [Bool.and_eq_true, beq_iff_eq, List.all_eq_true, decide_eq_true_eq] at hend
  obtain ⟨⟨⟨hidle, hown⟩, htwo⟩, hfew⟩ := hend
  have hcount : ∀ r ∈ s.db.jobs.rows, r.lockedBy.isSome = true → r.errorCount < i32Max :=
    fun r hr _ => (hfew r hr).trans (by decide)
  obtain ⟨order, s', hperm, -, hdrain, hempty⟩ := queue_drains hrun hidle hcount
  exact ⟨s, order, s', htwo, hown, hperm, hdrain, hempty⟩

end Cja.Jobs
