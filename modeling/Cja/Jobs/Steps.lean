import Cja.Jobs.Worker

/-!
# What one step of the queue can do

`Took` lists the outcomes of a step, one constructor for each, with the guard
and the next state. An invariant is a case analysis over these constructors;
no proof opens `step` again.
-/
namespace Cja.Jobs

variable {P : Type}

inductive Took (cfg : OwnerToken → Settings) (s : State P) :
    Action P → State P → List Event → Prop
  | tick (elapsed : ℕ) : Took cfg s (.tick elapsed) { s with now := s.now + elapsed } []
  | enqueue {n : NewJob P} {db : Db P} (hn : n.jobId ∉ s.issued)
      (hdb : enqueueOnConnection n s.db = some db) :
      Took cfg s (.enqueue n) { s with db := db, issued := n.jobId :: s.issued }
        [.inserted n.jobId]
  | sendClaim {w : OwnerToken} (hp : (s.workers w).phase = .idle) :
      Took cfg s (.sendClaim w) (s.setPhase w (.fetching s.now)) []
  | applyClaim {w : OwnerToken} {now sentAt : ℕ} {skip : List Uuid} {db : Db P}
      {row : Option (ClaimedRow P)} (hp : (s.workers w).phase = .fetching sentAt)
      (ht : stampable sentAt now s.now = true)
      (hdb : claimRow w (cfg w).reclaimWindowMicros now skip s.db = (db, row)) :
      Took cfg s (.applyClaim w now skip)
        ((s.setPhase w (.fetched (row.map fun c => ⟨c, sentAt⟩))).setDb db) (claimEvents w row)
  | claimFails {w : OwnerToken} {sentAt : ℕ} (hp : (s.workers w).phase = .fetching sentAt) :
      Took cfg s (.claimFails w) (s.setPhase w .idle) []
  | receiveNothing {w : OwnerToken} (hp : (s.workers w).phase = .fetched none) :
      Took cfg s (.receiveClaim w) (s.setPhase w .idle) []
  | receiveExpired {w : OwnerToken} {c : ClaimedJob P}
      (hp : (s.workers w).phase = .fetched (some c)) (hprev : c.previousLockedBy.isSome = true)
      (hmax : (cfg w).maxRetries ≤ c.previousErrorCount) :
      Took cfg s (.receiveClaim w)
        (s.setWorker w { (s.workers w).reclaim c.job.jobId with phase := .expiring c }) []
  | receiveLate {w : OwnerToken} {c : ClaimedJob P}
      (hp : (s.workers w).phase = .fetched (some c))
      (hlim : c.previousLockedBy.isSome = true → c.previousErrorCount < (cfg w).maxRetries)
      (hlate : (c.tracker (cfg w)).deadline ≤ s.now) :
      Took cfg s (.receiveClaim w)
        (s.setWorker w { ((s.workers w).reclaim c.job.jobId).abandon c.job.jobId with
          phase := .idle }) [.abandoned w c.job.jobId]
  | dispatch {w : OwnerToken} {c : ClaimedJob P}
      (hp : (s.workers w).phase = .fetched (some c))
      (hlim : c.previousLockedBy.isSome = true → c.previousErrorCount < (cfg w).maxRetries)
      (hintime : s.now < (c.tracker (cfg w)).deadline) :
      Took cfg s (.receiveClaim w)
        (s.setWorker w { (s.workers w).reclaim c.job.jobId with
          phase := .running c.job (c.tracker (cfg w))
            (c.claimSentAt + (cfg w).config.heartbeatInterval) none })
        [.dispatched w c.job.jobId c.job.errorCount]
  | claimLost {w : OwnerToken} {row : Option (ClaimedJob P)}
      (hp : (s.workers w).phase = .fetched row) :
      Took cfg s (.claimLost w) (s.setPhase w .idle) []
  | sendBeat {w : OwnerToken} {job : JobFromDB P} {tracker : LeaseTracker} {nextTick : ℕ}
      (hp : (s.workers w).phase = .running job tracker nextTick none) (ht : nextTick ≤ s.now) :
      Took cfg s (.sendBeat w) (s.setPhase w (.running job tracker
        (s.now + tracker.heartbeatInterval) (some ⟨s.now, none⟩))) []
  | applyBeat {w : OwnerToken} {job : JobFromDB P} {tracker : LeaseTracker}
      {nextTick now sentAt n : ℕ} {db : Db P}
      (hp : (s.workers w).phase = .running job tracker nextTick (some ⟨sentAt, none⟩))
      (ht : stampable sentAt now s.now = true)
      (hdb : heartbeatRow w job.jobId now s.db = (db, n)) :
      Took cfg s (.applyBeat w now)
        ((s.setPhase w (.running job tracker nextTick (some ⟨sentAt, some (n == 1)⟩))).setDb db) []
  | receiveBeat {w : OwnerToken} {job : JobFromDB P} {tracker : LeaseTracker}
      {nextTick sentAt : ℕ}
      (hp : (s.workers w).phase = .running job tracker nextTick (some ⟨sentAt, some true⟩)) :
      Took cfg s (.receiveBeat w)
        (s.setPhase w (.running job { tracker with lastRefreshSent := sentAt } nextTick none)) []
  | beatRefused {w : OwnerToken} {job : JobFromDB P} {tracker : LeaseTracker}
      {nextTick sentAt : ℕ}
      (hp : (s.workers w).phase = .running job tracker nextTick (some ⟨sentAt, some false⟩)) :
      Took cfg s (.receiveBeat w) (s.setPhase w .idle) []
  | loseBeat {w : OwnerToken} {job : JobFromDB P} {tracker : LeaseTracker} {nextTick : ℕ}
      {beat : Beat} (hp : (s.workers w).phase = .running job tracker nextTick (some beat)) :
      Took cfg s (.loseBeat w)
        (s.setWorker w ((s.workers w).leave (.running job tracker nextTick none))) []
  | bodyReturns {w : OwnerToken} {error : Option String} {job : JobFromDB P}
      {tracker : LeaseTracker} {nextTick : ℕ} {beat : Option Beat}
      (hp : (s.workers w).phase = .running job tracker nextTick beat) :
      Took cfg s (.bodyReturns w error)
        (s.setWorker w ((s.workers w).leave (.returned job error)))
        [.returned w job.jobId error.isNone (s.owns w job.jobId)]
  | watchdog {w : OwnerToken} {job : JobFromDB P} {tracker : LeaseTracker} {nextTick : ℕ}
      {beat : Option Beat} (hp : (s.workers w).phase = .running job tracker nextTick beat)
      (ht : tracker.deadline ≤ s.now) :
      Took cfg s (.watchdog w)
        (s.setWorker w (((s.workers w).leave .idle).abandon job.jobId)) [.abandoned w job.jobId]
  | finish {w : OwnerToken} {now : ℕ} {st : Statement P} {db : Db P} {es : List Event}
      (hp : (s.workers w).phase.finalizing = true) (ht : now ≤ s.now / 1000)
      (hst : (s.workers w).phase.statement (cfg w) = some st)
      (hdb : st.apply (cfg w) w now [] s.db = some (db, es)) :
      Took cfg s (.finish w now true) ((s.setPhase w .idle).setDb db) es
  | finishFails {w : OwnerToken} {now : ℕ} (hp : (s.workers w).phase.finalizing = true) :
      Took cfg s (.finish w now false) (s.setPhase w .idle) []
  | shutdown {w : OwnerToken} (hp : (s.workers w).phase.live = true) :
      Took cfg s (.shutdown w) (s.setWorker w { (s.workers w).leave .cleaning with
        dropped := (s.workers w).inFlight (cfg w) }) []
  | die {w : OwnerToken} (hp : ∀ released, (s.workers w).phase ≠ .exited released) :
      Took cfg s (.die w) (s.setWorker w { (s.workers w).leave (.exited false) with
        dropped := (s.workers w).inFlight (cfg w) }) []
  | cleanup {w : OwnerToken} {answered : Bool} (hp : (s.workers w).phase = .cleaning) :
      Took cfg s (.cleanup w true answered)
        ((s.setPhase w (.exited answered)).setDb
          (cleanupWorkerLocks w (s.workers w).abandoned s.db))
        (releasedEvents w (s.workers w).abandoned s.db)
  | cleanupFails {w : OwnerToken} {answered : Bool} (hp : (s.workers w).phase = .cleaning) :
      Took cfg s (.cleanup w false answered) (s.setPhase w (.exited false)) []
  | applyDropped {w : OwnerToken} {now : ℕ} {skip : List Uuid} {st : Statement P} {db : Db P}
      {es : List Event} (hst : (s.workers w).dropped = some st)
      (ht : stampable st.sentAt now s.now = true)
      (hdb : st.apply (cfg w) w now skip s.db = some (db, es)) :
      Took cfg s (.applyDropped w now skip)
        ((s.setWorker w { s.workers w with dropped := none }).setDb db) es
  | applyDroppedBeat {w : OwnerToken} {i now n : ℕ} {b : Uuid × ℕ} {db : Db P}
      (hb : (s.workers w).beats[i]? = some b) (ht : stampable b.2 now s.now = true)
      (hdb : heartbeatRow w b.1 now s.db = (db, n)) :
      Took cfg s (.applyDroppedBeat w i now)
        ((s.setWorker w { s.workers w with beats := (s.workers w).beats.eraseIdx i }).setDb db) []

variable {cfg : OwnerToken → Settings} {s s' : State P} {a : Action P} {es : List Event}

theorem receiveClaim_took {w : OwnerToken} (h : s.receiveClaim (cfg w) w = some (s', es)) :
    Took cfg s (.receiveClaim w) s' es := by
  unfold State.receiveClaim at h
  split at h
  · case _ hp => cases h; exact .receiveNothing hp
  · case _ c hp =>
      simp only at h
      split_ifs at h with hlim hlate
      · cases h; exact .receiveExpired hp hlim.1 hlim.2
      · cases h; exact .receiveLate hp (by simpa using hlim) hlate
      · cases h; exact .dispatch hp (by simpa using hlim) (Nat.lt_of_not_le hlate)
  · cases h

theorem beat_took {w : OwnerToken} :
    (s.sendBeat w = some (s', es) → Took cfg s (.sendBeat w) s' es) ∧
    (∀ now, s.applyBeat w now = some (s', es) → Took cfg s (.applyBeat w now) s' es) ∧
    (s.receiveBeat w = some (s', es) → Took cfg s (.receiveBeat w) s' es) ∧
    (s.loseBeat w = some (s', es) → Took cfg s (.loseBeat w) s' es) := by
  refine ⟨fun h => ?_, fun now h => ?_, fun h => ?_, fun h => ?_⟩
  · unfold State.sendBeat at h
    split at h
    · case _ hp => split_ifs at h with ht; cases h; exact .sendBeat hp ht
    · cases h
  · unfold State.applyBeat at h
    split at h
    · case _ hp => split_ifs at h with ht; cases h; exact .applyBeat hp ht rfl
    · cases h
  · unfold State.receiveBeat at h
    split at h
    · case _ hp => cases h; exact .receiveBeat hp
    · case _ hp => cases h; exact .beatRefused hp
    · cases h
  · unfold State.loseBeat at h
    split at h
    · case _ hp => cases h; exact .loseBeat hp
    · cases h

theorem finish_took {w : OwnerToken} {now : ℕ} {applied : Bool}
    (h : s.finish (cfg w) w now applied = some (s', es)) :
    Took cfg s (.finish w now applied) s' es := by
  unfold State.finish at h
  cases applied with
  | false =>
      simp only [Bool.false_eq_true, if_false] at h
      split_ifs at h with hp
      cases h; exact .finishFails hp
  | true =>
      simp only [if_true] at h
      split_ifs at h with hp ht
      simp only [Option.bind_eq_some_iff, Option.map_eq_some_iff, Prod.mk.injEq] at h
      obtain ⟨st, hst, ⟨db, fs⟩, hdb, rfl, rfl⟩ := h
      exact .finish hp ht hst hdb

theorem dropped_took {w : OwnerToken} {now : ℕ} {skip : List Uuid}
    (h : s.applyDropped (cfg w) w now skip = some (s', es)) :
    Took cfg s (.applyDropped w now skip) s' es := by
  unfold State.applyDropped at h
  rw [Option.bind_eq_some_iff] at h
  obtain ⟨st, hst, h⟩ := h
  split_ifs at h with ht
  simp only [Option.map_eq_some_iff, Prod.mk.injEq] at h
  obtain ⟨⟨db, fs⟩, hdb, rfl, rfl⟩ := h
  exact .applyDropped hst ht hdb

theorem step_took (h : step cfg s a = some (s', es)) : Took cfg s a s' es := by
  cases a with
  | tick elapsed => cases h; exact .tick elapsed
  | enqueue n =>
      simp only [step, State.enqueue] at h
      split_ifs at h with hn
      simp only [Option.map_eq_some_iff, Prod.mk.injEq] at h
      obtain ⟨db, hdb, rfl, rfl⟩ := h
      exact .enqueue hn hdb
  | sendClaim w =>
      simp only [step, State.sendClaim] at h
      split at h
      · case _ hp => cases h; exact .sendClaim hp
      · cases h
  | applyClaim w now skip =>
      simp only [step, State.applyClaim] at h
      split at h
      · case _ hp => split_ifs at h with ht; cases h; exact .applyClaim hp ht rfl
      · cases h
  | claimFails w =>
      simp only [step, State.claimFails] at h
      split at h
      · case _ hp => cases h; exact .claimFails hp
      · cases h
  | receiveClaim w => exact receiveClaim_took h
  | claimLost w =>
      simp only [step, State.claimLost] at h
      split at h
      · case _ hp => cases h; exact .claimLost hp
      · cases h
  | sendBeat w => exact beat_took.1 h
  | applyBeat w now => exact beat_took.2.1 now h
  | receiveBeat w => exact beat_took.2.2.1 h
  | loseBeat w => exact beat_took.2.2.2 h
  | bodyReturns w error =>
      simp only [step, State.bodyReturns] at h
      split at h
      · case _ hp => cases h; exact .bodyReturns hp
      · cases h
  | watchdog w =>
      simp only [step, State.watchdog] at h
      split at h
      · case _ hp => split_ifs at h with ht; cases h; exact .watchdog hp ht
      · cases h
  | finish w now applied => exact finish_took h
  | shutdown w =>
      simp only [step, State.shutdown] at h
      split_ifs at h with hp
      cases h; exact .shutdown hp
  | die w =>
      simp only [step, State.die] at h
      split at h
      · cases h
      · case _ hp => cases h; exact .die hp
  | cleanup w applied answered =>
      simp only [step, State.cleanup] at h
      split at h
      · case _ hp =>
          split_ifs at h with happ
          · cases h; subst happ; exact .cleanup hp
          · cases h; rw [Bool.not_eq_true] at happ; subst happ; exact .cleanupFails hp
      · cases h
  | applyDropped w now skip => exact dropped_took h
  | applyDroppedBeat w i now =>
      simp only [step, State.applyDroppedBeat, Option.bind_eq_some_iff] at h
      obtain ⟨b, hb, h⟩ := h
      split_ifs at h with ht
      cases h
      exact .applyDroppedBeat hb ht rfl

/-! ## Reading a state after an update -/

@[simp] theorem State.setWorker_self (s : State P) (w : OwnerToken) (wk : Worker P) :
    (s.setWorker w wk).workers w = wk := Function.update_self ..

theorem State.setWorker_other (s : State P) {w v : OwnerToken} (wk : Worker P) (h : v ≠ w) :
    (s.setWorker w wk).workers v = s.workers v := Function.update_of_ne h _ _

@[simp] theorem State.setWorker_db (s : State P) (w : OwnerToken) (wk : Worker P) :
    (s.setWorker w wk).db = s.db := rfl

@[simp] theorem State.setDb_workers (s : State P) (db : Db P) :
    (s.setDb db).workers = s.workers := rfl

@[simp] theorem State.setDb_db (s : State P) (db : Db P) : (s.setDb db).db = db := rfl

@[simp] theorem Worker.leave_phase (wk : Worker P) (phase : Phase P) :
    (wk.leave phase).phase = phase := rfl

@[simp] theorem Worker.leave_dropped (wk : Worker P) (phase : Phase P) :
    (wk.leave phase).dropped = wk.dropped := rfl

theorem State.setPhase_eq (s : State P) (w : OwnerToken) (phase : Phase P) :
    s.setPhase w phase = s.setWorker w { s.workers w with phase := phase } := rfl

/-- The worker a step is about. -/
def Action.worker : Action P → Option OwnerToken
  | .tick _ | .enqueue _ => none
  | .sendClaim w | .applyClaim w _ _ | .claimFails w | .receiveClaim w | .claimLost w
  | .sendBeat w | .applyBeat w _ | .receiveBeat w | .loseBeat w | .bodyReturns w _ | .watchdog w
  | .finish w _ _ | .shutdown w | .die w | .cleanup w _ _ | .applyDropped w _ _
  | .applyDroppedBeat w _ _ => some w

/-- The steps that hand a claim to its worker. -/
def Action.isApplyClaim : Action P → Bool
  | .applyClaim .. => true
  | _ => false

/-- A step changes one worker at most. -/
theorem Took.workers_other (h : Took cfg s a s' es) {w : OwnerToken} (hw : a.worker ≠ some w) :
    s'.workers w = s.workers w := by
  have hne : ∀ {v : OwnerToken}, some v ≠ some w → w ≠ v := fun h he => h (congrArg some he.symm)
  cases h <;> first | rfl | exact Function.update_of_ne (hne hw) _ _

end Cja.Jobs
