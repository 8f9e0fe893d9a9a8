import Cja.Jobs.Lease

/-!
# What a graceful exit leaves behind

A worker that returned from `job_worker` with its locks released owns no row
outside its abandoned set, provided that none of its claims was still on the
way to the database when the release was applied. The worker does not wait for
a claim it dropped, so a claim can arrive behind the release.
-/
namespace Cja.Jobs

variable {P : Type}

/-- `job_worker` returned `Ok`. -/
def State.ExitedCleanly (s : State P) (w : OwnerToken) : Prop :=
  (s.workers w).phase = .exited true

/-- No row is left with the worker's token, the abandoned ones apart. -/
def State.Released (s : State P) (w : OwnerToken) : Prop :=
  ∀ r ∈ s.db.jobs.rows, r.lockedBy = some w → r.jobId ∈ (s.workers w).abandoned

def Worker.claimInFlight (wk : Worker P) : Bool := wk.dropped.any Statement.isClaim

/-- When the release of worker `w` is applied, none of its claims is in flight. -/
def State.releasesLast (w : OwnerToken) (s : State P) : Action P → Bool
  | .cleanup v applied _ => v != w || !applied || !(s.workers v).claimInFlight
  | _ => true

theorem State.released_iff {s : State P} {w : OwnerToken} :
    s.Released w ↔ ∀ j, s.db.ownerOf j = some w → j ∈ (s.workers w).abandoned := by
  constructor
  · intro h j hj
    obtain ⟨r, hr, hw⟩ := Db.ownerOf_eq_some.mp hj
    have := h r (KeyedTable.mem_of_lookup hr) hw
    rwa [KeyedTable.key_of_lookup hr] at this
  · intro h r hr hw
    exact h r.jobId (by rw [Db.ownerOf_of_mem hr, hw])

/-- The release itself. -/
theorem cleanup_ownerOf {w : OwnerToken} {abandoned : List Uuid} {db : Db P} {j : Uuid}
    (h : (cleanupWorkerLocks w abandoned db).ownerOf j = some w) : j ∈ abandoned := by
  obtain ⟨r', hr', hw⟩ := Db.ownerOf_eq_some.mp h
  rw [cleanupWorkerLocks, lookup_updateJobs, Option.map_eq_some_iff] at hr'
  obtain ⟨r, hr, rfl⟩ := hr'
  by_contra hj
  have hkey := KeyedTable.key_of_lookup hr
  split at hw
  · cases hw
  · case isFalse hrel => exact hrel (by simp [JobRow.releasable, hw, hkey, hj])

/-- A worker gone through the shutdown path: nothing it owns, nothing that may
still give it a row. -/
structure State.Gone (s : State P) (w : OwnerToken) : Prop where
  released : s.Released w
  noClaim : (s.workers w).claimInFlight = false

/-- The owner side of one step: a row comes to `w` only by a claim of `w`. -/
theorem Took.ownerOf {cfg : OwnerToken → Settings} {s s' : State P} {a : Action P}
    {es : List Event} (h : Took cfg s a s' es) {w : OwnerToken} {j : Uuid}
    (hw : s'.db.ownerOf j = some w) :
    s.db.ownerOf j = some w ∨ (∃ sentAt, (s.workers w).phase = .fetching sentAt) ∨
      (s.workers w).claimInFlight = true := by
  cases h with
  | enqueue hn hdb => exact .inl ((enqueue_keeps hdb).of_some hw)
  | @applyClaim v now sentAt skip db row hp ht hdb =>
      rcases claim_ownerOf hdb j with ⟨he, -⟩ | ⟨hv, -⟩
      · exact .inl (he ▸ hw)
      · obtain rfl : v = w := by rw [State.setDb_db, hv] at hw; simpa using hw
        exact .inr (.inl ⟨sentAt, hp⟩)
  | applyBeat hp ht hdb => exact .inl ((heartbeat_keeps hdb).of_some hw)
  | @finish v now st db es hp ht hst hdb =>
      exact .inl ((apply_keeps (Phase.statement_not_claim hp hst) hdb).of_some hw)
  | cleanup hp => exact .inl ((cleanup_keeps _ _ _).of_some hw)
  | @applyDropped v now skip st db es hst ht hdb =>
      cases hclaim : st.isClaim with
      | false => exact .inl ((apply_keeps hclaim hdb).of_some hw)
      | true =>
          cases st with
          | claim sentAt =>
              cases hdb
              rcases claim_ownerOf (P := P) rfl j with ⟨he, -⟩ | ⟨hv, -⟩
              · exact .inl (he.symm.trans hw)
              · obtain rfl : v = w := by simpa using hv.symm.trans hw
                exact .inr (.inr (by rw [Worker.claimInFlight, hst]; rfl))
          | _ => cases hclaim
  | applyDroppedBeat hb ht hdb => exact .inl ((heartbeat_keeps hdb).of_some hw)
  | _ => exact .inl hw

/-- A worker stays gone, and it is gone by its release. -/
theorem Took.exitedCleanly {cfg : OwnerToken → Settings} {s s' : State P} {a : Action P}
    {es : List Event} (h : Took cfg s a s' es) {w : OwnerToken} (hw : s'.ExitedCleanly w) :
    (s.ExitedCleanly w ∧ (s'.workers w).abandoned = (s.workers w).abandoned ∧
      ∀ st, (s'.workers w).dropped = some st → (s.workers w).dropped = some st) ∨
    a = .cleanup w true true ∧ (s'.workers w).dropped = (s.workers w).dropped ∧
      (s'.workers w).abandoned = (s.workers w).abandoned ∧
      s'.db = cleanupWorkerLocks w (s.workers w).abandoned s.db := by
  by_cases hv : a.worker = some w
  swap
  · left
    rw [State.ExitedCleanly, h.workers_other hv] at hw
    rw [h.workers_other hv]
    exact ⟨hw, rfl, fun _ => id⟩
  cases h with
  | tick => cases hv
  | enqueue => cases hv
  | @cleanup v answered hp =>
      obtain rfl : v = w := by simpa [Action.worker] using hv
      rw [State.ExitedCleanly, State.setDb_workers, State.setPhase_eq, State.setWorker_self] at hw
      obtain rfl : answered = true := by simpa using hw
      right
      simp [State.setPhase_eq]
  | @applyDropped v now skip st db es hst ht hdb =>
      obtain rfl : v = w := by simpa [Action.worker] using hv
      left
      rw [State.ExitedCleanly, State.setDb_workers, State.setWorker_self] at hw
      simpa [State.ExitedCleanly] using hw
  | @applyDroppedBeat v i now n b db hb ht hdb =>
      obtain rfl : v = w := by simpa [Action.worker] using hv
      left
      rw [State.ExitedCleanly, State.setDb_workers, State.setWorker_self] at hw
      simpa [State.ExitedCleanly] using hw
  | @bodyReturns v error job tracker nextTick beat hp =>
      obtain rfl : v = w := by simpa [Action.worker] using hv
      rw [State.ExitedCleanly, State.setWorker_self] at hw
      cases error <;> cases hw
  | _ =>
      simp only [Action.worker, Option.some.injEq] at hv
      subst hv
      simp [State.ExitedCleanly, State.setPhase_eq, Worker.leave, Worker.abandon] at hw

theorem Took.claimed {cfg : OwnerToken → Settings} {s s' : State P} {a : Action P}
    {es : List Event} (h : Took cfg s a s' es) {v : OwnerToken} {j : Uuid}
    {p : Option OwnerToken} {n : ℕ} (he : .claimed v j p n ∈ es) : p = s.db.ownerOf j := by
  cases h with
  | @applyClaim w now sentAt skip db row hp ht hdb =>
      have happ : (Statement.claim sentAt).apply (cfg w) w now skip s.db =
          some (db, claimEvents w row) := by simp [Statement.apply, hdb]
      exact apply_claimed happ he
  | finish hp ht hst hdb => exact apply_claimed hdb he
  | applyDropped hst ht hdb => exact apply_claimed hdb he
  | cleanup hp => simp [releasedEvents] at he
  | _ => simp at he

theorem State.Gone.step {cfg : OwnerToken → Settings} {s s' : State P} {a : Action P}
    {es : List Event} {w : OwnerToken} (hinv : s.ExitedCleanly w → s.Gone w)
    (hC : s.releasesLast w a = true) (h : Took cfg s a s' es) (hw : s'.ExitedCleanly w) : s'.Gone w := by
  rcases h.exitedCleanly hw with ⟨hs, habs, hdrop⟩ | ⟨rfl, hdrop, habs, hdb⟩
  · have hg := hinv hs
    refine ⟨State.released_iff.mpr fun j hj => ?_, ?_⟩
    · rw [habs]
      rcases h.ownerOf hj with hold | ⟨sentAt, hf⟩ | hd
      · exact State.released_iff.mp hg.released j hold
      · rw [hs] at hf
        cases hf
      · rw [hg.noClaim] at hd
        cases hd
    · cases hd : (s'.workers w).dropped with
      | none => simp [Worker.claimInFlight, hd]
      | some st =>
          have := hg.noClaim
          rwa [Worker.claimInFlight, hdrop st hd, ← hd] at this
  · refine ⟨State.released_iff.mpr fun j hj => ?_, ?_⟩
    · rw [habs]
      exact cleanup_ownerOf (hdb ▸ hj)
    · rw [Worker.claimInFlight, hdrop]
      simpa [State.releasesLast, Worker.claimInFlight] using hC

end Cja.Jobs
