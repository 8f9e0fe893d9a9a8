import Cja.Jobs.Attempts
import Cja.Jobs.Lease

/-!
# What exhausts the retries of a job

As long as no claim takes the row of a job from an owner, every charge is an error that
its body returned, so a dead letter stands for `max_retries + 1` of them. If moreover the
deletion after an `Ok` is applied, a job whose body returned `Ok` is never dead-lettered.
-/
namespace Cja.Jobs

variable {P : Type} {cfg : OwnerToken → Settings} {s s' : State P} {a : Action P}
variable {es log : List Event} {j : Uuid} {w : OwnerToken} {N : ℕ}

/-- The row that the claim applied in a step takes. -/
def State.claims (cfg : OwnerToken → Settings) (s : State P) : Action P → Option (JobRow P)
  | .applyClaim w now skip => candidate now (cfg w).reclaimWindowMicros skip s.db.jobs
  | .applyDropped w now skip =>
      if (s.workers w).dropped.any Statement.isClaim then
        candidate now (cfg w).reclaimWindowMicros skip s.db.jobs
      else none
  | _ => none

/-- The steps with which worker `w` misses the deletion after an `Ok`. -/
def Action.missesDelete (w : OwnerToken) : Action P → Bool
  | .finish v _ false | .shutdown v | .die v => v == w
  | _ => false

/-- No claim takes the row of `j` from an owner. -/
def State.Unowned (cfg : OwnerToken → Settings) (j : Uuid) (s : State P) (a : Action P) : Prop :=
  ∀ r, s.claims cfg a = some r → r.jobId = j → r.lockedBy = none

/-- The row of a body of `j` that returned `Ok` is deleted. -/
def State.Deletes (j : Uuid) (s : State P) (a : Action P) : Prop :=
  ∀ w job, (s.workers w).phase = .succeeded job → job.jobId = j → a.missesDelete w = false

/-! ## Claims -/

theorem claimed_of_claimRow {v : OwnerToken} {window now n : ℕ} {skip : List Uuid} {db db' : Db P}
    {row : Option (ClaimedRow P)} {p : Option OwnerToken}
    (h : claimRow w window now skip db = (db', row)) (he : .claimed v j p n ∈ claimEvents w row) :
    v = w ∧ ∃ r, candidate now window skip db.jobs = some r ∧ r.jobId = j ∧ r.lockedBy = p := by
  unfold claimRow at h
  split at h
  · cases h
    cases he
  · next c hc =>
      cases h
      rw [claimEvents, List.mem_singleton, Event.claimed.injEq] at he
      exact ⟨he.1, c, hc, he.2.1.symm, he.2.2.1.symm⟩

/-- A recorded claim took the row that the step claims. -/
theorem Took.claims (h : Took cfg s a s' es) {v : OwnerToken} {p : Option OwnerToken} {n : ℕ}
    (he : .claimed v j p n ∈ es) :
    a.worker = some v ∧ ∃ r, s.claims cfg a = some r ∧ r.jobId = j ∧ r.lockedBy = p := by
  have hother : ∀ {w : OwnerToken} {st : Statement P} {now : ℕ} {skip : List Uuid} {db db' : Db P}
      {fs : List Event}, st.isClaim = false → st.apply (cfg w) w now skip db = some (db', fs) →
      .claimed v j p n ∉ fs := by
    intro w st now skip db db' fs hst hdb hmem
    rcases apply_events hst hdb with rfl | ⟨_, -, rfl⟩ | ⟨_, _, -, rfl⟩ | ⟨_, _, _, _, -, rfl⟩ <;>
      simp at hmem
  cases h with
  | applyClaim hp ht hdb =>
      obtain ⟨rfl, hrow⟩ := claimed_of_claimRow hdb he
      exact ⟨rfl, hrow⟩
  | finish hp ht hst hdb => exact absurd he (hother (Phase.statement_not_claim hp hst) hdb)
  | cleanup hp => simp [releasedEvents] at he
  | @applyDropped w now skip st db es hst ht hdb =>
      cases hclaim : st.isClaim with
      | false => exact absurd he (hother hclaim hdb)
      | true =>
          cases st with
          | claim sentAt =>
              cases hdb
              obtain ⟨rfl, hrow⟩ := claimed_of_claimRow rfl he
              refine ⟨rfl, ?_⟩
              simp only [State.claims, hst, Option.any_some, Statement.isClaim, if_true]
              exact hrow
          | _ => cases hclaim
  | enqueue => simp at he
  | receiveLate => simp at he
  | dispatch => simp at he
  | bodyReturns => simp at he
  | watchdog => simp at he
  | _ => cases he

/-- Without takeovers a claim of `j` finds no owner. -/
theorem State.Unowned.claimed (h : s.Unowned cfg j a) (ht : Took cfg s a s' es) {v : OwnerToken}
    {p : Option OwnerToken} {n : ℕ} (he : .claimed v j p n ∈ es) : p = none := by
  obtain ⟨-, r, hr, hid, rfl⟩ := ht.claims he
  exact h r hr hid

/-! ## Owners -/

theorem ownerOf_of_lookup {db db' : Db P} (hw : db.ownerOf j = some w)
    (h : ∀ r, db.jobs.lookup j = some r → r.lockedBy = some w → db'.jobs.lookup j = some r) :
    db'.ownerOf j = some w := by
  obtain ⟨r, hr, ho⟩ := Db.ownerOf_eq_some.1 hw
  exact Db.ownerOf_eq_some.2 ⟨r, h r hr ho, ho⟩

theorem claimRow_ownerOf {v : OwnerToken} {window now : ℕ} {skip : List Uuid} {db db' : Db P}
    {row : Option (ClaimedRow P)} (h : claimRow v window now skip db = (db', row))
    (hw : db.ownerOf j = some w) (hfree : ∀ n, .claimed v j (some w) n ∉ claimEvents v row) :
    db'.ownerOf j = some w := by
  rcases claim_ownerOf h j with ⟨he, -⟩ | ⟨-, c, rfl, rfl, hp⟩
  · rw [he, hw]
  · refine absurd ?_ (hfree c.job.errorCount)
    rw [claimEvents, hp, hw]
    exact List.mem_singleton_self _

theorem heartbeatRow_ownerOf {v : OwnerToken} {k : Uuid} {now n : ℕ} {db db' : Db P}
    (h : heartbeatRow v k now db = (db', n)) : db'.ownerOf j = db.ownerOf j := by
  cases h
  unfold Db.ownerOf Db.updateJobs
  rw [KeyedTable.lookup_update]
  cases db.jobs.lookup j with
  | none => rfl
  | some r =>
      simp only [Option.map_some, Option.bind_some]
      split_ifs <;> rfl

theorem enqueue_ownerOf {n : NewJob P} {db db' : Db P} (h : enqueueOnConnection n db = some db')
    (hw : db.ownerOf j = some w) : db'.ownerOf j = some w := by
  simp only [enqueueOnConnection, Option.map_eq_some_iff] at h
  obtain ⟨t, ht, rfl⟩ := h
  refine ownerOf_of_lookup hw fun r hr _ => ?_
  have hnone := (KeyedTable.insert_some_iff.mp ht).1
  have hne : j ≠ n.row.jobId := by
    rintro rfl
    rw [hnone] at hr
    cases hr
  simpa [hne] using (KeyedTable.lookup_insert ht j).trans (by simp [hne, hr])

/-- The other workers leave an owner in place unless one of them claims its row. -/
theorem Took.ownerOf_other (h : Took cfg s a s' es) (hother : a.worker ≠ some w)
    (hfree : ∀ v n, .claimed v j (some w) n ∉ es) (hw : s.db.ownerOf j = some w) :
    s'.db.ownerOf j = some w := by
  have happly : ∀ {v : OwnerToken} {st : Statement P} {now : ℕ} {skip : List Uuid} {db : Db P},
      v ≠ w → st.apply (cfg v) v now skip s.db = some (db, es) → db.ownerOf j = some w := by
    intro v st now skip db hne hdb
    cases hclaim : st.isClaim with
    | false => exact ownerOf_of_lookup hw fun r hr ho => apply_lookup_other hclaim hne hdb hr ho
    | true =>
        cases st with
        | claim sentAt => cases hdb; exact claimRow_ownerOf rfl hw (hfree v)
        | _ => cases hclaim
  cases h with
  | enqueue hn hdb => exact enqueue_ownerOf hdb hw
  | applyClaim hp ht hdb => exact claimRow_ownerOf hdb hw (hfree _)
  | applyBeat hp ht hdb => exact (heartbeatRow_ownerOf hdb).trans hw
  | finish hp ht hst hdb => exact happly (fun he => hother (congrArg some he)) hdb
  | @cleanup v answered hp =>
      have hne : v ≠ w := fun he => hother (congrArg some he)
      exact ownerOf_of_lookup hw fun r hr ho =>
        lookup_update_other _ hr (by simp [JobRow.releasable, ho, Ne.symm hne])
  | applyDropped hst ht hdb => exact happly (fun he => hother (congrArg some he)) hdb
  | applyDroppedBeat hb ht hdb => exact (heartbeatRow_ownerOf hdb).trans hw
  | _ => exact hw

/-- A worker with a job in its phase owns its row. -/
def State.Held (j : Uuid) (s : State P) : Prop :=
  ∀ w job, (s.workers w).phase.job? = some job → job.jobId = j → s.db.ownerOf j = some w

theorem State.Held.step (hh : s.Held j) (hlate : ∀ w, (s.workers w).DroppedLate)
    (h : Took cfg s a s' es) (hfree : ∀ v p n, .claimed v j p n ∈ es → p = none) :
    s'.Held j := by
  intro w job hjob hid
  by_cases hw : a.worker = some w
  swap
  · rw [h.workers_other hw] at hjob
    exact h.ownerOf_other hw (fun v n he => by cases hfree v _ n he) (hh w job hjob hid)
  -- the step is one of `w`, which goes on with the job it had, or with the one it claimed
  have hkeep : ∀ {wk : Worker P}, (∀ job, wk.phase.job? = some job →
      (s.workers w).phase.job? = some job) →
      ((s.setWorker w wk).workers w).phase.job? = some job → s.db.ownerOf j = some w := by
    intro wk hsame hjob
    rw [State.setWorker_self] at hjob
    exact hh w job (hsame job hjob) hid
  cases h with
  | tick => cases hw
  | enqueue => cases hw
  | @applyClaim v now sentAt skip db row hp ht hdb =>
      cases hw
      rw [State.setDb_workers, State.setPhase_eq, State.setWorker_self] at hjob
      cases row with
      | none => cases hjob
      | some c =>
          cases hjob
          rcases claim_ownerOf hdb j with ⟨-, hne⟩ | ⟨ho, -⟩
          · exact absurd hid (hne c rfl)
          · exact ho
  | receiveExpired hp => cases hw; exact hkeep (by rw [hp]; exact fun _ => id) hjob
  | dispatch hp => cases hw; exact hkeep (by rw [hp]; exact fun _ => id) hjob
  | sendBeat hp => cases hw; exact hkeep (by rw [hp]; exact fun _ => id) hjob
  | applyBeat hp ht hdb =>
      cases hw
      exact (heartbeatRow_ownerOf hdb).trans (hkeep (by rw [hp]; exact fun _ => id) hjob)
  | receiveBeat hp => cases hw; exact hkeep (by rw [hp]; exact fun _ => id) hjob
  | loseBeat hp => cases hw; exact hkeep (by rw [hp]; exact fun _ => id) hjob
  | @bodyReturns v error job tracker nextTick beat hp =>
      cases hw
      refine hkeep (fun job' hj => ?_) hjob
      rw [hp]
      cases error <;> exact hj
  | applyDropped hst ht hdb =>
      cases hw
      rw [State.setDb_workers, State.setWorker_self] at hjob
      cases hlive : (s.workers w).phase.live with
      | false =>
          have hnone := Phase.job?_of_not_live hlive
          rw [show (s.workers w).phase.job? = some job from hjob] at hnone
          cases hnone
      | true =>
          rw [hlate w hlive] at hst
          cases hst
  | applyDroppedBeat hb ht hdb =>
      cases hw
      rw [State.setDb_workers, State.setWorker_self] at hjob
      exact (heartbeatRow_ownerOf hdb).trans (hh w job hjob hid)
  | _ =>
      cases hw
      simp [State.setPhase_eq, Worker.leave, Worker.abandon, Phase.job?] at hjob

/-! ## Every charge is an error -/

/-- How often a body of `j` returned an error. -/
def errorsOf (j : Uuid) (log : List Event) : ℕ :=
  log.countP fun e => match e with
    | .returned _ k ok _ => k == j && !ok
    | _ => false

@[simp] theorem errorsOf_append (j : Uuid) (es fs : List Event) :
    errorsOf j (es ++ fs) = errorsOf j es + errorsOf j fs := List.countP_append

theorem Life.Shows.ownerOf {db : Db P} {L : Life} (h : L.Shows j db) :
    db.ownerOf j = match L with
      | .leased l => some l.owner
      | _ => none := by
  cases L with
  | absent => simp [Db.ownerOf, h.1]
  | ready c last =>
      obtain ⟨-, r, hr, ho, -⟩ := h
      simp [Db.ownerOf, hr, ho]
  | leased l =>
      obtain ⟨-, r, hr, ho, -⟩ := h
      simp [Db.ownerOf, hr, ho]
  | dead n => simp [Db.ownerOf, h.1]
  | completed n => simp [Db.ownerOf, h.1]

/-- A statement charges `j` once at most, and then its worker loses the row. -/
theorem apply_charges {st : Statement P} {cfg : Settings} {now : ℕ} {skip : List Uuid}
    {db db' : Db P} {L L' : Life} (hst : st.isClaim = false)
    (h : st.apply cfg w now skip db = some (db', es)) (hL : L.Shows j db) (hL' : L'.Shows j db')
    (hr : Life.replay j L es = some L') :
    Life.chargesOf j es = 0 ∨ (Life.chargesOf j es = 1 ∧ st.charges j = true ∧
      db.ownerOf j = some w ∧ db'.ownerOf j = none) := by
  rcases apply_events hst h with rfl | ⟨_, -, rfl⟩ | ⟨job, message, rfl, rfl⟩ |
    ⟨job, n, message, failedBody, rfl, rfl⟩
  · exact .inl rfl
  · exact .inl rfl
  · by_cases hid : job.jobId = j
    · subst hid
      rw [Life.replay, StepRun.replay_singleton] at hr
      cases Life.step_moved hr with
      | other hne => exact absurd rfl hne
      | failed hl ha =>
          subst hl
          exact .inr ⟨by simp [Life.charge], by simp [Statement.charges], hL.ownerOf, hL'.ownerOf⟩
    · exact .inl (by simp [Life.charge, hid])
  · by_cases hid : job.jobId = j
    · subst hid
      rw [Life.replay, StepRun.replay_singleton] at hr
      cases failedBody with
      | false => exact .inl (by simp [Life.charge])
      | true =>
          cases Life.step_moved hr with
          | other hne => exact absurd rfl hne
          | deadLettered hl ha =>
              subst hl
              exact .inr ⟨by simp [Life.charge], by simp [Statement.charges], hL.ownerOf,
                hL'.ownerOf⟩
    · exact .inl (by simp [Life.charge, hid])

/-- Without takeovers a step charges `j` by a statement of the owner of its row. -/
theorem Took.charges (h : Took cfg s a s' es) {L L' : Life} (hL : L.Shows j s.db)
    (hL' : L'.Shows j s'.db) (hr : Life.replay j L es = some L')
    (hfree : ∀ v p n, .claimed v j p n ∈ es → p = none) :
    Life.chargesOf j es = 0 ∨ (Life.chargesOf j es = 1 ∧ s'.db.ownerOf j = none ∧
      ∃ w, s.db.ownerOf j = some w ∧ (s.workers w).Owes j) := by
  have hclaim : ∀ {w : OwnerToken} {row : Option (ClaimedRow P)}, es = claimEvents w row →
      Life.chargesOf j es = 0 := by
    rintro w row rfl
    cases row with
    | none => rfl
    | some c =>
        by_cases hid : c.job.jobId = j
        · subst hid
          have hnone := hfree _ _ _ (List.mem_singleton_self _)
          simp [claimEvents, Life.charge, hnone]
        · simp [claimEvents, Life.charge, hid]
  cases h with
  | applyClaim hp ht hdb => exact .inl (hclaim rfl)
  | @finish w now st db es hp ht hst hdb =>
      rcases apply_charges (Phase.statement_not_claim hp hst) hdb hL hL' hr with
        hz | ⟨hone, hc, ho, hnone⟩
      · exact .inl hz
      · exact .inr ⟨hone, hnone, w, ho, .inl (Phase.failing_of_charges hst hc)⟩
  | cleanup hp => exact .inl (by simp [releasedEvents, Life.chargesOf, Function.comp_def, Life.charge])
  | @applyDropped w now skip st db es hst ht hdb =>
      cases hc : st.isClaim with
      | true =>
          cases st with
          | claim sentAt => cases hdb; exact .inl (hclaim rfl)
          | _ => cases hc
      | false =>
          rcases apply_charges hc hdb hL hL' hr with hz | ⟨hone, hch, ho, hnone⟩
          · exact .inl hz
          · exact .inr ⟨hone, hnone, w, ho, .inr ⟨st, hst, hch⟩⟩
  | _ => exact .inl (by simp [Life.charge])

/-- A worker whose claim was just applied, or is out of its loop. -/
structure Worker.Fresh (wk : Worker P) : Prop where
  dropped : wk.dropped = none
  phase : (∃ row, wk.phase = .fetched row) ∨ wk.phase.live = false

theorem Worker.Fresh.owes {wk : Worker P} (h : wk.Fresh) : ¬wk.Owes j := by
  rintro (⟨job, message, hf, -⟩ | ⟨st, hst, -⟩)
  · rcases h.phase with ⟨row, hp⟩ | hlive
    · rw [hf] at hp
      cases hp
    · rw [hf] at hlive
      cases hlive
  · rw [h.dropped] at hst
    cases hst

/-- A worker that gets the row of `j` in a step has nothing in flight about it. -/
theorem Took.owner (h : Took cfg s a s' es) (hlate : ∀ w, (s.workers w).DroppedLate)
    (hw : s'.db.ownerOf j = some w) (hnew : s.db.ownerOf j ≠ some w) : (s'.workers w).Fresh := by
  have hkeeps : ∀ {db : Db P}, Keeps s.db db → db.ownerOf j = some w → False :=
    fun hk ho => hnew (hk.of_some ho)
  have hbeat : ∀ {v : OwnerToken} {k : Uuid} {now n : ℕ} {db : Db P},
      heartbeatRow v k now s.db = (db, n) → db.ownerOf j = some w → False :=
    fun hdb ho => hnew ((heartbeatRow_ownerOf hdb).symm.trans ho)
  cases h with
  | enqueue hn hdb => exact (hkeeps (enqueue_keeps hdb) hw).elim
  | @applyClaim v now sentAt skip db row hp ht hdb =>
      rcases claim_ownerOf hdb j with ⟨he, -⟩ | ⟨ho, -⟩
      · exact absurd (he.symm.trans hw) hnew
      · obtain rfl : v = w := Option.some.inj (ho.symm.trans hw)
        rw [State.setDb_workers, State.setPhase_eq, State.setWorker_self]
        exact ⟨hlate v (by rw [hp]; rfl), .inl ⟨_, rfl⟩⟩
  | applyBeat hp ht hdb => exact (hbeat hdb hw).elim
  | finish hp ht hst hdb =>
      exact (hkeeps (apply_keeps (Phase.statement_not_claim hp hst) hdb) hw).elim
  | cleanup hp => exact (hkeeps (cleanup_keeps _ _ _) hw).elim
  | @applyDropped v now skip st db es hst ht hdb =>
      cases hc : st.isClaim with
      | false => exact (hkeeps (apply_keeps hc hdb) hw).elim
      | true =>
          cases st with
          | claim sentAt =>
              cases hdb
              rcases claim_ownerOf rfl j with ⟨he, -⟩ | ⟨ho, -⟩
              · exact absurd (he.symm.trans hw) hnew
              · obtain rfl : v = w := Option.some.inj (ho.symm.trans hw)
                rw [State.setDb_workers, State.setWorker_self]
                refine ⟨rfl, .inr ?_⟩
                -- a statement stays in flight only at a worker out of its loop
                cases hlive : (s.workers v).phase.live with
                | false => rfl
                | true =>
                    rw [hlate v hlive] at hst
                    cases hst
          | _ => cases hc
  | applyDroppedBeat hb ht hdb => exact (hbeat hdb hw).elim
  | _ => exact absurd hw hnew

/-- The charges of `j` so far are covered by errors of its body, one more while a charge of
the owner is in flight. -/
structure Tallied (j : Uuid) (log : List Event) (s : State P) : Prop where
  le : Life.chargesOf j log ≤ errorsOf j log
  pending : ∀ w, s.db.ownerOf j = some w → (s.workers w).Owes j →
    Life.chargesOf j log < errorsOf j log

theorem Tallied.step {L L' : Life} (ht : Tallied j log s) (hsim : Sim j s L)
    (hsim' : Sim j s' L') (hr : Life.replay j L es = some L') (h : Took cfg s a s' es)
    (hfree : ∀ v p n, .claimed v j p n ∈ es → p = none) : Tallied j (log ++ es) s' := by
  have hcharged := h.charges hsim.tables hsim'.tables hr hfree
  refine ⟨?_, fun w hw howes => ?_⟩
  · rw [Life.chargesOf_append, errorsOf_append]
    rcases hcharged with hz | ⟨hone, -, w, hw, howes⟩
    · have := ht.le
      omega
    · have := ht.pending w hw howes
      omega
  · rw [Life.chargesOf_append, errorsOf_append]
    rcases hcharged with hz | ⟨-, hnone, -⟩
    · by_cases hold : s.db.ownerOf j = some w
      · rcases h.owes howes with howes | ⟨owned, rfl⟩
        · have := ht.pending w hold howes
          omega
        · have hone : errorsOf j [.returned w j false owned] = 1 := by simp [errorsOf]
          have := ht.le
          omega
      · exact absurd howes (h.owner hsim.late hw hold).owes
    · rw [hnone] at hw
      cases hw

/-! ## The count of a dead letter -/

/-- A dead letter, and a statement that is to write one, carry more than `N` charges. -/
structure State.Spent (N : ℕ) (s : State P) : Prop where
  dead : ∀ d ∈ s.db.deadLetterJobs, N < d.errorCount
  fetched : ∀ w c, (s.workers w).phase = .fetched (some c) → c.previousLockedBy.isSome = true →
    c.job.errorCount = c.previousErrorCount + 1
  expiring : ∀ w c, (s.workers w).phase = .expiring c → N < c.job.errorCount
  dropped : ∀ w job n message failedBody,
    (s.workers w).dropped = some (.deadLetter job n message failedBody) → N < n

theorem claimRow_counts {window now : ℕ} {skip : List Uuid} {db db' : Db P} {c : ClaimedRow P}
    (h : claimRow w window now skip db = (db', some c)) (hp : c.previousLockedBy.isSome = true) :
    c.job.errorCount = c.previousErrorCount + 1 := by
  rcases claimRow_spec h with ⟨-, hn⟩ | ⟨r, hr, -, hc, -⟩
  · cases hn
  · cases hc
    cases ho : r.lockedBy with
    | none => simp [ho] at hp
    | some p => simp [JobRow.claimedBy, JobRow.toJob, ho]

/-- A statement writes the dead letter it speaks of, if any. -/
theorem apply_dead {st : Statement P} {cfg : Settings} {now : ℕ} {skip : List Uuid}
    {db db' : Db P} (h : st.apply cfg w now skip db = some (db', es)) {d : DeadLetterRow P}
    (hd : d ∈ db'.deadLetterJobs) : d ∈ db.deadLetterJobs ∨
      ∃ job n message failedBody, st = .deadLetter job n message failedBody ∧
        d = job.deadLetter n message now ∧ db.ownerOf job.jobId = some w := by
  cases st with
  | claim sentAt =>
      cases h
      unfold claimRow at hd
      split at hd <;> exact .inl hd
  | delete job =>
      cases h
      exact .inl hd
  | fail job message =>
      simp only [Statement.apply, Option.map_eq_some_iff, Prod.mk.injEq] at h
      obtain ⟨⟨db₁, n⟩, hf, rfl, -⟩ := h
      unfold failRow at hf
      split_ifs at hf
      cases hf
      exact .inl hd
  | deadLetter job n message failedBody =>
      simp only [Statement.apply, Option.map_eq_some_iff, Prod.mk.injEq, deadLetterOwned_eq] at h
      obtain ⟨⟨db₁, owned⟩, hl, rfl, -⟩ := h
      split_ifs at hl with hown
      · cases hl
        rcases List.mem_append.1 hd with hd | hd
        · exact .inl hd
        · refine .inr ⟨job, n, message, failedBody, rfl, List.mem_singleton.1 hd, ?_⟩
          simpa [Db.ownerOf, Option.any_eq_true, Option.bind_eq_some_iff] using hown
      · cases hl
        exact .inl hd

theorem Phase.statement_deadLetter {cfg : Settings} {phase : Phase P} {job : JobFromDB P} {n : ℕ}
    {message : String} {failedBody : Bool}
    (h : phase.statement cfg = some (.deadLetter job n message failedBody)) :
    (∃ c, phase = .expiring c ∧ n = c.job.errorCount) ∨ cfg.maxRetries < n := by
  cases phase with
  | expiring c =>
      cases h
      exact .inl ⟨c, rfl, rfl⟩
  | failing job message =>
      simp only [Phase.statement] at h
      split_ifs at h with hlim hmax
      · cases h
        exact .inr (Nat.lt_succ_of_le hlim)
      · cases h
  | fetching sentAt => cases h
  | succeeded job => cases h
  | _ => cases h

namespace State.Spent

theorem init : (State.init : State P).Spent N where
  dead := by simp [State.init, Db.empty]
  fetched := by simp [State.init]
  expiring := by simp [State.init]
  dropped := by simp [State.init]

/-- Worker `w` moves on, and the tables change. -/
theorem set (h : s.Spent N) {wk : Worker P} {db : Db P}
    (hdead : ∀ d ∈ db.deadLetterJobs, N < d.errorCount)
    (hfetched : ∀ c, wk.phase = .fetched (some c) → c.previousLockedBy.isSome = true →
      c.job.errorCount = c.previousErrorCount + 1)
    (hexpiring : ∀ c, wk.phase = .expiring c → N < c.job.errorCount)
    (hdropped : ∀ job n message failedBody,
      wk.dropped = some (.deadLetter job n message failedBody) → N < n) :
    ((s.setWorker w wk).setDb db).Spent N where
  dead := hdead
  fetched v := by
    rw [State.setDb_workers]
    by_cases hv : v = w
    · rw [hv, State.setWorker_self]
      exact hfetched
    · rw [State.setWorker_other _ _ hv]
      exact h.fetched v
  expiring v := by
    rw [State.setDb_workers]
    by_cases hv : v = w
    · rw [hv, State.setWorker_self]
      exact hexpiring
    · rw [State.setWorker_other _ _ hv]
      exact h.expiring v
  dropped v := by
    rw [State.setDb_workers]
    by_cases hv : v = w
    · rw [hv, State.setWorker_self]
      exact hdropped
    · rw [State.setWorker_other _ _ hv]
      exact h.dropped v

/-- Worker `w` goes on to a phase from which it writes no dead letter at once. -/
theorem move (h : s.Spent N) {wk : Worker P} {db : Db P}
    (hdb : db.deadLetterJobs = s.db.deadLetterJobs) (hfetched : ∀ c, wk.phase ≠ .fetched c)
    (hexpiring : ∀ c, wk.phase ≠ .expiring c) (hdropped : wk.dropped = (s.workers w).dropped) :
    ((s.setWorker w wk).setDb db).Spent N :=
  h.set (hdb ▸ h.dead) (fun _ hc => absurd hc (hfetched _)) (fun c hc => absurd hc (hexpiring c))
    fun job n message failedBody hst => h.dropped w job n message failedBody (hdropped ▸ hst)

theorem exit (h : s.Spent N) {cfg : Settings} (hmax : N ≤ cfg.maxRetries) {phase : Phase P}
    (hfetched : ∀ c, phase ≠ .fetched c) (hexpiring : ∀ c, phase ≠ .expiring c) :
    (s.setWorker w { (s.workers w).leave phase with
      dropped := (s.workers w).inFlight cfg }).Spent N := by
  refine h.set h.dead (fun _ hc => absurd hc (hfetched _)) (fun c hc => absurd hc (hexpiring c))
    fun job n message failedBody hst => ?_
  rcases Option.or_eq_some_iff.1 hst with hst | ⟨-, hst⟩
  · rcases Phase.statement_deadLetter hst with ⟨c, hp, rfl⟩ | hlt
    · exact h.expiring w c hp
    · exact Nat.lt_of_le_of_lt hmax hlt
  · exact h.dropped w job n message failedBody hst

theorem apply (h : s.Spent N) {cfg : Settings} {st : Statement P} {now : ℕ} {skip : List Uuid}
    {db : Db P} (hdb : st.apply cfg w now skip s.db = some (db, es))
    (hst : ∀ job n message failedBody, st = .deadLetter job n message failedBody → N < n) :
    ∀ d ∈ db.deadLetterJobs, N < d.errorCount := by
  intro d hd
  rcases apply_dead hdb hd with hd | ⟨job, n, message, failedBody, rfl, rfl, -⟩
  · exact h.dead d hd
  · exact hst job n message failedBody rfl

end State.Spent

theorem Took.spent (hs : s.Spent N) (hmax : ∀ w, N ≤ (cfg w).maxRetries)
    (h : Took cfg s a s' es) : s'.Spent N := by
  cases h with
  | tick elapsed => exact ⟨hs.dead, hs.fetched, hs.expiring, hs.dropped⟩
  | enqueue hn hdb =>
      simp only [enqueueOnConnection, Option.map_eq_some_iff] at hdb
      obtain ⟨t, -, rfl⟩ := hdb
      exact ⟨hs.dead, hs.fetched, hs.expiring, hs.dropped⟩
  | @applyClaim w now sentAt skip db row hp ht hdb =>
      have hdead : db.deadLetterJobs = s.db.deadLetterJobs := by
        rcases claimRow_spec hdb with ⟨rfl, -⟩ | ⟨r, -, -, -, rfl⟩ <;> rfl
      refine hs.set (hdead ▸ hs.dead) (fun c hc hprev => ?_) (fun c hc => by cases hc) (hs.dropped w)
      cases row with
      | none => cases hc
      | some c' =>
          cases hc
          exact claimRow_counts hdb hprev
  | @receiveExpired w claimed hp hprev hlim =>
      refine hs.set hs.dead (fun c hc => by cases hc) ?_ (hs.dropped w)
      rintro _ ⟨⟩
      have hc := hs.fetched w _ hp hprev
      have hN := hmax w
      omega
  | applyBeat hp ht hdb => cases hdb; exact hs.move rfl (by simp) (by simp) rfl
  | @bodyReturns w error job tracker nextTick beat hp =>
      exact hs.move rfl (by cases error <;> simp [Phase.returned])
        (by cases error <;> simp [Phase.returned]) rfl
  | @finish w now st db es hp ht hst hdb =>
      refine hs.set (hs.apply hdb ?_) (fun c hc => by cases hc) (fun c hc => by cases hc)
        (hs.dropped w)
      rintro job n message failedBody rfl
      rcases Phase.statement_deadLetter hst with ⟨c, hc, rfl⟩ | hlt
      · exact hs.expiring w c hc
      · exact Nat.lt_of_le_of_lt (hmax w) hlt
  | @shutdown w hp => exact hs.exit (hmax w) (by simp) (by simp)
  | @die w hp => exact hs.exit (hmax w) (by simp) (by simp)
  | cleanup hp => exact hs.move rfl (by simp) (by simp) rfl
  | @applyDropped w now skip st db es hst ht hdb =>
      refine hs.set (hs.apply hdb ?_) (hs.fetched w) (hs.expiring w) (by simp)
      rintro job n message failedBody rfl
      exact hs.dropped w job n message failedBody hst
  | @applyDroppedBeat w i now n b db hb ht hdb =>
      cases hdb
      exact hs.set hs.dead (hs.fetched w) (hs.expiring w) (hs.dropped w)
  | _ =>
      exact hs.move rfl (by simp [Worker.leave, Worker.abandon])
        (by simp [Worker.leave, Worker.abandon]) rfl

/-! ## A job whose body returned `Ok` -/

/-- The row of `j` is about to be deleted or gone, and `j` is no dead letter. -/
def State.Completes (j : Uuid) (s : State P) : Prop :=
  s.db.deadOf j = [] ∧ ((s.db.jobs.lookup j = none ∧ j ∈ s.issued) ∨
    ∃ w job, (s.workers w).phase = .succeeded job ∧ job.jobId = j)

/-- A new dead letter is the statement of the row's owner. -/
theorem Took.dead (h : Took cfg s a s' es) {d : DeadLetterRow P}
    (hd : d ∈ s'.db.deadLetterJobs) : d ∈ s.db.deadLetterJobs ∨
      ∃ w job n message failedBody, d.originalJobId = job.jobId ∧
        s.db.ownerOf job.jobId = some w ∧
        ((s.workers w).phase.statement (cfg w) = some (.deadLetter job n message failedBody) ∨
          (s.workers w).dropped = some (.deadLetter job n message failedBody)) := by
  cases h with
  | enqueue hn hdb =>
      simp only [enqueueOnConnection, Option.map_eq_some_iff] at hdb
      obtain ⟨t, -, rfl⟩ := hdb
      exact .inl hd
  | applyClaim hp ht hdb =>
      rcases claimRow_spec hdb with ⟨rfl, -⟩ | ⟨r, -, -, -, rfl⟩ <;> exact .inl hd
  | applyBeat hp ht hdb => cases hdb; exact .inl hd
  | finish hp ht hst hdb =>
      rcases apply_dead hdb hd with hold | ⟨job, n, message, failedBody, rfl, rfl, ho⟩
      · exact .inl hold
      · exact .inr ⟨_, job, n, message, failedBody, rfl, ho, .inl hst⟩
  | applyDropped hst ht hdb =>
      rcases apply_dead hdb hd with hold | ⟨job, n, message, failedBody, rfl, rfl, ho⟩
      · exact .inl hold
      · exact .inr ⟨_, job, n, message, failedBody, rfl, ho, .inr hst⟩
  | applyDroppedBeat hb ht hdb => cases hdb; exact .inl hd
  | _ => exact .inl hd

/-- A job whose row is gone does not come back. -/
theorem Took.absent (h : Took cfg s a s' es) (hnone : s.db.jobs.lookup j = none)
    (hissued : j ∈ s.issued) : s'.db.jobs.lookup j = none ∧ j ∈ s'.issued := by
  have hupdate : ∀ {p : JobRow P → Bool} {f : JobRow P → JobRow P}
      (hf : ∀ r, (f r).jobId = r.jobId), (s.db.updateJobs p f hf).jobs.lookup j = none := by
    intro p f hf
    rw [lookup_updateJobs, hnone]
    rfl
  have hclaim : ∀ {w : OwnerToken} {window now : ℕ} {skip : List Uuid} {db : Db P}
      {row : Option (ClaimedRow P)}, claimRow w window now skip s.db = (db, row) →
      db.jobs.lookup j = none := by
    intro w window now skip db row hdb
    rcases claimRow_spec hdb with ⟨rfl, -⟩ | ⟨r, -, -, -, rfl⟩
    · exact hnone
    · exact hupdate _
  have happly : ∀ {w : OwnerToken} {st : Statement P} {now : ℕ} {skip : List Uuid} {db : Db P}
      {fs : List Event}, st.apply (cfg w) w now skip s.db = some (db, fs) →
      db.jobs.lookup j = none := by
    intro w st now skip db fs hdb
    cases st with
    | claim sentAt => cases hdb; exact hclaim rfl
    | delete job =>
        cases hdb
        simp [deleteRow, KeyedTable.lookup_delete, hnone]
    | fail job message =>
        simp only [Statement.apply, Option.map_eq_some_iff, Prod.mk.injEq] at hdb
        obtain ⟨⟨db₁, n⟩, hf, rfl, -⟩ := hdb
        unfold failRow at hf
        split_ifs at hf
        cases hf
        exact hupdate _
    | deadLetter job n message failedBody =>
        simp only [Statement.apply, Option.map_eq_some_iff, Prod.mk.injEq, deadLetterOwned_eq] at hdb
        obtain ⟨⟨db₁, owned⟩, hl, rfl, -⟩ := hdb
        split_ifs at hl
        · cases hl
          simp [KeyedTable.lookup_delete, hnone]
        · cases hl
          exact hnone
  cases h with
  | @enqueue n db hn hdb =>
      simp only [enqueueOnConnection, Option.map_eq_some_iff] at hdb
      obtain ⟨t, ht, rfl⟩ := hdb
      have hne : j ≠ n.row.jobId := by
        rintro rfl
        exact hn hissued
      refine ⟨?_, List.mem_cons_of_mem _ hissued⟩
      rw [show (Db.mk t s.db.deadLetterJobs).jobs = t from rfl, KeyedTable.lookup_insert ht,
        if_neg hne, hnone]
  | applyClaim hp ht hdb => exact ⟨hclaim hdb, hissued⟩
  | applyBeat hp ht hdb => cases hdb; exact ⟨hupdate _, hissued⟩
  | finish hp ht hst hdb => exact ⟨happly hdb, hissued⟩
  | cleanup hp => exact ⟨hupdate _, hissued⟩
  | applyDropped hst ht hdb => exact ⟨happly hdb, hissued⟩
  | applyDroppedBeat hb ht hdb => cases hdb; exact ⟨hupdate _, hissued⟩
  | _ => exact ⟨hnone, hissued⟩

theorem Db.deadOf_eq_nil {db : Db P} :
    db.deadOf j = [] ↔ ∀ d ∈ db.deadLetterJobs, d.originalJobId ≠ j := by
  simp [Db.deadOf, List.filter_eq_nil_iff]

theorem State.Completes.step {L : Life} (hc : s.Completes j) (hsim : Sim j s L) (hh : s.Held j)
    (hdel : s.Deletes j a) (h : Took cfg s a s' es) : s'.Completes j := by
  obtain ⟨hdead, hrow⟩ := hc
  refine ⟨Db.deadOf_eq_nil.2 fun d hd hid => ?_, ?_⟩
  · rcases h.dead hd with hold | ⟨w, job, n, message, failedBody, hjob, hown, hst⟩
    · exact Db.deadOf_eq_nil.1 hdead d hold hid
    rw [← hjob, hid] at hown
    rcases hrow with ⟨hnone, -⟩ | ⟨v, job', hp, hid'⟩
    · simp [Db.ownerOf, hnone] at hown
    -- the owner is about to delete the row
    obtain rfl : v = w :=
      Option.some.inj ((hh v job' (by rw [hp]; rfl) hid').symm.trans hown)
    rcases hst with hst | hst
    · rw [hp] at hst
      cases hst
    · rw [hsim.late v (by rw [hp]; rfl)] at hst
      cases hst
  · rcases hrow with ⟨hnone, hissued⟩ | ⟨w, job, hp, hid⟩
    · exact .inl (h.absent hnone hissued)
    have hown := hh w job (by rw [hp]; rfl) hid
    have hissued : j ∈ s.issued := by
      refine hsim.issued ?_
      rintro rfl
      rw [hsim.tables.ownerOf] at hown
      cases hown
    have hmiss := hdel w job hp hid
    by_cases hw : a.worker = some w
    swap
    · exact .inr ⟨w, job, by rw [h.workers_other hw]; exact hp, hid⟩
    cases h with
    | tick => cases hw
    | enqueue => cases hw
    | finish hp' ht hst hdb =>
        cases hw
        rw [hp] at hst
        cases hst
        cases hdb
        subst hid
        refine .inl ⟨?_, hissued⟩
        obtain ⟨r, hr, hlocked⟩ := Db.ownerOf_eq_some.1 hown
        rw [State.setDb_db, deleteRow, KeyedTable.lookup_delete, hr]
        simp [JobRow.ownedBy, KeyedTable.key_of_lookup hr, hlocked]
    | finishFails hp' => cases hw; simp [Action.missesDelete] at hmiss
    | shutdown hp' => cases hw; simp [Action.missesDelete] at hmiss
    | die hp' => cases hw; simp [Action.missesDelete] at hmiss
    | applyDropped hst ht hdb =>
        cases hw
        rw [hsim.late w (by rw [hp]; rfl)] at hst
        cases hst
    | applyDroppedBeat hb ht hdb =>
        cases hw
        exact .inr ⟨w, job, by rw [State.setDb_workers, State.setWorker_self]; exact hp, hid⟩
    | _ =>
        -- no other step of a worker starts where it deletes
        cases hw
        grind

/-- Only a body that returns is recorded as such. -/
theorem Took.returned_body (h : Took cfg s a s' es) {ok owned : Bool}
    (he : .returned w j ok owned ∈ es) : ∃ error job tracker nextTick beat,
      a = .bodyReturns w error ∧ (s.workers w).phase = .running job tracker nextTick beat ∧
        job.jobId = j ∧ ok = error.isNone := by
  have happly : ∀ {v : OwnerToken} {st : Statement P} {now : ℕ} {skip : List Uuid} {db db' : Db P}
      {fs : List Event}, st.apply (cfg v) v now skip db = some (db', fs) →
      .returned w j ok owned ∉ fs := by
    intro v st now skip db db' fs hdb hmem
    cases hc : st.isClaim with
    | false =>
        rcases apply_events hc hdb with
          rfl | ⟨_, -, rfl⟩ | ⟨_, _, -, rfl⟩ | ⟨_, _, _, _, -, rfl⟩ <;> simp at hmem
    | true =>
        cases st with
        | claim sentAt =>
            cases hdb
            generalize (claimRow _ _ _ _ _).2 = row at hmem
            cases row <;> simp [claimEvents] at hmem
        | _ => cases hc
  cases h with
  | @bodyReturns v error job tracker nextTick beat hp =>
      rw [List.mem_singleton, Event.returned.injEq] at he
      obtain ⟨rfl, rfl, rfl, -⟩ := he
      exact ⟨error, job, tracker, nextTick, beat, rfl, hp, rfl, rfl⟩
  | @applyClaim v now sentAt skip db row hp ht hdb =>
      cases row <;> simp [claimEvents] at he
  | finish hp ht hst hdb => exact absurd he (happly hdb)
  | cleanup hp => simp [releasedEvents] at he
  | applyDropped hst ht hdb => exact absurd he (happly hdb)
  | _ => simp at he

/-- A body of `j` that returns `Ok` leaves its row to be deleted. -/
theorem Took.completes {L : Life} (h : Took cfg s a s' es) (hsim : Sim j s L) (hh : s.Held j)
    {owned : Bool} (he : .returned w j true owned ∈ es) : s'.Completes j := by
  obtain ⟨error, job, tracker, nextTick, beat, rfl, hp, rfl, hok⟩ := h.returned_body he
  obtain rfl := Option.isNone_iff_eq_none.1 hok.symm
  have hown := hh w job (by rw [hp]; rfl) rfl
  cases h with
  | bodyReturns hp' =>
      rw [hp] at hp'
      cases hp'
      refine ⟨?_, .inr ⟨w, job, by rw [State.setWorker_self]; rfl, rfl⟩⟩
      rw [hsim.tables.ownerOf] at hown
      cases L with
      | leased l => exact hsim.tables.1
      | _ => cases hown

/-- What holds of job `j` while no claim takes its row from an owner. -/
structure State.Retries (N : ℕ) (j : Uuid) (log : List Event) (s : State P) : Prop where
  held : s.Held j
  tallied : Tallied j log s
  spent : s.Spent N

namespace State.Retries

theorem init : (State.init : State P).Retries N j [] :=
  ⟨by simp [State.Held, State.init, Phase.job?],
    ⟨Nat.le_refl _, by simp [State.init, Db.empty, Db.ownerOf]⟩, .init⟩

theorem step {L : Life} (hI : s.Retries N j log) (hsim : Sim j s L)
    (hmax : ∀ w, N ≤ (cfg w).maxRetries) (ho : s.Unowned cfg j a)
    (hs : Cja.Jobs.step cfg s a = some (s', es)) : s'.Retries N j (log ++ es) := by
  obtain ⟨L', hr, hsim'⟩ := hsim.step hs
  have ht := step_took hs
  have hfree : ∀ v p n, .claimed v j p n ∈ es → p = none := fun v p n he => ho.claimed ht he
  exact ⟨hI.held.step hsim.late ht hfree, hI.tallied.step hsim hsim' hr ht hfree,
    ht.spent hI.spent hmax⟩

/-- Each charge of the row is an error of the body. -/
theorem charged (hI : s.Retries N j log) {L : Life} (hlog : Life.replay j .absent log = some L)
    (hsim : Sim j s L) {r : JobRow P} (hr : s.db.jobs.lookup j = some r) :
    r.errorCount ≤ errorsOf j log := by
  have hle := hI.tallied.le
  rw [hsim.tables.counts.1 r hr, Life.replay_count hlog, Life.count, initialErrorCount]
  omega

/-- A dead letter stands for more than `N` errors of the body. -/
theorem errors (hI : s.Retries N j log) {L : Life} (hlog : Life.replay j .absent log = some L)
    (hsim : Sim j s L) {d : DeadLetterRow P} (hd : d ∈ s.db.deadOf j) : N < errorsOf j log := by
  have hcount := (hsim.tables.counts.2 d hd).trans (Life.replay_count hlog)
  have hspent := hI.spent.dead d (List.mem_filter.1 hd).1
  have hle := hI.tallied.le
  rw [hcount, Life.count, initialErrorCount] at hspent
  omega

end State.Retries

/-- Without takeovers a dead letter stands for more than `N` errors of the body. -/
theorem errors_of_deadLetter {C : State P → Action P → Prop}
    (hC : ∀ s a, C s a → s.Unowned cfg j a) (hmax : ∀ w, N ≤ (cfg w).maxRetries)
    (h : QueueRun cfg C log s) {d : DeadLetterRow P} (hd : d ∈ s.db.deadOf j) :
    N < errorsOf j log := by
  have hI : s.Retries N j log := by
    refine h.invariant (I := fun log s => State.Retries N j log s) .init ?_
    intro log s a s' es hrun hI hc hs
    obtain ⟨L, -, hsim⟩ := Sim.of_run j hrun
    exact hI.step hsim hmax (hC s a hc) hs
  obtain ⟨L, hlog, hsim⟩ := Sim.of_run j h
  exact hI.errors hlog hsim hd

end Cja.Jobs
