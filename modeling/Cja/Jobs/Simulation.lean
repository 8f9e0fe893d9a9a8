import Cja.Jobs.Refinement

/-!
# The queue refines the life of every job

`Sim` relates a state of the queue to the life of job `j`: the tables show the
life, and the worker that holds the lease knows no more and no less than the
lease says. A worker whose lease has ended in readiness is done with the job,
and statements are in flight outside their phase only at workers out of the
loop.
-/
namespace Cja.Jobs

variable {P : Type}

/-- The job a phase is about. -/
def Phase.job? : Phase P → Option (JobFromDB P)
  | .fetched (some c) => some c.job
  | .expiring c => some c.job
  | .running job _ _ _ => some job
  | .succeeded job => some job
  | .failing job _ => some job
  | _ => none

def Phase.Clear (j : Uuid) (phase : Phase P) : Prop :=
  ∀ job, phase.job? = some job → job.jobId ≠ j

/-- What the owner of the lease `l` on job `j` knows of it. -/
structure Worker.Agrees (j : Uuid) (wk : Worker P) (l : Lease) : Prop where
  job : ∀ job, wk.phase.job? = some job → job.jobId = j →
    job.errorCount = l.count ∧ l.abandoned = false
  succeeded : ∀ job, wk.phase = .succeeded job → job.jobId = j → l.okOwned = true
  abandoned : l.abandoned = true → j ∈ wk.abandoned
  dropped : ∀ st, wk.dropped = some st → st.Fits j l

/-- Only a worker out of its loop has a dropped statement in flight. -/
def Worker.DroppedLate (wk : Worker P) : Prop :=
  wk.phase.live = true → wk.dropped = none

structure Sim (j : Uuid) (s : State P) (L : Life) : Prop where
  tables : L.Shows j s.db
  issued : L ≠ .absent → j ∈ s.issued
  owner : ∀ l, L = .leased l → (s.workers l.owner).Agrees j l
  last : ∀ c w, L = .ready c (some w) → (s.workers w).phase.Clear j
  late : ∀ w, (s.workers w).DroppedLate

theorem Phase.clear_of_none {j : Uuid} {phase : Phase P} (h : phase.job? = none) :
    phase.Clear j := by
  intro job hj
  rw [h] at hj
  cases hj

/-- A worker with no job in its phase and nothing dropped agrees with a lease
that its abandoned set covers. -/
theorem Worker.agrees_of_none {j : Uuid} {wk : Worker P} {l : Lease}
    (hp : wk.phase.job? = none) (ha : l.abandoned = true → j ∈ wk.abandoned)
    (hd : ∀ st, wk.dropped = some st → st.Fits j l) : wk.Agrees j l where
  job job hj := by rw [hp] at hj; cases hj
  succeeded job hs := by rw [hs] at hp; cases hp
  abandoned := ha
  dropped := hd

namespace Sim

variable {j : Uuid} {s : State P} {L : Life} {w : OwnerToken} {wk : Worker P}

theorem init : Sim j (State.init : State P) .absent where
  tables := ⟨rfl, rfl⟩
  issued h := absurd rfl h
  owner _ h := by cases h
  last _ _ h := by cases h
  late _ _ := rfl

/-- Only worker `w` changes. -/
theorem setWorker (h : Sim j s L) (hown : ∀ l, L = .leased l → l.owner = w → wk.Agrees j l)
    (hlast : ∀ c, L = .ready c (some w) → wk.phase.Clear j) (hlate : wk.DroppedLate) :
    Sim j (s.setWorker w wk) L where
  tables := h.tables
  issued := h.issued
  owner l hl := by
    by_cases hw : l.owner = w
    · rw [hw, State.setWorker_self]; exact hown l hl hw
    · rw [State.setWorker_other _ _ hw]; exact h.owner l hl
  last c v hl := by
    by_cases hv : v = w
    · subst hv; rw [State.setWorker_self]; exact hlast c hl
    · rw [State.setWorker_other _ _ hv]; exact h.last c v hl
  late v := by
    by_cases hv : v = w
    · subst hv; rw [State.setWorker_self]; exact hlate
    · rw [State.setWorker_other _ _ hv]; exact h.late v

/-- A live worker goes on to a phase about the same job or about none. -/
theorem quiet (h : Sim j s L) (hlive : (s.workers w).phase.live = true)
    (hjob : ∀ job, wk.phase.job? = some job → (s.workers w).phase.job? = some job)
    (hsucc : ∀ job, wk.phase = .succeeded job → job.jobId ≠ j)
    (ha : (s.workers w).phase.Clear j → j ∈ (s.workers w).abandoned → j ∈ wk.abandoned)
    (hd : wk.dropped = (s.workers w).dropped) : Sim j (s.setWorker w wk) L := by
  have hnone : wk.dropped = none := hd.trans (h.late w hlive)
  refine h.setWorker (fun l hl hw => ?_) (fun c hl job hj => h.last c w hl job (hjob job hj))
    fun _ => hnone
  subst hw
  have hag := h.owner l hl
  refine ⟨fun job hj => hag.job job (hjob job hj), fun job hs hid => absurd hid (hsucc job hs),
    fun hl => ha ?_ (hag.abandoned hl), fun st hst => by rw [hnone] at hst; cases hst⟩
  intro job hj hid
  have := (hag.job job hj hid).2
  rw [hl] at this
  cases this

/-- A live worker drops to a phase without a job. -/
theorem settle (h : Sim j s L) (hlive : (s.workers w).phase.live = true)
    (hjob : wk.phase.job? = none) (ha : j ∈ (s.workers w).abandoned → j ∈ wk.abandoned)
    (hd : wk.dropped = (s.workers w).dropped) : Sim j (s.setWorker w wk) L :=
  h.quiet hlive (fun job hj => by rw [hjob] at hj; cases hj)
    (fun job hs => by rw [hs] at hjob; cases hjob) (fun _ => ha) hd

theorem shows_mark {db : Db P} (hL : L.Shows j db) {f : Lease → Lease}
    (hf : ∀ l, (f l).count = l.count ∧ (f l).owner = l.owner) : (L.mark w f).Shows j db := by
  cases L with
  | leased l =>
      simp only [Life.mark]
      split
      · simpa only [Life.Shows, (hf l).1, (hf l).2] using hL
      · exact hL
  | _ => exact hL

/-- Worker `w` records an event of the job its phase is about. -/
theorem observe (h : Sim j s L) {job : JobFromDB P} {f : Lease → Lease}
    (hjob : (s.workers w).phase.job? = some job) (hid : job.jobId = j)
    (hf : ∀ l, (f l).count = l.count ∧ (f l).owner = l.owner)
    (hown : ∀ l, L = .leased l → l.owner = w → wk.Agrees j (f l)) (hlate : wk.DroppedLate) :
    L.observe w f = some (L.mark w f) ∧ Sim j (s.setWorker w wk) (L.mark w f) := by
  have hgone : L.gone w = false := by
    cases L with
    | ready c last =>
        by_contra hg
        have hlast : last = some w := by simpa [Life.gone] using hg
        exact h.last c w (by rw [hlast]) job hjob hid
    | _ => rfl
  refine ⟨by simp [Life.observe, hgone], ?_⟩
  have hready : ∀ c v, L.mark w f = .ready c v → L = .ready c v := by
    intro c v hm
    cases L with
    | leased l => simp only [Life.mark] at hm; split at hm <;> cases hm
    | _ => exact hm
  refine ⟨shows_mark h.tables hf, fun hne => h.issued ?_, fun l hl => ?_, fun c v hl => ?_,
    fun v => ?_⟩
  · rintro rfl
    exact hne rfl
  · cases L with
    | leased l₀ =>
        simp only [Life.mark] at hl
        split_ifs at hl with hw
        · cases hl
          rw [(hf l₀).2, hw, State.setWorker_self]
          exact hown l₀ rfl hw
        · cases hl
          rw [State.setWorker_other _ _ hw]
          exact h.owner l rfl
    | _ => cases hl
  · have hL := hready c _ hl
    by_cases hv : v = w
    · subst hv
      exact absurd hid (h.last c v hL job hjob)
    · rw [State.setWorker_other _ _ hv]
      exact h.last c v hL
  · by_cases hv : v = w
    · subst hv; rw [State.setWorker_self]; exact hlate
    · rw [State.setWorker_other _ _ hv]; exact h.late v

/-- A statement of `w` is applied and its answer leaves `w` without a job. -/
theorem moved (h : Sim j s L) {L' : Life} {db : Db P} (hs : L'.Shows j db)
    (hm : L.Moves w L') (hjob : wk.phase.job? = none) (ha : wk.abandoned = (s.workers w).abandoned)
    (hd : ∀ st, wk.dropped = some st → (s.workers w).dropped = some st)
    (hlate : wk.DroppedLate) : Sim j ((s.setWorker w wk).setDb db) L' := by
  have hset : Sim j (s.setWorker w wk) L := by
    refine h.setWorker (fun l hl hw => Worker.agrees_of_none hjob ?_ ?_)
      (fun _ _ => Phase.clear_of_none hjob) hlate
    · subst hw
      rw [ha]
      exact (h.owner l hl).abandoned
    · subst hw
      exact fun st hst => (h.owner l hl).dropped st (hd st hst)
  cases hm with
  | same => exact { hset with tables := hs }
  | @ends l L' hw he =>
      refine ⟨hs, fun _ => h.issued nofun, fun l' hl' => ?_, fun c v hl' => ?_, hset.late⟩
      · subst hl'
        exact he.elim
      · subst hl'
        obtain rfl : v = w := by simpa [Life.endedBy] using he
        exact Phase.clear_of_none (by simpa using hjob)

/-- The claim of `w` is applied. -/
theorem claimed (h : Sim j s L) {window now : ℕ} {skip : List Uuid} {db : Db P}
    {row : Option (ClaimedRow P)} (hdb : claimRow w window now skip s.db = (db, row))
    (hjob : ∀ job, wk.phase.job? = some job → ∃ c, row = some c ∧ c.job = job)
    (hsucc : ∀ job, wk.phase ≠ .succeeded job) (ha : wk.abandoned = (s.workers w).abandoned)
    (hd : wk.dropped = none) :
    ∃ L', Life.replay j L (claimEvents w row) = some L' ∧
      Sim j ((s.setWorker w wk).setDb db) L' := by
  obtain ⟨L', hr, hs, ⟨rfl, hne⟩ | ⟨c, rfl, hid, habs, rfl⟩⟩ := claim_shows h.tables hdb
  · have hset : Sim j (s.setWorker w wk) L' := by
      refine h.setWorker (fun l hl hw => ?_) (fun c hc job hj => ?_) fun _ => hd
      · subst hw
        refine ⟨fun job hj hid => ?_, fun job hj => absurd hj (hsucc job),
          fun hl' => by rw [ha]; exact (h.owner l hl).abandoned hl',
          fun st hst => by rw [hd] at hst; cases hst⟩
        obtain ⟨c, hc, rfl⟩ := hjob job hj
        exact absurd hid (hne c hc)
      · obtain ⟨c', hc', rfl⟩ := hjob job hj
        exact hne c' hc'
    exact ⟨L', hr, { hset with tables := hs }⟩
  · refine ⟨_, hr, hs, fun _ => h.issued habs, fun l hl => ?_, nofun, fun v => ?_⟩
    · cases hl
      simp only [State.setDb_workers, State.setWorker_self]
      refine ⟨fun job hj _ => ?_, fun job hj => absurd hj (hsucc job), nofun,
        fun st hst => by rw [hd] at hst; cases hst⟩
      obtain ⟨c', hc', rfl⟩ := hjob job hj
      cases hc'
      exact ⟨rfl, rfl⟩
    · by_cases hv : v = w
      · subst hv
        simp only [State.setDb_workers, State.setWorker_self]
        exact fun _ => hd
      · simpa [State.setWorker_other _ _ hv] using h.late v

/-- The statement a phase waits for speaks about the lease as it is. -/
theorem statement_fits (h : Sim j s L) {cfg : Settings} {st : Statement P}
    (hst : (s.workers w).phase.statement cfg = some st) {l : Lease} (hl : L = .leased l)
    (hw : l.owner = w) : st.Fits j l := by
  subst hw
  have hag := h.owner l hl
  cases hp : (s.workers l.owner).phase with
  | fetching sentAt =>
      simp only [hp, Phase.statement, Option.some.injEq] at hst
      subst hst
      trivial
  | expiring c =>
      simp only [hp, Phase.statement, Option.some.injEq] at hst
      subst hst
      intro hid
      obtain ⟨hc, ha⟩ := hag.job c.job (by rw [hp]; rfl) hid
      exact ⟨ha, by simpa using hc⟩
  | succeeded job =>
      simp only [hp, Phase.statement, Option.some.injEq] at hst
      subst hst
      exact fun hid => ⟨(hag.job job (by rw [hp]; rfl) hid).2, hag.succeeded job hp hid⟩
  | failing job message =>
      have hjob := hag.job job (by rw [hp]; rfl)
      simp only [hp, Phase.statement] at hst
      split_ifs at hst
      · cases hst
        intro hid
        obtain ⟨hc, ha⟩ := hjob hid
        exact ⟨ha, by simp [hc]⟩
      · cases hst
        exact fun hid => (hjob hid).symm
  | _ => simp [hp, Phase.statement] at hst

/-- Leaving the loop with the statement in flight dropped. -/
theorem exit (h : Sim j s L) {cfg : Settings} {phase : Phase P} (hjob : phase.job? = none)
    (hphase : phase.live = false) :
    Sim j (s.setWorker w { (s.workers w).leave phase with
      dropped := (s.workers w).inFlight cfg }) L := by
  refine h.setWorker (fun l hl hw => Worker.agrees_of_none hjob ?_ ?_)
    (fun _ _ => Phase.clear_of_none hjob) fun hp => ?_
  · subst hw
    exact (h.owner l hl).abandoned
  · intro st hst
    simp only [Worker.inFlight, Option.or_eq_some_iff] at hst
    rcases hst with hst | ⟨-, hst⟩
    · exact h.statement_fits hst hl hw
    · subst hw
      exact (h.owner l hl).dropped st hst
  · rw [show (({ (s.workers w).leave phase with
      dropped := (s.workers w).inFlight cfg } : Worker P)).phase = phase from rfl, hphase] at hp
    cases hp

/-- A statement of `w`, in flight or dropped, is applied and leaves `w` without a job. -/
theorem applied (h : Sim j s L) {cfg : Settings} {now : ℕ} {skip : List Uuid} {st : Statement P}
    {db : Db P} {es : List Event} (hdb : st.apply cfg w now skip s.db = some (db, es))
    (hf : ∀ l, L = .leased l → l.owner = w → st.Fits j l) (hjob : wk.phase.job? = none)
    (ha : wk.abandoned = (s.workers w).abandoned) (hd : wk.dropped = none) :
    ∃ L', Life.replay j L es = some L' ∧ Sim j ((s.setWorker w wk).setDb db) L' := by
  cases hst : st.isClaim with
  | true =>
      cases st with
      | claim sentAt =>
          cases hdb
          exact h.claimed rfl (fun job hj => by rw [hjob] at hj; cases hj)
            (fun job hj => by rw [hj] at hjob; cases hjob) ha hd
      | _ => cases hst
  | false =>
      obtain ⟨L', hr, hs, hm⟩ := apply_shows h.tables hst hf hdb
      exact ⟨L', hr, h.moved hs hm hjob ha (fun st hst => by rw [hd] at hst; cases hst)
        fun _ => hd⟩

end Sim

theorem enqueue_shows {j : Uuid} {n : NewJob P} {db db' : Db P} {L : Life} (hL : L.Shows j db)
    (h : enqueueOnConnection n db = some db') (habs : n.jobId = j → L = .absent) :
    ∃ L', Life.replay j L [.inserted n.jobId] = some L' ∧ L'.Shows j db' ∧
      ((L' = L ∧ n.jobId ≠ j) ∨ n.jobId = j ∧ L' = .ready initialErrorCount none) := by
  simp only [enqueueOnConnection, Option.map_eq_some_iff] at h
  obtain ⟨t, ht, rfl⟩ := h
  rw [Life.replay, StepRun.replay_singleton]
  by_cases hj : n.jobId = j
  · obtain rfl := habs hj
    subst hj
    refine ⟨.ready initialErrorCount none, by simp [Life.step, Event.job],
      ⟨hL.2, n.row, ?_, rfl, rfl⟩, .inr ⟨rfl, rfl⟩⟩
    rw [KeyedTable.lookup_insert ht]
    exact if_pos rfl
  · refine ⟨L, Life.step_of_ne (e := .inserted _) hj L, hL.congr ?_ rfl, .inl ⟨rfl, hj⟩⟩
    have hne : j ≠ n.row.jobId := fun he => hj he.symm
    simpa [hne] using KeyedTable.lookup_insert ht j

theorem heartbeat_shows {j k : Uuid} {w : OwnerToken} {now n : ℕ} {db db' : Db P} {L : Life}
    (hL : L.Shows j db) (h : heartbeatRow w k now db = (db', n)) : L.Shows j db' := by
  cases h
  have hlook := lookup_updateJobs db (JobRow.ownedBy k w) (JobRow.refreshed now)
    (JobRow.refreshed_jobId now) j
  cases hr : db.jobs.lookup j with
  | none => exact hL.congr (by rw [hlook, hr]; rfl) rfl
  | some r =>
      rw [hr, Option.map_some] at hlook
      obtain ⟨hd, ⟨last, rfl, ho⟩ | ⟨l, rfl, ho, hc⟩⟩ := hL.of_lookup hr
      · refine ⟨hd, _, hlook, ?_, ?_⟩ <;> split <;> simp [JobRow.refreshed, ho]
      · refine ⟨hd, _, hlook, ?_, ?_⟩ <;> split <;> simp [JobRow.refreshed, ho, hc]

theorem Phase.job?_of_not_live {phase : Phase P} (h : phase.live = false) : phase.job? = none := by
  cases phase <;> first | rfl | cases h

theorem Phase.live_of_finalizing {phase : Phase P} (h : phase.finalizing = true) :
    phase.live = true := by
  cases phase <;> first | rfl | cases h

namespace Sim

variable {j : Uuid} {s : State P} {L : Life} {w : OwnerToken} {wk : Worker P}

theorem owns_eq (h : Sim j s L) (w : OwnerToken) : s.owns w j = L.heldBy w := by
  unfold State.owns
  cases hr : s.db.jobs.lookup j with
  | none =>
      cases L with
      | leased l =>
          obtain ⟨-, r, hr', -⟩ := h.tables
          rw [hr] at hr'
          cases hr'
      | _ => rfl
  | some r =>
      obtain ⟨-, ⟨last, rfl, ho⟩ | ⟨l, rfl, ho, -⟩⟩ := h.tables.of_lookup hr
      · simp [ho, Life.heldBy]
      · simp [ho, Life.heldBy]

/-- The worker gives up its claim, in the watchdog or before the body starts. -/
theorem abandons (h : Sim j s L) {job : JobFromDB P}
    (hjob : (s.workers w).phase.job? = some job) (hlive : (s.workers w).phase.live = true)
    (hnone : wk.phase.job? = none)
    (ha : ∀ k, k = job.jobId ∨ k ∈ (s.workers w).abandoned → k ∈ wk.abandoned)
    (hd : wk.dropped = (s.workers w).dropped) :
    ∃ L', Life.replay j L [.abandoned w job.jobId] = some L' ∧ Sim j (s.setWorker w wk) L' := by
  have hdrop : wk.dropped = none := hd.trans (h.late w hlive)
  rw [Life.replay, StepRun.replay_singleton]
  by_cases hid : job.jobId = j
  · have hown : ∀ l, L = .leased l → l.owner = w → wk.Agrees j { l with abandoned := true } :=
      fun l _ _ => Worker.agrees_of_none hnone (fun _ => ha j (.inl hid.symm))
        fun st hst => by rw [hdrop] at hst; cases hst
    obtain ⟨ho, hsim⟩ := h.observe (f := fun l => { l with abandoned := true }) hjob hid
      (fun _ => ⟨rfl, rfl⟩) hown fun _ => hdrop
    exact ⟨_, by simpa [Life.step, Event.job, hid] using ho, hsim⟩
  · exact ⟨L, Life.step_of_ne (e := .abandoned ..) hid L,
      h.settle hlive hnone (fun hm => ha j (.inr hm)) hd⟩

/-- The worker starts the body of the job it claimed. -/
theorem dispatches (h : Sim j s L) {job : JobFromDB P} {n : ℕ}
    (hjob : (s.workers w).phase.job? = some job) (hlive : (s.workers w).phase.live = true)
    (hnext : wk.phase.job? = some job) (hsucc : ∀ job, wk.phase ≠ .succeeded job)
    (ha : ∀ k, k ≠ job.jobId → k ∈ (s.workers w).abandoned → k ∈ wk.abandoned)
    (hd : wk.dropped = (s.workers w).dropped) :
    ∃ L', Life.replay j L [.dispatched w job.jobId n] = some L' ∧ Sim j (s.setWorker w wk) L' := by
  have hdrop : wk.dropped = none := hd.trans (h.late w hlive)
  rw [Life.replay, StepRun.replay_singleton]
  by_cases hid : job.jobId = j
  · have hown : ∀ l, L = .leased l → l.owner = w → wk.Agrees j { l with dispatched := true } := by
      rintro l hl rfl
      have hag := (h.owner l hl).job job hjob hid
      refine ⟨fun job' hj _ => ?_, fun job' hj => absurd hj (hsucc job'), fun hab => ?_,
        fun st hst => by rw [hdrop] at hst; cases hst⟩
      · rw [hnext] at hj
        cases hj
        exact hag
      · rw [show l.abandoned = true from hab] at hag
        cases hag.2
    obtain ⟨ho, hsim⟩ := h.observe (f := fun l => { l with dispatched := true }) hjob hid
      (fun _ => ⟨rfl, rfl⟩) hown fun _ => hdrop
    exact ⟨_, by simpa [Life.step, Event.job, hid] using ho, hsim⟩
  · refine ⟨L, Life.step_of_ne (e := .dispatched ..) hid L, h.quiet hlive (fun job' hj => ?_)
      (fun job' hj => absurd hj (hsucc job')) (fun _ hm => ha j (Ne.symm hid) hm) hd⟩
    rw [hjob, ← hnext, hj]

/-- The body returns; an `Ok` is recorded in the lease if the worker still holds it. -/
theorem returns (h : Sim j s L) {job : JobFromDB P} {error : Option String}
    (hjob : (s.workers w).phase.job? = some job) (hlive : (s.workers w).phase.live = true) :
    ∃ L', Life.replay j L [.returned w job.jobId error.isNone (s.owns w job.jobId)] = some L' ∧
      Sim j (s.setWorker w ((s.workers w).leave (.returned job error))) L' := by
  have hdrop := h.late w hlive
  have hnext : (Phase.returned job error).job? = some job := by cases error <;> rfl
  rw [Life.replay, StepRun.replay_singleton]
  by_cases hid : job.jobId = j
  · have hown : ∀ l, L = .leased l → l.owner = w →
        ((s.workers w).leave (.returned job error)).Agrees j
          { l with okOwned := l.okOwned || error.isNone } := by
      rintro l hl rfl
      have hag := (h.owner l hl).job job hjob hid
      refine ⟨fun job' hj _ => ?_, fun job' hj _ => ?_, fun hab => ?_,
        fun st hst => by rw [Worker.leave_dropped, hdrop] at hst; cases hst⟩
      · rw [Worker.leave_phase, hnext] at hj
        cases hj
        exact hag
      · cases error with
        | none => simp
        | some message => cases hj
      · rw [show l.abandoned = true from hab] at hag
        cases hag.2
    obtain ⟨ho, hsim⟩ := h.observe (f := fun l => { l with okOwned := l.okOwned || error.isNone })
      hjob hid (fun _ => ⟨rfl, rfl⟩) hown fun _ => hdrop
    refine ⟨_, ?_, hsim⟩
    simpa [Life.step, Event.job, hid, h.owns_eq] using ho
  · refine ⟨L, Life.step_of_ne (e := .returned ..) hid L, h.quiet hlive (fun job' hj => ?_)
      (fun job' hj => ?_) (fun _ => id) rfl⟩
    · rw [hjob, ← hj]
      exact hnext.symm
    · cases error with
      | none => cases hj; exact hid
      | some message => cases hj

/-- Every step of the queue is a stretch of the life of every job. -/
theorem step {cfg : OwnerToken → Settings} {s' : State P} {a : Action P} {es : List Event}
    (h : Sim j s L) (hs : Jobs.step cfg s a = some (s', es)) :
    ∃ L', Life.replay j L es = some L' ∧ Sim j s' L' := by
  have hlive : ∀ {w : OwnerToken} {phase : Phase P}, (s.workers w).phase = phase →
      phase.live = true → (s.workers w).phase.live = true := fun hp hl => hp ▸ hl
  cases step_took hs with
  | tick elapsed => exact ⟨L, rfl, ⟨h.tables, h.issued, h.owner, h.last, h.late⟩⟩
  | @enqueue n db hn hdb =>
      have habs : n.jobId = j → L = .absent := by
        rintro rfl
        by_contra hne
        exact hn (h.issued hne)
      obtain ⟨L', hr, hsh, ⟨rfl, hj⟩ | ⟨hj, rfl⟩⟩ := enqueue_shows h.tables hdb habs
      · exact ⟨L', hr, ⟨hsh, fun hne => List.mem_cons_of_mem _ (h.issued hne), h.owner, h.last,
          h.late⟩⟩
      · exact ⟨_, hr, ⟨hsh, fun _ => hj ▸ List.mem_cons_self .., nofun, nofun, h.late⟩⟩
  | sendClaim hp => exact ⟨L, rfl, h.settle (hlive hp rfl) rfl id rfl⟩
  | @applyClaim w now sentAt skip db row hp ht hdb =>
      refine h.claimed hdb ?_ nofun rfl (h.late w (hlive hp rfl))
      intro job hj
      cases row with
      | none => cases hj
      | some c => cases hj; exact ⟨c, rfl, rfl⟩
  | claimFails hp => exact ⟨L, rfl, h.settle (hlive hp rfl) rfl id rfl⟩
  | receiveNothing hp => exact ⟨L, rfl, h.settle (hlive hp rfl) rfl id rfl⟩
  | receiveExpired hp hprev hmax =>
      refine ⟨L, rfl, h.quiet (hlive hp rfl) (fun job hj => by rw [hp]; exact hj) nofun
        (fun hc ha => ?_) rfl⟩
      exact List.mem_filter.mpr ⟨ha, by simpa using Ne.symm (hc _ (by rw [hp]; rfl))⟩
  | @receiveLate w c hp hlim hlate =>
      refine h.abandons (by rw [hp]; rfl) (hlive hp rfl) rfl (fun k hk => ?_) rfl
      by_cases hkj : k = c.job.jobId
      · simp [Worker.abandon, hkj]
      · simpa [Worker.abandon, Worker.reclaim, hkj] using hk
  | dispatch hp hlim hintime =>
      exact h.dispatches (by rw [hp]; rfl) (hlive hp rfl) rfl nofun
        (fun k hk ha => List.mem_filter.mpr ⟨ha, by simpa using hk⟩) rfl
  | claimLost hp => exact ⟨L, rfl, h.settle (hlive hp rfl) rfl id rfl⟩
  | sendBeat hp ht =>
      exact ⟨L, rfl, h.quiet (hlive hp rfl) (fun job hj => by rw [hp]; exact hj) nofun
        (fun _ => id) rfl⟩
  | @applyBeat w job tracker nextTick now sentAt n db hp ht hdb =>
      have hq : Sim j (s.setPhase w (.running job tracker nextTick
          (some ⟨sentAt, some (n == 1)⟩))) L :=
        h.quiet (hlive hp rfl) (fun job hj => by rw [hp]; exact hj) nofun (fun _ => id) rfl
      exact ⟨L, rfl, { hq with tables := heartbeat_shows h.tables hdb }⟩
  | receiveBeat hp =>
      exact ⟨L, rfl, h.quiet (hlive hp rfl) (fun job hj => by rw [hp]; exact hj) nofun
        (fun _ => id) rfl⟩
  | beatRefused hp => exact ⟨L, rfl, h.settle (hlive hp rfl) rfl id rfl⟩
  | loseBeat hp =>
      exact ⟨L, rfl, h.quiet (hlive hp rfl) (fun job hj => by rw [hp]; exact hj) nofun
        (fun _ => id) rfl⟩
  | bodyReturns hp => exact h.returns (by rw [hp]; rfl) (hlive hp rfl)
  | watchdog hp ht =>
      exact h.abandons (by rw [hp]; rfl) (hlive hp rfl) rfl
        (fun k hk => by simpa [Worker.abandon, Worker.leave] using hk) rfl
  | @finish w now st db es hp ht hst hdb =>
      exact h.applied hdb (fun l hL hw => h.statement_fits hst hL hw) rfl rfl
        (h.late w (Phase.live_of_finalizing hp))
  | finishFails hp =>
      exact ⟨L, rfl, h.settle (Phase.live_of_finalizing hp) rfl id rfl⟩
  | shutdown hp => exact ⟨L, rfl, h.exit rfl rfl⟩
  | die hp => exact ⟨L, rfl, h.exit rfl rfl⟩
  | @cleanup w answered hp =>
      have hab : ∀ l, L = .leased l → l.owner = w → l.abandoned = true →
          j ∈ (s.workers w).abandoned := by
        rintro l hl rfl
        exact (h.owner l hl).abandoned
      obtain ⟨L', hr, hsh, hm⟩ := cleanup_shows h.tables hab
      exact ⟨L', hr, h.moved hsh hm rfl rfl (fun _ => id) nofun⟩
  | @cleanupFails w answered hp =>
      refine ⟨L, rfl, h.setWorker (fun l hl hw => ?_) (fun _ _ => Phase.clear_of_none rfl) nofun⟩
      subst hw
      have hag := h.owner l hl
      exact Worker.agrees_of_none rfl hag.abandoned hag.dropped
  | @applyDropped w now skip st db es hst ht hdb =>
      have hout : (s.workers w).phase.live = false := by
        by_contra hl
        rw [h.late w (by simpa using hl)] at hst
        cases hst
      refine h.applied hdb (fun l hl hw => ?_) (Phase.job?_of_not_live hout) rfl rfl
      subst hw
      exact (h.owner l hl).dropped st hst
  | @applyDroppedBeat w i now n b db hb ht hdb =>
      have hset : Sim j (s.setWorker w { s.workers w with
          beats := (s.workers w).beats.eraseIdx i }) L := by
        refine h.setWorker (fun l hl hw => ?_) (fun c hc => h.last c w hc) (h.late w)
        subst hw
        have hag := h.owner l hl
        exact ⟨hag.job, hag.succeeded, hag.abandoned, hag.dropped⟩
      exact ⟨L, rfl, { hset with tables := heartbeat_shows h.tables hdb }⟩

/-- The run of the queue, read as the life of one job. -/
theorem of_run {cfg : OwnerToken → Settings} {C : State P → Action P → Prop} {log : List Event}
    (j : Uuid) (h : QueueRun cfg C log s) :
    ∃ L, Life.replay j .absent log = some L ∧ Sim j s L :=
  h.simulates init fun _ _ _ _ _ hsim _ hs => hsim.step hs

end Sim

end Cja.Jobs
