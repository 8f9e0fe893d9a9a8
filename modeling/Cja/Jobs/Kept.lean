import Cja.Jobs.Exhausted
import Cja.Jobs.Payload

/-!
# Jobs that stay

A job with a row that nobody is about to delete after an `Ok`, and one among the dead
letters, is kept by every step but a body's return of `Ok` at the worker that owns the row.
-/
namespace Cja.Jobs

variable {P : Type} {cfg : OwnerToken → Settings} {s s' : State P} {a : Action P}
variable {es log : List Event} {j : Uuid} {w : OwnerToken}

/-- The job is in its table without an `Ok` under the lease, or among the dead letters. -/
def Life.kept : Life → Bool
  | ready _ _ => true
  | leased l => !l.okOwned
  | dead _ => true
  | _ => false

theorem Life.Moved.kept {L L' : Life} {e : Event} (h : Life.Moved j L e L')
    (hk : L.kept = true) (he : ∀ w, e ≠ .returned w j true true) : L'.kept = true := by
  have hmark : ∀ {w : OwnerToken} {f : Lease → Lease},
      (∀ l, L = .leased l → l.owner = w → (f l).okOwned = l.okOwned) →
      (L.mark w f).kept = true := by
    intro w f hf
    cases L with
    | leased l =>
        simp only [Life.mark]
        split_ifs with hw
        · simpa only [Life.kept, hf l rfl hw] using hk
        · exact hk
    | _ => exact hk
  cases h with
  | other => exact hk
  | inserted => rfl
  | claimed => rfl
  | dispatched => exact hmark fun _ _ _ => rfl
  | abandoned => exact hmark fun _ _ _ => rfl
  | @returned w ok hg =>
      refine hmark ?_
      rintro l rfl rfl
      cases ok with
      | false => exact Bool.or_false _
      | true => exact absurd (by simp [Life.heldBy]) (he l.owner)
  | failed => rfl
  | released => rfl
  | deadLettered => rfl
  | deleted hl ha hok =>
      subst hl
      rw [Life.kept, hok] at hk
      cases hk

/-- The job is kept after a log. -/
def Kept (j : Uuid) (log : List Event) (s : State P) : Prop :=
  ∃ L, Life.replay j .absent log = some L ∧ Sim j s L ∧ L.kept = true

/-- A step keeps the job where no body returns `Ok` to its owner. -/
theorem Kept.step (hk : Kept j log s) (hs : Jobs.step cfg s a = some (s', es))
    (hno : ∀ w, .returned w j true true ∉ es) : Kept j (log ++ es) s' := by
  obtain ⟨L, hlog, hsim, hL⟩ := hk
  obtain ⟨L', hr, hsim'⟩ := hsim.step hs
  refine ⟨L', StepRun.replay_trans hlog hr, hsim',
    Life.replay_induction (I := fun M => M.kept = true) ?_ hL hr⟩
  rintro M e M' he hM hm
  exact hm.kept hM fun w h => hno w (h ▸ he)

/-- A job that is enqueued is kept, and nobody owns it. -/
theorem Kept.enqueue {C : State P → Action P → Prop} (h : QueueRun cfg C log s) {n : NewJob P}
    (hs : Jobs.step cfg s (.enqueue n) = some (s', es)) :
    Kept n.jobId (log ++ es) s' ∧ s'.db.ownerOf n.jobId = none := by
  obtain ⟨L, hlog, hsim⟩ := Sim.of_run n.jobId h
  obtain ⟨L', hr, hsim'⟩ := hsim.step hs
  have hnew : L = .absent ∧ es = [.inserted n.jobId] := by
    cases step_took hs with
    | enqueue hn hdb =>
        refine ⟨?_, rfl⟩
        by_contra hne
        exact hn (hsim.issued hne)
  obtain ⟨rfl, rfl⟩ := hnew
  obtain rfl : L' = .ready initialErrorCount none := by
    simpa [Life.replay, StepRun.replay, Life.step, Event.job] using hr.symm
  exact ⟨⟨_, StepRun.replay_trans hlog hr, hsim', rfl⟩, hsim'.tables.ownerOf⟩

/-- A kept job has a row or is a dead letter. -/
theorem Life.Shows.of_kept {db : Db P} {L : Life} (h : L.Shows j db) (hk : L.kept = true) :
    (∃ r, db.jobs.lookup j = some r) ∨ ∃ d, d ∈ db.deadLetterJobs ∧ d.originalJobId = j := by
  cases L with
  | ready c last =>
      obtain ⟨-, r, hr, -⟩ := h
      exact .inl ⟨r, hr⟩
  | leased l =>
      obtain ⟨-, r, hr, -⟩ := h
      exact .inl ⟨r, hr⟩
  | dead n =>
      obtain ⟨-, d, hd, -⟩ := h
      have hmem : d ∈ db.deadOf j := hd ▸ List.mem_singleton_self d
      exact .inr ⟨d, (List.mem_filter.1 hmem).1, by simpa using (List.mem_filter.1 hmem).2⟩
  | _ => cases hk

/-! ## Bodies under their lease -/

/-- The job of a phase before its body returned. -/
def Phase.ahead? : Phase P → Option (JobFromDB P)
  | .fetched (some c) => some c.job
  | .running job _ _ _ => some job
  | _ => none

/-- A worker comes to have a job ahead of it by a claim. -/
theorem Took.ahead (h : Took cfg s a s' es) {job : JobFromDB P}
    (hjob : (s'.workers w).phase.ahead? = some job) :
    (s.workers w).phase.ahead? = some job ∨ ∃ p n, es = [.claimed w job.jobId p n] := by
  by_cases hw : a.worker = some w
  swap
  · rw [h.workers_other hw] at hjob
    exact .inl hjob
  cases h with
  | tick => cases hw
  | enqueue => cases hw
  | @applyClaim v now sentAt skip db row hp ht hdb =>
      cases hw
      rw [State.setDb_workers, State.setPhase_eq, State.setWorker_self] at hjob
      cases row with
      | none => cases hjob
      | some c =>
          cases hjob
          exact .inr ⟨_, _, rfl⟩
  | dispatch hp =>
      cases hw
      rw [State.setWorker_self] at hjob
      rw [hp]
      exact .inl hjob
  | sendBeat hp =>
      cases hw
      rw [State.setPhase_eq, State.setWorker_self] at hjob
      rw [hp]
      exact .inl hjob
  | applyBeat hp =>
      cases hw
      rw [State.setDb_workers, State.setPhase_eq, State.setWorker_self] at hjob
      rw [hp]
      exact .inl hjob
  | receiveBeat hp =>
      cases hw
      rw [State.setPhase_eq, State.setWorker_self] at hjob
      rw [hp]
      exact .inl hjob
  | loseBeat hp =>
      cases hw
      rw [State.setWorker_self] at hjob
      rw [hp]
      exact .inl hjob
  | @bodyReturns v error job' tracker nextTick beat hp =>
      cases hw
      rw [State.setWorker_self] at hjob
      cases error <;> cases hjob
  | applyDropped =>
      cases hw
      rw [State.setDb_workers, State.setWorker_self] at hjob
      exact .inl hjob
  | applyDroppedBeat =>
      cases hw
      rw [State.setDb_workers, State.setWorker_self] at hjob
      exact .inl hjob
  | _ =>
      cases hw
      simp [State.setPhase_eq, Worker.leave, Worker.abandon, Phase.ahead?] at hjob

/-- A lease has seen no `Ok` while its owner has the job ahead of it. -/
def Life.Ahead (j : Uuid) (s : State P) (L : Life) : Prop :=
  ∀ l job, L = .leased l → (s.workers l.owner).phase.ahead? = some job → job.jobId = j →
    l.okOwned = false

/-- An `Ok` under the lease of `w` comes from the body at `w`. -/
theorem Life.Moved.okOwned {M M' : Life} {e : Event} (h : Life.Moved j M e M')
    (hM' : ∃ l, M' = .leased l ∧ l.owner = w ∧ l.okOwned = true) :
    (∃ l, M = .leased l ∧ l.owner = w ∧ l.okOwned = true) ∨
      ∃ owned, e = .returned w j true owned := by
  obtain ⟨l, rfl, rfl, hok⟩ := hM'
  have hmark : ∀ {v : OwnerToken} {f : Lease → Lease}, Life.leased l = M.mark v f →
      (∀ l, (f l).owner = l.owner ∧ (f l).okOwned = l.okOwned) →
      ∃ l₀, M = .leased l₀ ∧ l₀.owner = l.owner ∧ l₀.okOwned = true := by
    intro v f hm hf
    obtain ⟨l₀, rfl, rfl | ⟨-, rfl⟩⟩ := Life.mark_eq_leased hm.symm
    · exact ⟨l, rfl, rfl, hok⟩
    · exact ⟨l₀, rfl, (hf l₀).1.symm, (hf l₀).2.symm.trans hok⟩
  generalize hL : Life.leased l = L' at h
  cases h with
  | other => exact .inl ⟨l, hL.symm, rfl, hok⟩
  | claimed => cases hL; cases hok
  | dispatched => exact .inl (hmark hL fun _ => ⟨rfl, rfl⟩)
  | abandoned => exact .inl (hmark hL fun _ => ⟨rfl, rfl⟩)
  | @returned v ok hg =>
      obtain ⟨l₀, rfl, rfl | ⟨rfl, rfl⟩⟩ := Life.mark_eq_leased hL.symm
      · exact .inl ⟨l, rfl, rfl, hok⟩
      · cases ok with
        | true => exact .inr ⟨_, rfl⟩
        | false => exact .inl ⟨l₀, rfl, rfl, by simpa using hok⟩
  | _ => cases hL

theorem Life.Ahead.step {L L' : Life} (ha : Life.Ahead j s L) (hr : Life.replay j L es = some L')
    (h : Took cfg s a s' es) : Life.Ahead j s' L' := by
  rintro l job rfl hjob rfl
  rcases h.ahead hjob with hold | ⟨p, n, rfl⟩
  · by_contra hok
    obtain ⟨e, he, owned, rfl⟩ := Life.replay_origin
      (I := fun M => ∃ l', M = .leased l' ∧ l'.owner = l.owner ∧ l'.okOwned = true)
      (E := fun e => ∃ owned, e = .returned l.owner job.jobId true owned)
      (fun M e M' hM => hM.okOwned) (fun ⟨l₀, hL, ho, hok₀⟩ => by
        rw [ha l₀ job hL (ho ▸ hold) rfl] at hok₀
        cases hok₀) hr ⟨l, rfl, rfl, by simpa using hok⟩
    obtain ⟨error, job', tracker, nextTick, beat, rfl, hp, -⟩ := h.returned_body he
    cases h with
    | bodyReturns hp' =>
        rw [State.setWorker_self] at hjob
        cases error <;> cases hjob
  · have hnew := Option.some.inj (Life.replay_claimed hr)
    exact (congrArg Lease.okOwned (Life.leased.inj hnew)).symm

theorem ahead_of_run {C : State P → Action P → Prop} (h : QueueRun cfg C log s) (j : Uuid) :
    ∃ L, Life.replay j .absent log = some L ∧ Sim j s L ∧ Life.Ahead j s L := by
  induction h with
  | start => exact ⟨.absent, rfl, .init, by simp [Life.Ahead]⟩
  | snoc hrun hc hs ih =>
      obtain ⟨L, hlog, hsim, hahead⟩ := ih
      obtain ⟨L', hr, hsim'⟩ := hsim.step hs
      exact ⟨L', StepRun.replay_trans hlog hr, hsim', hahead.step hr (step_took hs)⟩

theorem Phase.ahead?_of_body? {phase : Phase P} {job : JobFromDB P} (h : phase.body? = some job) :
    phase.ahead? = some job := by
  cases phase with
  | running job' tracker nextTick beat => exact h
  | _ => cases h

/-- The job of a body under its lease is kept. -/
theorem Kept.of_body {C : State P → Action P → Prop} (h : QueueRun cfg C log s)
    {job : JobFromDB P} (hown : s.db.ownerOf j = some w)
    (hbody : (s.workers w).phase.body? = some job) (hid : job.jobId = j) : Kept j log s := by
  obtain ⟨L, hlog, hsim, hahead⟩ := ahead_of_run h j
  refine ⟨L, hlog, hsim, ?_⟩
  rw [hsim.tables.ownerOf] at hown
  cases L with
  | leased l =>
      cases hown
      rw [Life.kept, hahead l job rfl (Phase.ahead?_of_body? hbody) hid]
      rfl
  | _ => cases hown

theorem Worker.Fresh.body? {wk : Worker P} (h : wk.Fresh) : wk.phase.body? = none := by
  rcases h.phase with ⟨row, hp⟩ | hlive
  · rw [hp]
    rfl
  · cases hp : wk.phase with
    | running => rw [hp] at hlive; cases hlive
    | _ => rfl

/-- A body of the owner of `j` after a step was one before, of the same owner. -/
theorem Took.owner_of_body (h : Took cfg s a s' es) (hlate : ∀ w, (s.workers w).DroppedLate)
    (hw : s'.db.ownerOf j = some w) {job : JobFromDB P}
    (hbody : (s'.workers w).phase.body? = some job) : s.db.ownerOf j = some w := by
  by_contra hnew
  have hnone := (h.owner hlate hw hnew).body?
  rw [hbody] at hnone
  cases hnone

end Cja.Jobs
