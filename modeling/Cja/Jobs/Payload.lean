import Cja.Jobs.Owners

/-!
# A job keeps its payload

Every copy of a job, in its row, with a worker, in a statement that was dropped or among
the dead letters, carries the payload it was enqueued with.
-/
namespace Cja.Jobs

variable {P : Type}

/-- The job whose body a worker polls. -/
def Phase.body? : Phase P → Option (JobFromDB P)
  | .running job _ _ _ => some job
  | _ => none

theorem Phase.job?_of_body? {phase : Phase P} {job : JobFromDB P} (h : phase.body? = some job) :
    phase.job? = some job := by
  cases phase with
  | running job' tracker nextTick beat => exact h
  | _ => cases h

/-- The job a statement is about. -/
def Statement.job? : Statement P → Option (JobFromDB P)
  | .claim _ => none
  | .delete job | .fail job _ | .deadLetter job _ _ _ => some job

/-- The tables hold each job under its payload. -/
structure Db.Carries (pay : Uuid → Option P) (db : Db P) : Prop where
  row : ∀ j r, db.jobs.lookup j = some r → pay j = some r.payload
  dead : ∀ d ∈ db.deadLetterJobs, pay d.originalJobId = some d.payload

/-- `pay` gives the payloads of the jobs enqueued so far. -/
structure State.Carries (pay : Uuid → Option P) (s : State P) : Prop where
  db : s.db.Carries pay
  job : ∀ w job, (s.workers w).phase.job? = some job → pay job.jobId = some job.payload
  dropped : ∀ w st, (s.workers w).dropped = some st →
    ∀ job, st.job? = some job → pay job.jobId = some job.payload
  issued : ∀ j p, pay j = some p → j ∈ s.issued

section

variable {pay : Uuid → Option P} {db db' : Db P} {cfg : Settings} {w : OwnerToken}

theorem Db.Carries.update (h : db.Carries pay) {p : JobRow P → Bool} {f : JobRow P → JobRow P}
    (hf : ∀ r, (f r).jobId = r.jobId) (hp : ∀ r, (f r).payload = r.payload) :
    (db.updateJobs p f hf).Carries pay where
  row j r hr := by
    rw [lookup_updateJobs, Option.map_eq_some_iff] at hr
    obtain ⟨q, hq, rfl⟩ := hr
    rw [h.row j q hq]
    split_ifs
    · rw [hp]
    · rfl
  dead := h.dead

theorem Db.Carries.delete (h : db.Carries pay) (p : JobRow P → Bool)
    {dead : List (DeadLetterRow P)}
    (hdead : ∀ d ∈ dead, pay d.originalJobId = some d.payload) :
    (⟨db.jobs.delete p, dead⟩ : Db P).Carries pay where
  row j r hr := by
    rw [KeyedTable.lookup_delete, Option.filter_eq_some_iff] at hr
    exact h.row j r hr.1
  dead := hdead

theorem Db.Carries.heartbeat (h : db.Carries pay) {k : Uuid} {now n : ℕ}
    (hdb : heartbeatRow w k now db = (db', n)) : db'.Carries pay := by
  cases hdb
  exact h.update _ fun _ => rfl

/-- A claim returns the job with the payload of its row. -/
theorem Db.Carries.claim (h : db.Carries pay) {window now : ℕ} {skip : List Uuid}
    {row : Option (ClaimedRow P)} (hdb : claimRow w window now skip db = (db', row)) :
    db'.Carries pay ∧ ∀ c, row = some c → pay c.job.jobId = some c.job.payload := by
  rcases claimRow_spec hdb with ⟨rfl, rfl⟩ | ⟨r, hr, -, rfl, rfl⟩
  · exact ⟨h, by simp⟩
  · refine ⟨h.update _ fun _ => rfl, ?_⟩
    rintro c ⟨⟩
    exact h.row _ r hr

theorem Db.Carries.apply (h : db.Carries pay) {st : Statement P} {now : ℕ} {skip : List Uuid}
    {es : List Event} (hst : ∀ job, st.job? = some job → pay job.jobId = some job.payload)
    (hdb : st.apply cfg w now skip db = some (db', es)) : db'.Carries pay := by
  cases st with
  | claim sentAt =>
      cases hdb
      exact (h.claim rfl).1
  | delete job =>
      cases hdb
      exact h.delete _ h.dead
  | fail job message =>
      simp only [Statement.apply, Option.map_eq_some_iff, Prod.mk.injEq] at hdb
      obtain ⟨⟨db₁, n⟩, hf, rfl, -⟩ := hdb
      unfold failRow at hf
      split_ifs at hf
      cases hf
      exact h.update _ fun _ => rfl
  | deadLetter job count message failedBody =>
      simp only [Statement.apply, Option.map_eq_some_iff, Prod.mk.injEq, deadLetterOwned_eq] at hdb
      obtain ⟨⟨db₁, owned⟩, hd, rfl, -⟩ := hdb
      split_ifs at hd
      · cases hd
        refine h.delete _ fun d hd => ?_
        rcases List.mem_append.1 hd with hd | hd
        · exact h.dead d hd
        · rw [List.mem_singleton.1 hd]
          exact hst job rfl
      · cases hd
        exact h

end

/-- The statement of a phase is about the job of the phase. -/
theorem Phase.statement_job {cfg : Settings} {phase : Phase P} {st : Statement P}
    {job : JobFromDB P} (h : phase.statement cfg = some st) (hjob : st.job? = some job) :
    phase.job? = some job := by
  cases phase with
  | fetching sentAt => cases h; cases hjob
  | expiring c => cases h; exact hjob
  | succeeded job => cases h; exact hjob
  | failing job message =>
      simp only [Phase.statement] at h
      split_ifs at h <;> cases h <;> exact hjob
  | _ => cases h

namespace State.Carries

variable {pay : Uuid → Option P} {s s' : State P} {w : OwnerToken}

theorem init : (State.init : State P).Carries fun _ => none where
  db := ⟨by simp [State.init, Db.empty], by simp [State.init, Db.empty]⟩
  job := by simp [State.init, Phase.job?]
  dropped := by simp [State.init]
  issued := by simp

/-- Worker `w` moves on, and the tables change. -/
theorem set (h : s.Carries pay) {wk : Worker P} {db : Db P} (hdb : db.Carries pay)
    (hjob : ∀ job, wk.phase.job? = some job → pay job.jobId = some job.payload)
    (hdropped : ∀ st, wk.dropped = some st → ∀ job, st.job? = some job →
      pay job.jobId = some job.payload) : ((s.setWorker w wk).setDb db).Carries pay where
  db := hdb
  job v := by
    rw [State.setDb_workers]
    by_cases hv : v = w
    · rw [hv, State.setWorker_self]
      exact hjob
    · rw [State.setWorker_other _ _ hv]
      exact h.job v
  dropped v := by
    rw [State.setDb_workers]
    by_cases hv : v = w
    · rw [hv, State.setWorker_self]
      exact hdropped
    · rw [State.setWorker_other _ _ hv]
      exact h.dropped v
  issued := h.issued

/-- Worker `w` moves on with the job it had, or with none. -/
theorem move (h : s.Carries pay) {wk : Worker P}
    (hjob : ∀ job, wk.phase.job? = some job → (s.workers w).phase.job? = some job)
    (hdropped : wk.dropped = (s.workers w).dropped) : (s.setWorker w wk).Carries pay :=
  h.set h.db (fun job hj => h.job w job (hjob job hj)) fun st hst => h.dropped w st (hdropped ▸ hst)

/-- A worker leaves the loop with the statement in flight dropped. -/
theorem exit (h : s.Carries pay) {cfg : Settings} {phase : Phase P} (hphase : phase.job? = none) :
    (s.setWorker w { (s.workers w).leave phase with
      dropped := (s.workers w).inFlight cfg }).Carries pay := by
  refine h.set h.db (fun job hj => ?_) fun st hst job hjob => ?_
  · have hnone : phase.job? = some job := hj
    rw [hphase] at hnone
    cases hnone
  · rcases Option.or_eq_some_iff.1 hst with hst | ⟨-, hst⟩
    · exact h.job w job (Phase.statement_job hst hjob)
    · exact h.dropped w st hst job hjob

theorem enqueue (h : s.Carries pay) {n : NewJob P} {db : Db P} (hn : n.jobId ∉ s.issued)
    (hdb : enqueueOnConnection n s.db = some db) :
    State.Carries (Function.update pay n.jobId (some n.payload))
      { s with db := db, issued := n.jobId :: s.issued } := by
  simp only [enqueueOnConnection, Option.map_eq_some_iff] at hdb
  obtain ⟨t, ht, rfl⟩ := hdb
  have hold : ∀ {j : Uuid} {p : P}, pay j = some p →
      Function.update pay n.jobId (some n.payload) j = some p := by
    intro j p hp
    have hne : j ≠ n.jobId := by
      rintro rfl
      exact hn (h.issued _ _ hp)
    rw [Function.update_of_ne hne, hp]
  refine ⟨⟨fun j r hr => ?_, fun d hd => hold (h.db.dead d hd)⟩, fun w job hj => hold (h.job w job hj),
    fun w st hst job hj => hold (h.dropped w st hst job hj), fun j p hp => ?_⟩
  · have hlook := KeyedTable.lookup_insert ht j
    rw [show t.lookup j = some r from hr] at hlook
    by_cases hj : j = n.jobId
    · subst hj
      rw [if_pos (show n.jobId = n.row.jobId from rfl), Option.some.injEq] at hlook
      rw [Function.update_self, hlook]
      rfl
    · rw [if_neg (show ¬ j = n.row.jobId from hj)] at hlook
      exact hold (h.db.row j r hlook.symm)
  · by_cases hj : j = n.jobId
    · exact hj ▸ List.mem_cons_self ..
    · rw [Function.update_of_ne hj] at hp
      exact List.mem_cons_of_mem _ (h.issued j p hp)

end State.Carries

/-- A step keeps the payloads known so far. -/
theorem Took.carries {cfg : OwnerToken → Settings} {pay : Uuid → Option P} {s s' : State P}
    {a : Action P} {es : List Event} (h : Took cfg s a s' es) (hc : s.Carries pay) :
    ∃ pay', s'.Carries pay' ∧ ∀ j p, pay j = some p → pay' j = some p := by
  have hsame : s'.Carries pay →
      ∃ pay', s'.Carries pay' ∧ ∀ j p, pay j = some p → pay' j = some p :=
    fun h' => ⟨pay, h', fun _ _ => id⟩
  cases h with
  | tick elapsed => exact hsame ⟨hc.db, hc.job, hc.dropped, hc.issued⟩
  | @enqueue n db hn hdb =>
      refine ⟨_, hc.enqueue hn hdb, fun j p hp => ?_⟩
      have hne : j ≠ n.jobId := by
        rintro rfl
        exact hn (hc.issued _ _ hp)
      rw [Function.update_of_ne hne, hp]
  | @applyClaim w now sentAt skip db row hp ht hdb =>
      obtain ⟨hdb', hrow⟩ := hc.db.claim hdb
      refine hsame (hc.set hdb' ?_ (hc.dropped w))
      intro job hj
      cases row with
      | none => cases hj
      | some c =>
          cases hj
          exact hrow c rfl
  | receiveExpired hp => exact hsame (hc.move (by rw [hp]; exact fun _ => id) rfl)
  | dispatch hp => exact hsame (hc.move (by rw [hp]; exact fun _ => id) rfl)
  | sendBeat hp => exact hsame (hc.move (by rw [hp]; exact fun _ => id) rfl)
  | @applyBeat w job tracker nextTick now sentAt n db hp ht hdb =>
      exact hsame (hc.set (hc.db.heartbeat hdb) (fun j hj => hc.job w j (by rw [hp]; exact hj))
        (hc.dropped w))
  | receiveBeat hp => exact hsame (hc.move (by rw [hp]; exact fun _ => id) rfl)
  | loseBeat hp => exact hsame (hc.move (by rw [hp]; exact fun _ => id) rfl)
  | @bodyReturns w error job tracker nextTick beat hp =>
      refine hsame (hc.move (fun j hj => ?_) rfl)
      rw [hp]
      cases error <;> exact hj
  | @finish w now st db es hp ht hst hdb =>
      refine hsame (hc.set (hc.db.apply ?_ hdb) (fun j hj => by cases hj) (hc.dropped w))
      exact fun job hjob => hc.job w job (Phase.statement_job hst hjob)
  | shutdown hp => exact hsame (hc.exit rfl)
  | die hp => exact hsame (hc.exit rfl)
  | @cleanup w answered hp =>
      refine hsame (hc.set ?_ (fun j hj => by cases hj) (hc.dropped w))
      exact hc.db.update _ fun _ => rfl
  | @applyDropped w now skip st db es hst ht hdb =>
      refine hsame (hc.set (hc.db.apply (hc.dropped w st hst) hdb) (hc.job w) (by simp))
  | @applyDroppedBeat w i now n b db hb ht hdb =>
      exact hsame (hc.set (hc.db.heartbeat hdb) (hc.job w) (hc.dropped w))
  | _ => exact hsame (hc.move (fun j hj => by cases hj) rfl)

/-- A worker that polls a body before and after a step polls the same. -/
theorem Took.body_eq {cfg : OwnerToken → Settings} {s s' : State P} {a : Action P}
    {es : List Event} (h : Took cfg s a s' es) {w : OwnerToken} {job job' : JobFromDB P}
    (hbody : (s.workers w).phase.body? = some job)
    (hbody' : (s'.workers w).phase.body? = some job') : job' = job := by
  by_cases hw : a.worker = some w
  swap
  · rw [h.workers_other hw, hbody] at hbody'
    exact (Option.some.inj hbody').symm
  have hsame : ∀ {v : OwnerToken} {phase : Phase P} {k k' : JobFromDB P},
      (s.workers v).phase = phase → v = w → phase.body? = some k →
      (s'.workers w).phase.body? = some k' → k' = k → job' = job := by
    rintro v phase k k' hp rfl hk hk' rfl
    rw [hp, hk] at hbody
    rw [hk'] at hbody'
    exact (Option.some.inj hbody').symm.trans (Option.some.inj hbody)
  cases h with
  | tick => cases hw
  | enqueue => cases hw
  | sendBeat hp => cases hw; exact hsame hp rfl rfl (by simp [State.setPhase_eq, Phase.body?]) rfl
  | applyBeat hp =>
      cases hw
      exact hsame hp rfl rfl (by simp [State.setPhase_eq, Phase.body?]) rfl
  | receiveBeat hp =>
      cases hw
      exact hsame hp rfl rfl (by simp [State.setPhase_eq, Phase.body?]) rfl
  | loseBeat hp => cases hw; exact hsame hp rfl rfl (by simp [Phase.body?]) rfl
  | dispatch hp => cases hw; rw [hp] at hbody; cases hbody
  | @bodyReturns v error job tracker nextTick beat hp =>
      cases hw
      rw [State.setWorker_self] at hbody'
      cases error <;> cases hbody'
  | applyDropped =>
      cases hw
      rw [State.setDb_workers, State.setWorker_self] at hbody'
      exact (Option.some.inj (hbody.symm.trans hbody')).symm
  | applyDroppedBeat =>
      cases hw
      rw [State.setDb_workers, State.setWorker_self] at hbody'
      exact (Option.some.inj (hbody.symm.trans hbody')).symm
  | _ =>
      cases hw
      simp [State.setPhase_eq, Worker.leave, Worker.abandon, Phase.body?] at hbody'

end Cja.Jobs
