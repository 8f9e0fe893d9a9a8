import Cja.Jobs.Life

/-!
# The tables show the life of every job

`Life.Shows` reads a life off the two tables. Every statement moves the life of
every job as the events it records say, whoever sent it and whenever the
database applies it; a statement that finds its row taken over changes nothing.
-/
namespace Cja.Jobs

variable {P : Type}

/-! ## What the tables show -/

/-- The row of a job that is not dead-lettered. -/
def Db.Queued (db : Db P) (j : Uuid) (owner : Option OwnerToken) (count : ℕ) : Prop :=
  db.deadOf j = [] ∧
    ∃ r, db.jobs.lookup j = some r ∧ r.lockedBy = owner ∧ r.errorCount = count

def Life.Shows (j : Uuid) (db : Db P) : Life → Prop
  | .absent => db.jobs.lookup j = none ∧ db.deadOf j = []
  | .ready c _ => db.Queued j none c
  | .leased l => db.Queued j (some l.owner) l.count
  | .dead n => db.jobs.lookup j = none ∧ ∃ d, db.deadOf j = [d] ∧ d.errorCount = n
  | .completed _ => db.jobs.lookup j = none ∧ db.deadOf j = []

/-- A statement of the lease's owner speaks about the lease as it is, and not
about one the owner has abandoned. -/
def Statement.Fits (j : Uuid) (l : Lease) : Statement P → Prop
  | .claim _ => True
  | .delete job => job.jobId = j → l.abandoned = false ∧ l.okOwned = true
  | .fail job _ => job.jobId = j → l.abandoned = false ∧ job.errorCount = l.count
  | .deadLetter job count _ failedBody =>
      job.jobId = j → l.abandoned = false ∧ count = l.count + failedBody.toNat

def Statement.isClaim : Statement P → Bool
  | .claim _ => true
  | _ => false

theorem Phase.statement_not_claim {cfg : Settings} {phase : Phase P} {st : Statement P}
    (hp : phase.finalizing = true) (h : phase.statement cfg = some st) : st.isClaim = false := by
  cases phase with
  | expiring c => cases h; rfl
  | succeeded job => cases h; rfl
  | failing job message =>
      simp only [Phase.statement] at h
      split_ifs at h <;> cases h <;> rfl
  | _ => cases hp

/-- The end of a lease of `w`. -/
def Life.endedBy (w : OwnerToken) : Life → Prop
  | .ready _ last => last = some w
  | .dead _ | .completed _ => True
  | _ => False

/-- What a statement of `w` other than a claim can do to a life. -/
inductive Life.Moves (w : OwnerToken) : Life → Life → Prop
  | same (L : Life) : Moves w L L
  | ends {l : Lease} {L' : Life} : l.owner = w → L'.endedBy w → Moves w (.leased l) L'

theorem lookup_updateJobs (db : Db P) (p : JobRow P → Bool) (f : JobRow P → JobRow P)
    (hf : ∀ r, (f r).jobId = r.jobId) (k : Uuid) :
    (db.updateJobs p f hf).jobs.lookup k =
      (db.jobs.lookup k).map fun r => if p r then f r else r :=
  KeyedTable.lookup_update _ _ _ hf _

@[simp] theorem deadOf_updateJobs (db : Db P) (p : JobRow P → Bool) (f : JobRow P → JobRow P)
    (hf : ∀ r, (f r).jobId = r.jobId) (j : Uuid) :
    (db.updateJobs p f hf).deadOf j = db.deadOf j := rfl

/-- A statement that leaves the row of `j` and its dead letters alone. -/
theorem Life.Shows.congr {j : Uuid} {db db' : Db P} {L : Life} (h : L.Shows j db)
    (hl : db'.jobs.lookup j = db.jobs.lookup j) (hd : db'.deadOf j = db.deadOf j) :
    L.Shows j db' := by
  cases L <;> simpa only [Life.Shows, Db.Queued, hl, hd] using h

/-- An update whose rows do not include the row of `j`. -/
theorem Life.Shows.update_other {j : Uuid} {db : Db P} {L : Life} (h : L.Shows j db)
    {p : JobRow P → Bool} {f : JobRow P → JobRow P} (hf : ∀ r, (f r).jobId = r.jobId)
    (hp : ∀ r, db.jobs.lookup j = some r → p r = false) :
    L.Shows j (db.updateJobs p f hf) := by
  refine h.congr ?_ rfl
  rw [lookup_updateJobs]
  cases hr : db.jobs.lookup j with
  | none => rfl
  | some r => simp [hp r hr]

/-- The row of `j`, where there is one, is ready or leased as its lock says. -/
theorem Life.Shows.of_lookup {j : Uuid} {db : Db P} {L : Life} {r : JobRow P}
    (h : L.Shows j db) (hr : db.jobs.lookup j = some r) :
    db.deadOf j = [] ∧ ((∃ last, L = .ready r.errorCount last ∧ r.lockedBy = none) ∨
      ∃ l, L = .leased l ∧ r.lockedBy = some l.owner ∧ r.errorCount = l.count) := by
  cases L with
  | absent => rw [h.1] at hr; cases hr
  | ready c last =>
      obtain ⟨hd, r', hr', ho, hc⟩ := h
      rw [hr'] at hr
      cases hr
      exact ⟨hd, .inl ⟨last, by rw [hc], ho⟩⟩
  | leased l =>
      obtain ⟨hd, r', hr', ho, hc⟩ := h
      rw [hr'] at hr
      cases hr
      exact ⟨hd, .inr ⟨l, rfl, ho, hc⟩⟩
  | dead n => rw [h.1] at hr; cases hr
  | completed n => rw [h.1] at hr; cases hr

/-- A row owned by `w` is the row of a lease of `w`. -/
theorem Life.Shows.of_owned {j : Uuid} {db : Db P} {L : Life} {w : OwnerToken}
    (h : L.Shows j db) (ho : (db.jobs.lookup j).any (fun r => r.lockedBy == some w) = true) :
    ∃ l r, L = .leased l ∧ l.owner = w ∧ db.jobs.lookup j = some r ∧
      r.lockedBy = some w ∧ r.errorCount = l.count ∧ db.deadOf j = [] := by
  rw [Option.any_eq_true] at ho
  obtain ⟨r, hr, hw⟩ := ho
  have hw : r.lockedBy = some w := by simpa using hw
  obtain ⟨hd, ⟨last, -, hn⟩ | ⟨l, rfl, hl, hc⟩⟩ := h.of_lookup hr
  · rw [hn] at hw; cases hw
  · have : l.owner = w := by rw [hl] at hw; simpa using hw
    exact ⟨l, r, rfl, this, hr, hw, hc, hd⟩

/-! ## Each statement moves the life -/

theorem claimRow_spec {w : OwnerToken} {window now : ℕ} {skip : List Uuid} {db db' : Db P}
    {row : Option (ClaimedRow P)} (h : claimRow w window now skip db = (db', row)) :
    (db' = db ∧ row = none) ∨
    ∃ r, db.jobs.lookup r.jobId = some r ∧ r.claimable now window = true ∧
      row = some ⟨(r.claimedBy w now).toJob, r.lockedBy, r.errorCount⟩ ∧
      db' = db.updateJobs (fun q => q.jobId == r.jobId) (JobRow.claimedBy w now)
        (JobRow.claimedBy_jobId w now) := by
  unfold claimRow at h
  cases hc : candidate now window skip db.jobs with
  | none =>
      simp only [hc, Prod.mk.injEq] at h
      exact .inl ⟨h.1.symm, h.2.symm⟩
  | some r =>
      simp only [hc, Prod.mk.injEq] at h
      obtain ⟨hr, hcl⟩ := candidate_spec hc
      exact .inr ⟨r, hr, hcl, h.2.symm, h.1.symm⟩

/-- A claim either leaves the life of `j` alone or starts a lease on `j`. -/
theorem claim_shows {j : Uuid} {w : OwnerToken} {window now : ℕ} {skip : List Uuid}
    {db db' : Db P} {row : Option (ClaimedRow P)} {L : Life} (hL : L.Shows j db)
    (h : claimRow w window now skip db = (db', row)) :
    ∃ L', Life.replay j L (claimEvents w row) = some L' ∧ L'.Shows j db' ∧
      ((L' = L ∧ ∀ c, row = some c → c.job.jobId ≠ j) ∨
        ∃ c, row = some c ∧ c.job.jobId = j ∧ L ≠ .absent ∧
          L' = .leased { owner := w, count := c.job.errorCount }) := by
  rcases claimRow_spec h with ⟨rfl, rfl⟩ | ⟨r, hr, -, rfl, rfl⟩
  · exact ⟨L, rfl, hL, .inl ⟨rfl, by simp⟩⟩
  simp only [claimEvents, Life.replay, StepRun.replay_singleton]
  by_cases hj : r.jobId = j
  swap
  · refine ⟨L, Life.step_of_ne (e := .claimed ..) hj L, hL.update_other _ ?_, .inl ⟨rfl, ?_⟩⟩
    · intro q hq
      have := KeyedTable.key_of_lookup hq
      simpa [this] using Ne.symm hj
    · rintro c ⟨⟩
      exact hj
  subst hj
  obtain ⟨hd, hlife⟩ := hL.of_lookup hr
  refine ⟨.leased { owner := w, count := (r.claimedBy w now).errorCount }, ?_, ?_,
    .inr ⟨_, rfl, rfl, ?_, rfl⟩⟩
  · obtain ⟨last, rfl, hn⟩ | ⟨l, rfl, ho, hc⟩ := hlife
    · simp [Life.step, Event.job, Life.claim, JobRow.claimedBy, JobRow.toJob, hn]
    · simp [Life.step, Event.job, Life.claim, JobRow.claimedBy, JobRow.toJob, ho, hc]
  · refine ⟨by rw [deadOf_updateJobs, hd], r.claimedBy w now, ?_, rfl, rfl⟩
    rw [lookup_updateJobs, hr]
    simp
  · rintro rfl
    simp at hlife

theorem delete_shows {j : Uuid} {w : OwnerToken} {job : JobFromDB P} {db : Db P} {L : Life}
    (hL : L.Shows j db)
    (hf : ∀ l, L = .leased l → l.owner = w → (Statement.delete job).Fits j l) :
    ∃ L', Life.replay j L (if (deleteRow w job.jobId db).2 = 1 then
        [.deleted w job.jobId] else []) = some L' ∧
      L'.Shows j (deleteRow w job.jobId db).1 ∧ L.Moves w L' := by
  have hlook : (deleteRow w job.jobId db).1.jobs.lookup j =
      (db.jobs.lookup j).filter fun r => !r.ownedBy job.jobId w :=
    KeyedTable.lookup_delete _ _ _
  by_cases hown : (db.jobs.lookup job.jobId).any (fun r => r.lockedBy == some w) = true
  swap
  · have hn : (deleteRow w job.jobId db).2 = 0 := by simp [deleteRow, affected_owned, hown]
    refine ⟨L, by simp [hn, StepRun.replay], hL.congr ?_ rfl, .same L⟩
    rw [hlook]
    cases hr : db.jobs.lookup j with
    | none => rfl
    | some r =>
        have : r.ownedBy job.jobId w = false := by
          by_contra hb
          rw [Bool.not_eq_false, JobRow.ownedBy_iff] at hb
          have hk := KeyedTable.key_of_lookup hr
          rw [hb.1] at hk
          rw [hk, hr] at hown
          simp [hb.2] at hown
        simp [this]
  have hn : (deleteRow w job.jobId db).2 = 1 := by simp [deleteRow, affected_owned, hown]
  simp only [hn, if_true, Life.replay, StepRun.replay_singleton]
  by_cases hj : job.jobId = j
  swap
  · refine ⟨L, Life.step_of_ne (e := .deleted ..) hj L, hL.congr ?_ rfl, .same L⟩
    rw [hlook]
    cases hr : db.jobs.lookup j with
    | none => rfl
    | some r =>
        have hk := KeyedTable.key_of_lookup hr
        simp [JobRow.ownedBy, hk, Ne.symm hj]
  subst hj
  obtain ⟨l, r, rfl, hw, hr, hrw, -, hd⟩ := hL.of_owned hown
  refine ⟨.completed l.count, ?_, ⟨?_, hd⟩, .ends hw trivial⟩
  · obtain ⟨ha, hok⟩ := hf l rfl hw rfl
    simp [Life.step, Event.job, Life.leave, hw, ha, hok]
  · rw [hlook, hr]
    simp [JobRow.ownedBy, KeyedTable.key_of_lookup hr, hrw]

theorem failable_false {j k : Uuid} {w : OwnerToken} {r : JobRow P} (hr : r.jobId = j)
    (hk : k ≠ j) : r.failable k w = false := by
  simp [JobRow.failable, JobRow.ownedBy, hr, Ne.symm hk]

theorem affected_failable (t : JobTable P) (j : Uuid) (w : OwnerToken) :
    t.affected (JobRow.failable j w) =
      if (t.lookup j).any fun r => r.lockedBy == some w && r.errorCount < i32Max then 1
      else 0 := by
  rw [KeyedTable.affected_eq t (k := j) (by simp +contextual [JobRow.failable])]
  cases h : t.lookup j with
  | none => rfl
  | some r => simp [JobRow.failable, JobRow.ownedBy, KeyedTable.key_of_lookup h]

theorem fail_shows {j : Uuid} {w : OwnerToken} {job : JobFromDB P} {message : String}
    {now n : ℕ} {db db' : Db P} {L : Life} (hL : L.Shows j db)
    (hf : ∀ l, L = .leased l → l.owner = w → (Statement.fail job message).Fits j l)
    (h : failRow w job.jobId message now db = some (db', n)) :
    ∃ L', Life.replay j L (if n = 1 then [.failed w job.jobId] else []) = some L' ∧
      L'.Shows j db' ∧ L.Moves w L' := by
  unfold failRow at h
  split_ifs at h
  simp only [Option.some.injEq, Prod.mk.injEq] at h
  obtain ⟨rfl, rfl⟩ := h
  by_cases hj : job.jobId = j
  swap
  · refine ⟨L, ?_, hL.update_other _ fun r hr => failable_false (KeyedTable.key_of_lookup hr) hj,
      .same L⟩
    split_ifs
    · simp only [Life.replay, StepRun.replay_singleton]
      exact Life.step_of_ne (e := .failed ..) hj L
    · rfl
  subst hj
  rw [affected_failable]
  cases hr : db.jobs.lookup job.jobId with
  | none =>
      exact ⟨L, by simp [StepRun.replay], hL.update_other _ (by simp [hr]), .same L⟩
  | some r =>
      by_cases hm : r.lockedBy = some w ∧ r.errorCount < i32Max
      swap
      · have hfalse : (r.lockedBy == some w && decide (r.errorCount < i32Max)) = false := by
          simpa using hm
        refine ⟨L, by simp [hfalse, StepRun.replay], hL.update_other _ ?_, .same L⟩
        intro q hq
        rw [hr] at hq
        cases hq
        simp only [JobRow.failable, JobRow.ownedBy, KeyedTable.key_of_lookup hr, beq_self_eq_true,
          Bool.true_and]
        exact hfalse
      have hown : (db.jobs.lookup job.jobId).any (fun r => r.lockedBy == some w) = true := by
        simp [hr, hm.1]
      obtain ⟨l, r', rfl, hw, hr', hrw, hc, hd⟩ := hL.of_owned hown
      rw [hr] at hr'
      cases hr'
      refine ⟨.ready (l.count + 1) (some w), ?_, ⟨hd, JobRow.failedWith message now r, ?_, rfl, ?_⟩,
        .ends hw rfl⟩
      · have ha := (hf l rfl hw rfl).1
        simp [Life.step, Event.job, Life.leave, hw, hm, ha, StepRun.replay_singleton]
      · rw [lookup_updateJobs, hr]
        simp [JobRow.failable, JobRow.ownedBy, KeyedTable.key_of_lookup hr, hm]
      · simp [JobRow.failedWith, hc]

/-- The error branch of the dead-letter transaction is never taken. -/
theorem deadLetterOwned_eq (w : OwnerToken) (job : JobFromDB P) (count : ℕ) (message : String)
    (now : ℕ) (db : Db P) :
    deadLetterOwned w job count message now db =
      if (db.jobs.lookup job.jobId).any (fun r => r.lockedBy == some w) then
        some (⟨db.jobs.delete (JobRow.ownedBy job.jobId w),
          db.deadLetterJobs ++ [job.deadLetter count message now]⟩, true)
      else some (db, false) := by
  unfold deadLetterOwned
  rw [any_owned]
  split_ifs with h
  · simp [deleteRow, affected_owned, h]
  · rfl

theorem deadLetter_shows {j : Uuid} {w : OwnerToken} {job : JobFromDB P} {count now : ℕ}
    {message : String} {failedBody owned : Bool} {db db' : Db P} {L : Life} (hL : L.Shows j db)
    (hf : ∀ l, L = .leased l → l.owner = w →
      (Statement.deadLetter job count message failedBody).Fits j l)
    (h : deadLetterOwned w job count message now db = some (db', owned)) :
    ∃ L', Life.replay j L (if owned then [.deadLettered w job.jobId count failedBody] else []) =
        some L' ∧ L'.Shows j db' ∧ L.Moves w L' := by
  rw [deadLetterOwned_eq] at h
  split_ifs at h with hown
  swap
  · simp only [Option.some.injEq, Prod.mk.injEq] at h
    obtain ⟨rfl, rfl⟩ := h
    exact ⟨L, rfl, hL, .same L⟩
  simp only [Option.some.injEq, Prod.mk.injEq] at h
  obtain ⟨rfl, rfl⟩ := h
  simp only [if_true, Life.replay, StepRun.replay_singleton]
  by_cases hj : job.jobId = j
  swap
  · refine ⟨L, Life.step_of_ne (e := .deadLettered ..) hj L, hL.congr ?_ ?_, .same L⟩
    · change (db.jobs.delete _).lookup j = _
      rw [KeyedTable.lookup_delete]
      cases hr : db.jobs.lookup j with
      | none => rfl
      | some r => simp [JobRow.ownedBy, KeyedTable.key_of_lookup hr, Ne.symm hj]
    · simp [Db.deadOf, JobFromDB.deadLetter, hj]
  subst hj
  obtain ⟨l, r, rfl, hw, hr, hrw, -, hd⟩ := hL.of_owned hown
  obtain ⟨ha, hcount⟩ := hf l rfl hw rfl
  refine ⟨.dead count, ?_, ⟨?_, job.deadLetter count message now, ?_, rfl⟩, .ends hw trivial⟩
  · simp [Life.step, Event.job, Life.leave, hw, ha, hcount]
  · change (db.jobs.delete _).lookup _ = none
    rw [KeyedTable.lookup_delete, hr]
    simp [JobRow.ownedBy, KeyedTable.key_of_lookup hr, hrw]
  · have hd' : db.deadLetterJobs.filter (fun d => d.originalJobId = job.jobId) = [] := hd
    simp [Db.deadOf, hd', JobFromDB.deadLetter]

/-- A statement of `w` other than a claim, applied at any moment, moves the
life of `j` as the events it records say, and only by ending a lease of `w`. -/
theorem apply_shows {cfg : Settings} {j : Uuid} {w : OwnerToken} {now : ℕ} {skip : List Uuid}
    {st : Statement P} {db db' : Db P} {es : List Event} {L : Life} (hL : L.Shows j db)
    (hclaim : st.isClaim = false) (hf : ∀ l, L = .leased l → l.owner = w → st.Fits j l)
    (h : st.apply cfg w now skip db = some (db', es)) :
    ∃ L', Life.replay j L es = some L' ∧ L'.Shows j db' ∧ L.Moves w L' := by
  cases st with
  | claim sentAt => cases hclaim
  | delete job =>
      cases h
      exact delete_shows hL hf
  | fail job message =>
      simp only [Statement.apply, Option.map_eq_some_iff, Prod.mk.injEq] at h
      obtain ⟨⟨db₁, n⟩, hr, rfl, rfl⟩ := h
      exact fail_shows hL hf hr
  | deadLetter job count message failedBody =>
      simp only [Statement.apply, Option.map_eq_some_iff, Prod.mk.injEq] at h
      obtain ⟨⟨db₁, owned⟩, hr, rfl, rfl⟩ := h
      exact deadLetter_shows hL hf hr

/-- Of one job, cleanup releases the row or nothing. -/
theorem releasedEvents_filter (w : OwnerToken) (abandoned : List Uuid) (db : Db P) (j : Uuid) :
    (releasedEvents w abandoned db).filter (fun e => e.job = j) =
      ((db.jobs.lookup j).filter (JobRow.releasable w abandoned)).toList.map
        fun r => .released w r.jobId := by
  have hkey := KeyedTable.filter_key db.jobs j
  rw [releasedEvents, List.filter_map, List.filter_filter]
  have hcomm : (db.jobs.rows.filter fun r =>
      ((fun e : Event => decide (e.job = j)) ∘ fun r => Event.released w r.jobId) r &&
        JobRow.releasable w abandoned r) =
      (db.jobs.rows.filter fun r => r.jobId = j).filter (JobRow.releasable w abandoned) := by
    rw [List.filter_filter]
    exact List.filter_congr fun r _ => Bool.and_comm _ _
  rw [hcomm, hkey]
  cases db.jobs.lookup j with
  | none => rfl
  | some r => by_cases h : r.releasable w abandoned <;> simp [Option.filter, h]

/-- Cleanup releases the rows of `w` outside the abandoned set. -/
theorem cleanup_shows {j : Uuid} {w : OwnerToken} {abandoned : List Uuid} {db : Db P} {L : Life}
    (hL : L.Shows j db)
    (ha : ∀ l, L = .leased l → l.owner = w → l.abandoned = true → j ∈ abandoned) :
    ∃ L', Life.replay j L (releasedEvents w abandoned db) = some L' ∧
      L'.Shows j (cleanupWorkerLocks w abandoned db) ∧ L.Moves w L' := by
  rw [← Life.replay_filter, releasedEvents_filter]
  by_cases hr : ∃ r, db.jobs.lookup j = some r ∧ r.releasable w abandoned = true
  swap
  · have hnone : (db.jobs.lookup j).filter (JobRow.releasable w abandoned) = none := by
      cases h : db.jobs.lookup j with
      | none => rfl
      | some r =>
          have : r.releasable w abandoned = false := by
            by_contra hb
            exact hr ⟨r, h, by simpa using hb⟩
          simp [Option.filter, this]
    refine ⟨L, by simp [hnone, StepRun.replay], hL.update_other _ fun r h => ?_, .same L⟩
    by_contra hb
    exact hr ⟨r, h, by simpa using hb⟩
  obtain ⟨r, hlook, hrel⟩ := hr
  have hrel' : r.lockedBy = some w ∧ r.jobId ∉ abandoned := by
    simpa [JobRow.releasable] using hrel
  have hkey := KeyedTable.key_of_lookup hlook
  obtain ⟨l, r', rfl, hw, hr', -, hc, hd⟩ := hL.of_owned (w := w) (by simp [hlook, hrel'.1])
  rw [hlook] at hr'
  cases hr'
  have hna : l.abandoned = false := by
    by_contra hb
    exact hrel'.2 (hkey ▸ ha l rfl hw (by simpa using hb))
  refine ⟨.ready l.count (some w), ?_, ⟨hd, r.unlocked, ?_, rfl, hc⟩, .ends hw rfl⟩
  · simp [hlook, Option.filter, hrel, StepRun.replay, Life.step, Event.job, hkey, Life.leave, hw,
      hna]
  · rw [cleanupWorkerLocks, lookup_updateJobs, hlook]
    simp [hrel]

end Cja.Jobs
