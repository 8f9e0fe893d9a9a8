import Cja.Jobs.Attempts

/-!
# Lease mutual exclusion

A worker polls a body while its tracker says that the lease holds; another
worker may claim the row once the window has passed since `locked_at`. The two
agree as long as `locked_at` is not older than the send time the tracker counts
from, which is what `Covers` says. A claim and a heartbeat establish it, since
`NOW()` is taken after the send. A heartbeat that the database applies late,
behind a newer one, moves `locked_at` back and breaks it.
-/
namespace Cja.Jobs

variable {P : Type}

/-- No two workers run a body of one job. -/
def State.Exclusive (s : State P) : Prop :=
  ∀ v w job job' tr tr' n n' b b', (s.workers v).phase = .running job tr n b →
    (s.workers w).phase = .running job' tr' n' b' → job.jobId = job'.jobId → v = w

/-- Time does not pass the deadline of a body that is still polled. -/
def State.StopsAtDeadline (s : State P) : Action P → Prop
  | .tick elapsed => ∀ w job tr n b, (s.workers w).phase = .running job tr n b →
      s.now + elapsed ≤ tr.deadline
  | _ => True

/-- The owner, the job and the `NOW()` of a heartbeat that the step applies. -/
def State.beatApplied (s : State P) : Action P → Option (OwnerToken × Uuid × ℕ)
  | .applyBeat w now => (s.workers w).phase.job?.map fun job => (w, job.jobId, now)
  | .applyDroppedBeat w i now => ((s.workers w).beats[i]?).map fun b => (w, b.1, now)
  | _ => none

/-- A heartbeat never overwrites a `locked_at` later than its own `NOW()`. -/
def State.beatsInOrder (s : State P) (a : Action P) : Bool :=
  (s.beatApplied a).all fun (w, j, now) =>
    (s.db.jobs.lookup j).all fun r => r.lockedBy != some w || r.lockedAt.all (· ≤ now)

theorem State.beatsInOrder_iff {s : State P} {a : Action P} :
    s.beatsInOrder a = true ↔ ∀ w j now r t, s.beatApplied a = some (w, j, now) →
      s.db.jobs.lookup j = some r → r.lockedBy = some w → r.lockedAt = some t → t ≤ now := by
  constructor
  · intro h w j now r t hb hr hw ht
    simpa [State.beatsInOrder, hb, hr, hw, ht] using h
  · intro h
    simp only [State.beatsInOrder, Option.all_eq_true, Bool.or_eq_true, bne_iff_ne, ne_eq,
      decide_eq_true_eq]
    rintro ⟨w, j, now⟩ hb r hr
    by_cases hw : r.lockedBy = some w
    · exact .inr fun t ht => h w j now r t hb hr hw ht
    · exact .inl hw

/-- The row is the worker's, locked no earlier than each of the send times. -/
def Db.Covers (db : Db P) (w : OwnerToken) (j : Uuid) (sents : List ℕ) : Prop :=
  ∃ r t, db.jobs.lookup j = some r ∧ r.lockedBy = some w ∧ r.lockedAt = some t ∧
    ∀ sent ∈ sents, sent / 1000 ≤ t

/-! ## What keeps a row covered -/

section Covers

variable {db db' : Db P} {v w : OwnerToken} {j k : Uuid} {sents : List ℕ}

theorem Db.Covers.congr (h : db.Covers w j sents)
    (hl : ∀ r, db.jobs.lookup j = some r → r.lockedBy = some w → db'.jobs.lookup j = some r) :
    db'.Covers w j sents := by
  obtain ⟨r, t, hr, hw, ht, hs⟩ := h
  exact ⟨r, t, hl r hr hw, hw, ht, hs⟩

theorem lookup_update_other {p : JobRow P → Bool} {f : JobRow P → JobRow P}
    (hf : ∀ r, (f r).jobId = r.jobId) {r : JobRow P} (hr : db.jobs.lookup j = some r)
    (hp : p r = false) : (db.updateJobs p f hf).jobs.lookup j = some r := by
  rw [lookup_updateJobs, hr]
  simp [hp]

theorem lookup_delete_other {p : JobRow P → Bool} {r : JobRow P}
    (hr : db.jobs.lookup j = some r) (hp : p r = false) :
    (db.jobs.delete p).lookup j = some r := by
  rw [KeyedTable.lookup_delete, hr]
  simp [Option.filter, hp]

/-- A row of `w` is out of reach of the other workers' statements. -/
theorem apply_lookup_other {cfg : Settings} {now : ℕ} {skip : List Uuid} {st : Statement P}
    {es : List Event} {r : JobRow P} (hst : st.isClaim = false) (hne : v ≠ w)
    (h : st.apply cfg v now skip db = some (db', es)) (hr : db.jobs.lookup j = some r)
    (hw : r.lockedBy = some w) : db'.jobs.lookup j = some r := by
  have hown : ∀ k, r.ownedBy k v = false := fun k => by simp [JobRow.ownedBy, hw, Ne.symm hne]
  cases st with
  | claim sentAt => cases hst
  | delete job =>
      cases h
      exact lookup_delete_other hr (hown _)
  | fail job message =>
      simp only [Statement.apply, Option.map_eq_some_iff, Prod.mk.injEq] at h
      obtain ⟨⟨db₁, n⟩, hf, rfl, -⟩ := h
      unfold failRow at hf
      split_ifs at hf
      cases hf
      exact lookup_update_other _ hr (by simp [JobRow.failable, hown])
  | deadLetter job count message failedBody =>
      simp only [Statement.apply, Option.map_eq_some_iff, Prod.mk.injEq, deadLetterOwned_eq] at h
      obtain ⟨⟨db₁, owned⟩, hd, rfl, -⟩ := h
      split_ifs at hd
      · cases hd
        exact lookup_delete_other hr (hown _)
      · cases hd
        exact hr

theorem Db.Covers.cleanup (h : db.Covers w j sents) (hne : v ≠ w) (abandoned : List Uuid) :
    (cleanupWorkerLocks v abandoned db).Covers w j sents :=
  h.congr fun r hr hw => lookup_update_other _ hr (by simp [JobRow.releasable, hw, Ne.symm hne])

theorem Db.Covers.enqueue (h : db.Covers w j sents) {n : NewJob P}
    (hn : enqueueOnConnection n db = some db') : db'.Covers w j sents := by
  simp only [enqueueOnConnection, Option.map_eq_some_iff] at hn
  obtain ⟨t, ht, rfl⟩ := hn
  refine h.congr fun r hr _ => ?_
  have hnone := (KeyedTable.insert_some_iff.mp ht).1
  have hne : j ≠ n.row.jobId := by
    rintro rfl
    rw [hnone] at hr
    cases hr
  simpa [hne] using (KeyedTable.lookup_insert ht j).trans (by simp [hne, hr])

/-- A heartbeat in order keeps every row covered. -/
theorem Db.Covers.heartbeat (h : db.Covers w j sents) {now n : ℕ}
    (hb : heartbeatRow v k now db = (db', n))
    (hord : ∀ r t, db.jobs.lookup k = some r → r.lockedBy = some v → r.lockedAt = some t →
      t ≤ now) : db'.Covers w j sents := by
  cases hb
  obtain ⟨r, t, hr, hw, ht, hs⟩ := h
  have hlook := lookup_updateJobs db (JobRow.ownedBy k v) (JobRow.refreshed now)
    (JobRow.refreshed_jobId now) j
  rw [hr, Option.map_some] at hlook
  by_cases ho : r.ownedBy k v = true
  · rw [if_pos ho] at hlook
    obtain rfl : k = j := by
      rw [JobRow.ownedBy_iff] at ho
      exact ho.1.symm.trans (KeyedTable.key_of_lookup hr)
    have hle := hord r t hr (JobRow.ownedBy_iff.mp ho).2 ht
    exact ⟨_, now, hlook, hw, rfl, fun sent hm => Nat.le_trans (hs sent hm) hle⟩
  · rw [if_neg ho] at hlook
    exact ⟨r, t, hlook, hw, ht, hs⟩

/-- A row within its window is not claimed. -/
theorem Db.Covers.claim (h : db.Covers w j sents) {window now sent : ℕ} {skip : List Uuid}
    {row : Option (ClaimedRow P)} (hc : claimRow v window now skip db = (db', row))
    (hsent : sent ∈ sents) (hin : now ≤ sent / 1000 + window) : db'.Covers w j sents := by
  rcases claimRow_spec hc with ⟨rfl, -⟩ | ⟨q, hq, hcl, -, rfl⟩
  · exact h
  obtain ⟨r, t, hr, hw, ht, hs⟩ := h
  refine Db.Covers.congr ⟨r, t, hr, hw, ht, hs⟩ fun r' hr' _ => lookup_update_other _ hr' ?_
  rw [hr] at hr'
  cases hr'
  by_contra hqj
  have hid : r.jobId = q.jobId := by simpa using hqj
  rw [← hid, KeyedTable.key_of_lookup hr, hr] at hq
  cases hq
  obtain ⟨-, t', ht', hlt⟩ := JobRow.expired_of_claimable hcl hw
  rw [ht] at ht'
  cases ht'
  have := hs sent hsent
  omega

/-- The claim covers its own row. -/
theorem Db.covers_of_claim {window now sent : ℕ} {skip : List Uuid} {c : ClaimedRow P}
    (hc : claimRow w window now skip db = (db', some c)) (hsent : sent / 1000 ≤ now) :
    db'.Covers w c.job.jobId [sent] := by
  rcases claimRow_spec hc with ⟨-, hn⟩ | ⟨q, hq, -, hrow, rfl⟩
  · cases hn
  cases hrow
  refine ⟨q.claimedBy w now, now, ?_, rfl, rfl, by simpa using hsent⟩
  rw [lookup_updateJobs]
  exact (congrArg _ hq).trans (by simp)

/-- So does a heartbeat that found the row. -/
theorem Db.Covers.beaten (h : db.Covers w j sents) {now sent n : ℕ}
    (hb : heartbeatRow w j now db = (db', n)) (hsent : sent / 1000 ≤ now)
    (hord : ∀ r t, db.jobs.lookup j = some r → r.lockedBy = some w → r.lockedAt = some t →
      t ≤ now) : db'.Covers w j (sent :: sents) := by
  cases hb
  obtain ⟨r, t, hr, hw, ht, hs⟩ := h
  have hlook := lookup_updateJobs db (JobRow.ownedBy j w) (JobRow.refreshed now)
    (JobRow.refreshed_jobId now) j
  have ho : r.ownedBy j w = true := JobRow.ownedBy_iff.mpr ⟨KeyedTable.key_of_lookup hr, hw⟩
  rw [hr, Option.map_some, if_pos ho] at hlook
  have hle := hord r t hr hw ht
  refine ⟨_, now, hlook, hw, rfl, fun x hx => ?_⟩
  rcases List.mem_cons.mp hx with rfl | hx
  · exact hsent
  · exact Nat.le_trans (hs x hx) hle

end Covers

theorem Db.Covers.mono {db : Db P} {w : OwnerToken} {j : Uuid} {sents sents' : List ℕ}
    (h : db.Covers w j sents) (hs : ∀ x ∈ sents', x ∈ sents) : db.Covers w j sents' := by
  obtain ⟨r, t, hr, hw, ht, hle⟩ := h
  exact ⟨r, t, hr, hw, ht, fun x hx => hle x (hs x hx)⟩

/-! ## What a worker relies on -/

/-- The send time of a heartbeat that the database has taken. -/
def Beat.acknowledged : Option Beat → List ℕ
  | some ⟨sentAt, some true⟩ => [sentAt]
  | _ => []

/-- The lease behind a phase: the job, the tracker that limits it, and the send
times its row covers. -/
def Phase.lease? (cfg : Settings) : Phase P → Option (Uuid × LeaseTracker × List ℕ)
  | .fetched (some c) => some (c.job.jobId, c.tracker cfg, [c.claimSentAt])
  | .running job tr _ b => some (job.jobId, tr, tr.lastRefreshSent :: Beat.acknowledged b)
  | _ => none

/-- The part of the tracker's clock that does not look at the database. -/
structure Worker.OnTime (config : JobWorkerConfig) (now : ℕ) (wk : Worker P) : Prop where
  fetching : ∀ sentAt, wk.phase = .fetching sentAt → sentAt ≤ now
  fetched : ∀ c, wk.phase = .fetched (some c) → c.claimSentAt ≤ now
  running : ∀ job tr n b, wk.phase = .running job tr n b →
    tr.heartbeatInterval = config.heartbeatInterval ∧ tr.reclaimWindow = config.reclaimWindow ∧
      tr.lastRefreshSent ≤ now ∧ now ≤ tr.deadline ∧
      ∀ beat, b = some beat → tr.lastRefreshSent ≤ beat.sentAt ∧ beat.sentAt ≤ now
  late : wk.DroppedLate

/-- Within the deadline of its tracker, the worker's row is covered. -/
def State.Leased (cfg : Settings) (s : State P) (w : OwnerToken) : Prop :=
  ∀ j tr sents, (s.workers w).phase.lease? cfg = some (j, tr, sents) →
    s.now ≤ tr.deadline → s.db.Covers w j sents

theorem LeaseTracker.deadline_mono {tr : LeaseTracker} {sent : ℕ} (h : tr.lastRefreshSent ≤ sent) :
    tr.deadline ≤ { tr with lastRefreshSent := sent }.deadline := by
  simp only [LeaseTracker.deadline]
  omega

/-- Before the deadline, no claimant's `NOW()` is past the window. -/
theorem LeaseTracker.within_window {config : JobWorkerConfig} {tr : LeaseTracker}
    {cfg : Settings} {now clock : ℕ} (hcfg : cfg.config = config)
    (hh : tr.heartbeatInterval = config.heartbeatInterval)
    (hw : tr.reclaimWindow = config.reclaimWindow)
    (hmicros : config.reclaimWindow % 1000 ≤ config.heartbeatInterval / 2)
    (hnow : now ≤ clock / 1000) (hd : clock ≤ tr.deadline) :
    now ≤ tr.lastRefreshSent / 1000 + cfg.reclaimWindowMicros := by
  obtain ⟨-, hthree, hwin, -⟩ := JobWorkerConfig.validate_ok cfg.valid
  rw [hcfg] at hthree hwin
  simp only [LeaseTracker.deadline, hh, hw] at hd
  omega

/-- Another worker's step leaves a covered row within its deadline covered. -/
theorem Took.covers {cfg : OwnerToken → Settings} {s s' : State P} {a : Action P}
    {es : List Event} (h : Took cfg s a s' es) {w : OwnerToken} {j : Uuid} {sents : List ℕ}
    {last : ℕ} (hother : a.worker ≠ some w) (hord : s.beatsInOrder a = true)
    (hc : s.db.Covers w j sents) (hlast : last ∈ sents)
    (hin : ∀ v now, now ≤ s.now / 1000 → now ≤ last / 1000 + (cfg v).reclaimWindowMicros) :
    s'.db.Covers w j sents := by
  have hord := State.beatsInOrder_iff.mp hord
  have hstamp : ∀ {sent now clock : ℕ}, stampable sent now clock = true → now ≤ clock / 1000 := by
    intro sent now clock h
    simp only [stampable, Bool.and_eq_true, decide_eq_true_eq] at h
    exact h.2
  cases h with
  | enqueue hn hdb => exact hc.enqueue hdb
  | applyClaim hp ht hdb => exact hc.claim hdb hlast (hin _ _ (hstamp ht))
  | @applyBeat v job tr n now sentAt m db hp ht hdb =>
      refine hc.heartbeat hdb fun r t hr hw hl => hord v job.jobId now r t ?_ hr hw hl
      simp [State.beatApplied, hp, Phase.job?]
  | @finish v now st db es hp ht hst hdb =>
      have hne : v ≠ w := fun he => hother (congrArg some he)
      exact hc.congr fun r hr hw =>
        apply_lookup_other (Phase.statement_not_claim hp hst) hne hdb hr hw
  | @cleanup v answered hp => exact hc.cleanup (fun he => hother (congrArg some he)) _
  | @applyDropped v now skip st db es hst ht hdb =>
      have hne : v ≠ w := fun he => hother (congrArg some he)
      cases hclaim : st.isClaim with
      | false => exact hc.congr fun r hr hw => apply_lookup_other hclaim hne hdb hr hw
      | true =>
          cases st with
          | claim sentAt => cases hdb; exact hc.claim rfl hlast (hin _ _ (hstamp ht))
          | _ => cases hclaim
  | @applyDroppedBeat v i now n b db hb ht hdb =>
      refine hc.heartbeat hdb fun r t hr hw hl => hord v b.1 now r t ?_ hr hw hl
      simp [State.beatApplied, hb]
  | _ => exact hc

/-- A phase that is neither a claim on its way nor a body. -/
theorem Worker.OnTime.settled {config : JobWorkerConfig} {now : ℕ} {wk : Worker P}
    (hf : ∀ sentAt, wk.phase ≠ .fetching sentAt) (hc : ∀ row, wk.phase ≠ .fetched row)
    (hr : ∀ job tr n b, wk.phase ≠ .running job tr n b) (hl : wk.DroppedLate) :
    wk.OnTime config now where
  fetching _ h := absurd h (hf _)
  fetched _ h := absurd h (hc _)
  running _ _ _ _ h := absurd h (hr _ _ _ _)
  late := hl

theorem Took.onTime {cfg : OwnerToken → Settings} {config : JobWorkerConfig} {s s' : State P}
    {a : Action P} {es : List Event} (h : Took cfg s a s' es)
    (hcfg : ∀ w, (cfg w).config = config) (hstop : s.StopsAtDeadline a)
    (hI : ∀ w, (s.workers w).OnTime config s.now) (w : OwnerToken) :
    (s'.workers w).OnTime config s'.now := by
  by_cases hw : a.worker = some w
  swap
  · rw [h.workers_other hw]
    cases h with
    | tick elapsed =>
        refine ⟨fun sentAt hp => ?_, fun c hp => ?_, fun job tr n b hp => ?_, (hI w).late⟩
        · exact Nat.le_trans ((hI w).fetching sentAt hp) (Nat.le_add_right _ _)
        · exact Nat.le_trans ((hI w).fetched c hp) (Nat.le_add_right _ _)
        · obtain ⟨hh, hr, hle, -, hb⟩ := (hI w).running job tr n b hp
          exact ⟨hh, hr, Nat.le_trans hle (Nat.le_add_right _ _), hstop w job tr n b hp,
            fun beat he => ⟨(hb beat he).1, Nat.le_trans (hb beat he).2 (Nat.le_add_right _ _)⟩⟩
    | _ => exact hI w
  cases h with
  | tick => cases hw
  | enqueue => cases hw
  | sendClaim hp =>
      cases hw
      rw [State.setPhase_eq, State.setWorker_self]
      refine ⟨fun sentAt he => ?_, nofun, nofun, fun _ => (hI w).late (by rw [hp]; rfl)⟩
      cases he
      exact Nat.le_refl _
  | @applyClaim v now sentAt skip db row hp ht hdb =>
      cases hw
      rw [State.setDb_workers, State.setPhase_eq, State.setWorker_self]
      refine ⟨nofun, fun c he => ?_, nofun, fun _ => (hI w).late (by rw [hp]; rfl)⟩
      cases row with
      | none => cases he
      | some c' => cases he; exact (hI w).fetching sentAt hp
  | @dispatch v c hp hlim hintime =>
      cases hw
      rw [State.setWorker_self]
      refine ⟨nofun, nofun, fun job tr n b he => ?_, fun _ => (hI w).late (by rw [hp]; rfl)⟩
      cases he
      refine ⟨by rw [← hcfg w]; rfl, by rw [← hcfg w]; rfl, (hI w).fetched c hp,
        Nat.le_of_lt hintime, nofun⟩
  | @sendBeat v job tr n hp ht =>
      cases hw
      rw [State.setPhase_eq, State.setWorker_self]
      obtain ⟨hh, hr, hle, hd, -⟩ := (hI w).running _ _ _ _ hp
      refine ⟨nofun, nofun, fun _ _ _ _ he => ?_, fun _ => (hI w).late (by rw [hp]; rfl)⟩
      cases he
      refine ⟨hh, hr, hle, hd, fun beat hb => ?_⟩
      cases hb
      exact ⟨hle, Nat.le_refl _⟩
  | @applyBeat v job tr n now sentAt m db hp ht hdb =>
      cases hw
      rw [State.setDb_workers, State.setPhase_eq, State.setWorker_self]
      obtain ⟨hh, hr, hle, hd, hb⟩ := (hI w).running _ _ _ _ hp
      refine ⟨nofun, nofun, fun _ _ _ _ he => ?_, fun _ => (hI w).late (by rw [hp]; rfl)⟩
      cases he
      refine ⟨hh, hr, hle, hd, fun beat he => ?_⟩
      cases he
      exact hb ⟨sentAt, none⟩ rfl
  | @receiveBeat v job tr n sentAt hp =>
      cases hw
      rw [State.setPhase_eq, State.setWorker_self]
      obtain ⟨hh, hr, hle, hd, hb⟩ := (hI w).running _ _ _ _ hp
      obtain ⟨hlast, hsent⟩ := hb ⟨sentAt, some true⟩ rfl
      refine ⟨nofun, nofun, fun _ _ _ _ he => ?_, fun _ => (hI w).late (by rw [hp]; rfl)⟩
      cases he
      exact ⟨hh, hr, hsent, Nat.le_trans hd (LeaseTracker.deadline_mono hlast), nofun⟩
  | @loseBeat v job tr n beat hp =>
      cases hw
      rw [State.setWorker_self]
      obtain ⟨hh, hr, hle, hd, hb⟩ := (hI w).running _ _ _ _ hp
      refine ⟨nofun, nofun, fun _ _ _ _ he => ?_, fun _ => (hI w).late (by rw [hp]; rfl)⟩
      cases he
      exact ⟨hh, hr, hle, hd, nofun⟩
  | bodyReturns hp =>
      cases hw
      rename_i error _ _ _ _
      rw [State.setWorker_self]
      cases error <;> exact .settled nofun nofun nofun fun _ => (hI w).late (by rw [hp]; rfl)
  | receiveExpired hp =>
      cases hw
      rw [State.setWorker_self]
      exact .settled nofun nofun nofun fun _ => (hI w).late (by rw [hp]; rfl)
  | receiveLate hp =>
      cases hw
      rw [State.setWorker_self]
      exact .settled nofun nofun nofun fun _ => (hI w).late (by rw [hp]; rfl)
  | watchdog hp =>
      cases hw
      rw [State.setWorker_self]
      exact .settled nofun nofun nofun fun _ => (hI w).late (by rw [hp]; rfl)
  | shutdown => cases hw; rw [State.setWorker_self]; exact .settled nofun nofun nofun nofun
  | die => cases hw; rw [State.setWorker_self]; exact .settled nofun nofun nofun nofun
  | cleanup =>
      cases hw
      rw [State.setDb_workers, State.setPhase_eq, State.setWorker_self]
      exact .settled nofun nofun nofun nofun
  | cleanupFails =>
      cases hw
      rw [State.setPhase_eq, State.setWorker_self]
      exact .settled nofun nofun nofun nofun
  | applyDropped =>
      cases hw
      rw [State.setDb_workers, State.setWorker_self]
      exact ⟨(hI w).fetching, (hI w).fetched, (hI w).running, fun _ => rfl⟩
  | applyDroppedBeat =>
      cases hw
      rw [State.setDb_workers, State.setWorker_self]
      exact ⟨(hI w).fetching, (hI w).fetched, (hI w).running, (hI w).late⟩
  | finish hp ht hst hdb =>
      cases hw
      rw [State.setDb_workers, State.setPhase_eq, State.setWorker_self]
      exact .settled nofun nofun nofun fun _ => (hI w).late (Phase.live_of_finalizing hp)
  | finishFails hp =>
      cases hw
      rw [State.setPhase_eq, State.setWorker_self]
      exact .settled nofun nofun nofun fun _ => (hI w).late (Phase.live_of_finalizing hp)
  | _ =>
      cases hw
      rename_i hp
      simp only [State.setPhase_eq, State.setWorker_self]
      exact .settled nofun nofun nofun fun _ => (hI w).late (by rw [hp]; rfl)

/-- A phase without a lease relies on nothing. -/
theorem State.leased_of_none {cfg : Settings} {s : State P} {w : OwnerToken}
    (h : (s.workers w).phase.lease? cfg = none) : s.Leased cfg w := by
  intro j tr sents he
  rw [h] at he
  cases he

theorem Took.leased {cfg : OwnerToken → Settings} {config : JobWorkerConfig} {s s' : State P}
    {a : Action P} {es : List Event} (h : Took cfg s a s' es)
    (hcfg : ∀ w, (cfg w).config = config)
    (hmicros : config.reclaimWindow % 1000 ≤ config.heartbeatInterval / 2)
    (hord : s.beatsInOrder a = true) (hT : ∀ w, (s.workers w).OnTime config s.now)
    (hI : ∀ w, s.Leased (cfg w) w) (w : OwnerToken) : s'.Leased (cfg w) w := by
  by_cases hw : a.worker = some w
  swap
  · intro j tr sents hl hd
    rw [h.workers_other hw] at hl
    have hnow : s.now ≤ tr.deadline := by
      cases h with
      | tick elapsed => exact Nat.le_trans (Nat.le_add_right _ _) hd
      | _ => exact hd
    have htr : tr.heartbeatInterval = config.heartbeatInterval ∧
        tr.reclaimWindow = config.reclaimWindow ∧ tr.lastRefreshSent ∈ sents := by
      cases hp : (s.workers w).phase with
      | fetched row =>
          cases row with
          | none => rw [hp] at hl; cases hl
          | some c =>
              rw [hp] at hl
              cases hl
              rw [← hcfg w]
              exact ⟨rfl, rfl, by simp [ClaimedJob.tracker]⟩
      | running job tr' n b =>
          rw [hp] at hl
          cases hl
          obtain ⟨hh, hr, -⟩ := (hT w).running _ _ _ _ hp
          exact ⟨hh, hr, List.mem_cons_self ..⟩
      | _ => rw [hp] at hl; cases hl
    obtain ⟨hh, hr, hmem⟩ := htr
    exact h.covers hw hord (hI w j tr sents hl hnow) hmem fun v now hv =>
      LeaseTracker.within_window (hcfg v) hh hr hmicros hv hnow
  have hord := State.beatsInOrder_iff.mp hord
  have hold : ∀ {job : JobFromDB P} {tr : LeaseTracker} {n : ℕ} {b : Option Beat},
      (s.workers w).phase = .running job tr n b →
      s.db.Covers w job.jobId (tr.lastRefreshSent :: Beat.acknowledged b) := fun hp =>
    hI w _ _ _ (by rw [hp]; rfl) ((hT w).running _ _ _ _ hp).2.2.2.1
  have hbeat : ∀ {job : JobFromDB P} {tr : LeaseTracker} {n : ℕ} {b : Option Beat} {now : ℕ},
      (s.workers w).phase = .running job tr n b → a = .applyBeat w now →
      ∀ r t, s.db.jobs.lookup job.jobId = some r → r.lockedBy = some w → r.lockedAt = some t →
        t ≤ now := by
    rintro job tr n b now hp rfl r t hr hw' hl
    exact hord w job.jobId now r t (by simp [State.beatApplied, hp, Phase.job?]) hr hw' hl
  cases h with
  | tick => cases hw
  | enqueue => cases hw
  | @applyClaim v now sentAt skip db row hp ht hdb =>
      cases hw
      intro j tr sents hl hd
      rw [State.setDb_workers, State.setPhase_eq, State.setWorker_self] at hl
      cases row with
      | none => cases hl
      | some c =>
          cases hl
          simp only [stampable, Bool.and_eq_true, decide_eq_true_eq] at ht
          exact Db.covers_of_claim hdb ht.1
  | @dispatch v c hp hlim hintime =>
      cases hw
      intro j tr sents hl hd
      rw [State.setWorker_self] at hl
      cases hl
      exact hI w _ _ _ (by rw [hp]; rfl) hd
  | @sendBeat v job tr n hp ht =>
      cases hw
      intro j tr' sents hl hd
      rw [State.setPhase_eq, State.setWorker_self] at hl
      cases hl
      have hc := hold hp
      exact hc
  | @applyBeat v job tr n now sentAt m db hp ht hdb =>
      cases hw
      intro j tr' sents hl hd
      rw [State.setDb_workers, State.setPhase_eq, State.setWorker_self] at hl
      cases hl
      simp only [stampable, Bool.and_eq_true, decide_eq_true_eq] at ht
      refine ((hold hp).beaten hdb ht.1 (hbeat hp rfl)).mono fun x hx => ?_
      rcases List.mem_cons.mp hx with rfl | hx
      · simp
      · cases hm : (m == 1) <;> simp_all [Beat.acknowledged]
  | @receiveBeat v job tr n sentAt hp =>
      cases hw
      intro j tr' sents hl hd
      rw [State.setPhase_eq, State.setWorker_self] at hl
      cases hl
      exact (hold hp).mono fun x hx => List.mem_cons_of_mem _ hx
  | @loseBeat v job tr n beat hp =>
      cases hw
      intro j tr' sents hl hd
      rw [State.setWorker_self] at hl
      cases hl
      exact (hold hp).mono fun x hx => by
        rw [List.mem_singleton.mp hx]
        exact List.mem_cons_self ..
  | @bodyReturns v error job tr n b hp =>
      cases hw
      refine State.leased_of_none ?_
      rw [State.setWorker_self]
      cases error <;> rfl
  | @applyDropped v now skip st db es hst ht hdb =>
      cases hw
      intro j tr sents hl hd
      rw [State.setDb_workers, State.setWorker_self] at hl
      have hlive : (s.workers w).phase.live = true := by
        cases hp : (s.workers w).phase <;> rw [hp] at hl <;> first | rfl | cases hl
      rw [(hT w).late hlive] at hst
      cases hst
  | @applyDroppedBeat v i now n b db hb ht hdb =>
      cases hw
      intro j tr sents hl hd
      rw [State.setDb_workers, State.setWorker_self] at hl
      refine (hI w j tr sents hl hd).heartbeat hdb fun r t hr hw' hl => ?_
      exact hord w b.1 now r t (by simp [State.beatApplied, hb]) hr hw' hl
  | _ =>
      cases hw
      refine State.leased_of_none ?_
      simp only [State.setDb_workers, State.setPhase_eq, State.setWorker_self]
      rfl

/-- Workers that share one validated configuration never run two bodies of one
job, in any run that stops a body at its deadline, whose heartbeats reach the
row in the order of their `NOW()`, and whose window loses no more than the half
heartbeat when it is cut to whole microseconds. -/
theorem lease_exclusive {cfg : OwnerToken → Settings} {config : JobWorkerConfig}
    {log : List Event} {s : State P} (hcfg : ∀ w, (cfg w).config = config)
    (hmicros : config.reclaimWindow % 1000 ≤ config.heartbeatInterval / 2)
    (h : QueueRun cfg (fun s a => s.StopsAtDeadline a ∧ s.beatsInOrder a) log s) :
    s.Exclusive := by
  have hinv : (∀ w, (s.workers w).OnTime config s.now) ∧ ∀ w, s.Leased (cfg w) w := by
    refine h.safe (I := fun s => (∀ w, (s.workers w).OnTime config s.now) ∧
      ∀ w, s.Leased (cfg w) w) ⟨fun w => ?_, fun w => ?_⟩ fun s a s' es hI hC hs => ?_
    · exact .settled nofun nofun nofun fun _ => rfl
    · exact State.leased_of_none rfl
    · exact ⟨(step_took hs).onTime hcfg hC.1 hI.1,
        (step_took hs).leased hcfg hmicros hC.2 hI.1 hI.2⟩
  intro v w job job' tr tr' n n' b b' hv hw hid
  have hcv := hinv.2 v _ _ _ (by rw [hv]; rfl) ((hinv.1 v).running _ _ _ _ hv).2.2.2.1
  have hcw := hinv.2 w _ _ _ (by rw [hw]; rfl) ((hinv.1 w).running _ _ _ _ hw).2.2.2.1
  obtain ⟨r, -, hr, hrv, -⟩ := hcv
  obtain ⟨r', -, hr', hrw, -⟩ := hcw
  rw [hid, hr'] at hr
  cases hr
  rw [hrw] at hrv
  simpa using hrv.symm

/-! ## Runs of finitely many workers -/

/-- The job whose body the phase polls. -/
def Phase.polls? : Phase P → Option Uuid
  | .running job _ _ _ => some job.jobId
  | _ => none

theorem Phase.polls?_eq_some {phase : Phase P} {j : Uuid} (h : phase.polls? = some j) :
    ∃ job tr n b, phase = .running job tr n b ∧ job.jobId = j := by
  cases phase with
  | running job tr n b =>
      simp only [Phase.polls?, Option.some.injEq] at h
      exact ⟨job, tr, n, b, rfl, h⟩
  | _ => cases h

/-- The deadline test for the workers `ws`, which alone take steps. -/
def State.stopsAmong (ws : List OwnerToken) (s : State P) : Action P → Bool
  | .tick elapsed => ws.all fun w => match (s.workers w).phase with
      | .running _ tr _ _ => s.now + elapsed ≤ tr.deadline
      | _ => true
  | a => a.worker.all fun w => ws.contains w

theorem stops_of_among {cfg : OwnerToken → Settings} {C : State P → Action P → Prop}
    {ws : List OwnerToken} {log : List Event} {s : State P}
    (hws : ∀ s a, C s a → s.stopsAmong ws a = true) (h : QueueRun cfg C log s) :
    QueueRun cfg (fun s a => s.StopsAtDeadline a ∧ C s a) log s := by
  refine h.strengthen (I := fun s => ∀ w, w ∉ ws → (s.workers w).phase = .idle)
    (fun _ _ => rfl) (fun s a s' es hI hC hs w hw => ?_) fun s a hI hC => ⟨?_, hC⟩
  · rw [(step_took hs).workers_other]
    · exact hI w hw
    · intro ha
      have hmem : a.worker.all (fun w => ws.contains w) = true := by
        have htest := hws s a hC
        cases a <;> first | exact htest | rfl
      rw [ha] at hmem
      exact hw (by simpa using hmem)
  · cases a with
    | tick elapsed =>
        intro w job tr n b hp
        by_cases hw : w ∈ ws
        · have := List.all_eq_true.mp (hws s _ hC) w hw
          simpa [hp] using this
        · rw [hI w hw] at hp
          cases hp
    | _ => trivial

/-- A heartbeat on time keeps the second worker out. -/
theorem lease_exclusive_beaten : ∃ (log : List Event) (s : State Unit),
    QueueRun (fun _ => .default 20 (by decide))
      (fun s a => s.StopsAtDeadline a ∧ s.beatsInOrder a) log s ∧
      .dispatched 1 7 0 ∈ log ∧ s.now = 150000000000 ∧ s.Exclusive := by
  obtain ⟨log, s, hrun, hp⟩ := StepRun.exists_run
    (step (P := Unit) fun _ => .default 20 (by decide))
    (fun s a => s.stopsAmong [1, 2] a && s.beatsInOrder a) .init
    [.enqueue ⟨7, "Job", (), none, "", 0⟩, .sendClaim 1, .applyClaim 1 0 [], .receiveClaim 1,
      .tick 60000000000, .sendBeat 1, .applyBeat 1 60000000, .receiveBeat 1, .tick 90000000000,
      .sendClaim 2, .applyClaim 2 150000000 [], .receiveClaim 2]
    (fun log s => log.contains (.dispatched 1 7 0) && s.now == 150000000000) (by decide)
  simp only [Bool.and_eq_true, List.contains_iff_mem, beq_iff_eq] at hp
  have hrun' : QueueRun (fun _ => .default 20 (by decide))
      (fun s a => s.StopsAtDeadline a ∧ s.beatsInOrder a) log s :=
    (stops_of_among (fun _ _ h => (Bool.and_eq_true_iff.mp h).1) hrun).mono
      fun _ _ h => ⟨h.1, (Bool.and_eq_true_iff.mp h.2).2⟩
  exact ⟨log, s, hrun', hp.1, hp.2, lease_exclusive (fun _ => rfl) (by decide) hrun'⟩

/-- A heartbeat that timed out at 40 s is applied after the acknowledged one of
60 s and takes `locked_at` back to 30 s. At 151 s the window of 120 s has
passed and a second worker starts the body; the tracker of the first one counts
from 60 s and lets it run until 165 s. -/
theorem lease_not_exclusive : ¬ ∀ (cfg : OwnerToken → Settings) (config : JobWorkerConfig)
    (log : List Event) (s : State Unit), (∀ w, (cfg w).config = config) →
      QueueRun cfg State.StopsAtDeadline log s → s.Exclusive := by
  intro hall
  obtain ⟨log, s, hrun, hp⟩ := StepRun.exists_run
    (step (P := Unit) fun _ => .default 20 (by decide)) (State.stopsAmong [1, 2]) .init
    [.enqueue ⟨7, "Job", (), none, "", 0⟩, .sendClaim 1, .applyClaim 1 0 [], .receiveClaim 1,
      .tick 30000000000, .sendBeat 1, .tick 10000000000, .loseBeat 1,
      .tick 20000000000, .sendBeat 1, .applyBeat 1 60000000, .receiveBeat 1,
      .applyDroppedBeat 1 0 30000000,
      .tick 30000000000, .sendBeat 1, .tick 10000000000, .loseBeat 1,
      .tick 20000000000, .sendBeat 1, .tick 10000000000, .loseBeat 1,
      .tick 20000000000, .sendBeat 1, .tick 1000000000,
      .sendClaim 2, .applyClaim 2 151000000 [], .receiveClaim 2]
    (fun _ s => (s.workers 1).phase.polls? == some 7 && (s.workers 2).phase.polls? == some 7)
    (by decide)
  have hex := hall _ _ log s (fun _ => rfl)
    ((stops_of_among (fun _ _ h => h) hrun).mono fun _ _ h => h.1)
  simp only [Bool.and_eq_true, beq_iff_eq] at hp
  obtain ⟨job, tr, n, b, h₁, hj⟩ := Phase.polls?_eq_some hp.1
  obtain ⟨job', tr', n', b', h₂, hj'⟩ := Phase.polls?_eq_some hp.2
  exact absurd (hex 1 2 job job' tr tr' n n' b b' h₁ h₂ (hj.trans hj'.symm)) (by decide)

end Cja.Jobs
