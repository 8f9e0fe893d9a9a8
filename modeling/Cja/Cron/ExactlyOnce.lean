import Cja.Cron.Claim

/-!
# Exactly one fire per interval or slot

The transaction that holds the row read the latest committed `last_run_at`, and
nobody commits another while it holds. So its stamp, once committed, follows the
last one by more than the interval, or past a slot.
-/
namespace Cja.Cron

variable {Tz : Type}

/-- A committed fire. -/
structure Fire where
  scheduler : ℕ
  time : ℤ
  jobs : List ℕ

def fires (log : List Event) : List Fire :=
  log.filterMap fun
    | .fired w time jobs => some ⟨w, time, jobs⟩
    | .invoked _ _ => none

/-- The times of the claims whose callback was invoked. -/
def invocations (log : List Event) : List ℤ :=
  log.filterMap fun
    | .fired _ _ _ => none
    | .invoked _ time => some time

@[simp] theorem fires_append (log es : List Event) : fires (log ++ es) = fires log ++ fires es :=
  List.filterMap_append

@[simp] theorem invocations_append (log es : List Event) :
    invocations (log ++ es) = invocations log ++ invocations es :=
  List.filterMap_append

/-- What the committed history of one cron satisfies. -/
structure ExactlyOnce (job : CronJob Tz) (config : ℕ → SchedulerConfig Tz) (s : State)
    (log : List Event) : Prop where
  /-- The committed row is the stamp of the last fire. -/
  last : s.lastRunAt = (fires log).getLast?.map Fire.time
  /-- Every stamp shares its transaction with the inserts of its action. -/
  inserts : ∀ f ∈ fires log, f.jobs.length = job.action.inserts
  jobs : s.jobs = (fires log).flatMap fun f => f.jobs.map fun id => (id, f.time)
  jobCount : s.jobs.length = (fires log).length * job.action.inserts
  /-- Consecutive stamps do not share an interval or a slot. -/
  apart : (fires log).IsChain fun f g =>
    job.schedule.Apart (config g.scheduler).timezone f.time g.time
  increasing : (fires log).Pairwise fun f g => f.time < g.time
  invokedOnce : (invocations log).Nodup
  invokedFired : ∀ w t, .invoked w t ∈ log → ∃ f ∈ fires log, f.scheduler = w ∧ f.time = t

/-! ## The invariant -/

/-- What holds of the transaction that holds the row, with `last` committed. -/
structure Holder.Ok (job : CronJob Tz) (config : ℕ → SchedulerConfig Tz) (last : Option ℤ)
    (h : Holder) : Prop where
  stamp : ∀ t, h.stamp = some t →
    job.schedule.shouldRun last t (config h.claimant).startedAt (config h.claimant).timezone =
      true ∧ h.jobs.length = job.action.inserts
  sent : h.fate = .commitSent → h.stamp.isSome = true

/-- What a live claimant in a phase knows of its transaction. -/
def Phase.Agrees (job : CronJob Tz) (config : SchedulerConfig Tz) (last : Option ℤ)
    (h : Holder) : Phase → Prop
  | .timing lastRun => lastRun = last ∧ h.jobs = [] ∧ h.stamp = none
  | .claimed time lastRun => lastRun = last ∧ h.jobs = [] ∧ h.stamp = none ∧
      job.schedule.shouldRun lastRun time config.startedAt config.timezone = true
  | .updating time lastRun => lastRun = last ∧ h.jobs.length = 1 ∧ h.stamp = none ∧
      job.schedule.shouldRun lastRun time config.startedAt config.timezone = true
  | .committing time _ => h.stamp = some time
  | _ => True

structure Inv (job : CronJob Tz) (config : ℕ → SchedulerConfig Tz) (log : List Event)
    (s : State) : Prop where
  holder : ∀ h, s.holder = some h → h.Ok job config s.lastRunAt
  phase : ∀ w h, s.own w = some h → (s.schedulers w).Agrees job (config w) s.lastRunAt h
  last : s.lastRunAt = (fires log).getLast?.map Fire.time
  inserts : ∀ f ∈ fires log, f.jobs.length = job.action.inserts
  jobs : s.jobs = (fires log).flatMap fun f => f.jobs.map fun id => (id, f.time)
  apart : (fires log).IsChain fun f g =>
    job.schedule.Apart (config g.scheduler).timezone f.time g.time
  invokedOnce : (invocations log).Nodup
  invokedFired : ∀ w t, .invoked w t ∈ log → ∃ f ∈ fires log, f.scheduler = w ∧ f.time = t
  invoking : ∀ w t, s.schedulers w = .invoking t → t ∉ invocations log ∧
    ∃ f ∈ fires log, f.scheduler = w ∧ f.time = t

variable {job : CronJob Tz} {config : ℕ → SchedulerConfig Tz} {log : List Event}
variable {s s' : State} {w : ℕ}

theorem own_eq_some {h : Holder} :
    s.own w = some h ↔ s.holder = some h ∧ h.claimant = w ∧ h.fate = .live := by
  simp [State.own, Option.filter_eq_some_iff]

theorem mem_invocations {t : ℤ} : t ∈ invocations log ↔ ∃ w, .invoked w t ∈ log := by
  simp only [invocations, List.mem_filterMap]
  constructor
  · rintro ⟨e, he, ht⟩
    cases e with
    | fired => simp at ht
    | invoked w' t' =>
        simp only [Option.some.injEq] at ht
        exact ⟨w', ht ▸ he⟩
  · rintro ⟨w', hw'⟩
    exact ⟨_, hw', rfl⟩

@[simp] theorem setPhase_own (s : State) (w v : ℕ) (p : Phase) :
    (s.setPhase w p).own v = s.own v := rfl

@[simp] theorem setPhase_self (s : State) (w : ℕ) (p : Phase) :
    (s.setPhase w p).schedulers w = p := by
  simp [State.setPhase]

theorem setPhase_other {v : ℕ} (s : State) (p : Phase) (h : v ≠ w) :
    (s.setPhase w p).schedulers v = s.schedulers v := by
  simp [State.setPhase, h]

@[simp] theorem hold_schedulers (s : State) (h : Option Holder) :
    (s.hold h).schedulers = s.schedulers := rfl

namespace Inv

theorem increasing (hi : Inv job config log s) :
    (fires log).Pairwise fun f g => f.time < g.time := by
  have hchain : (fires log).IsChain fun f g => f.time < g.time :=
    hi.apart.imp fun _ _ h => Schedule.lt_of_apart h
  have htrans : ∀ f g k : Fire, f.time < g.time → g.time < k.time → f.time < k.time := by
    intro f g k h₁ h₂
    omega
  have : IsTrans Fire fun f g => f.time < g.time := ⟨htrans⟩
  exact hchain.pairwise

/-- A fire is known by its time. -/
theorem fire_unique (hi : Inv job config log s) {f g : Fire} (hf : f ∈ fires log)
    (hg : g ∈ fires log) (h : f.time = g.time) : f = g := by
  have hnodup : ((fires log).map Fire.time).Nodup := by
    rw [List.Nodup, List.pairwise_map]
    exact hi.increasing.imp fun h => by omega
  exact List.inj_on_of_nodup_map hnodup hf hg h

/-! ## Steps that record nothing -/

/-- A scheduler enters another phase and leaves the row as `holder'`. -/
theorem move (hi : Inv job config log s) {next : Phase} (holder' : Option Holder)
    (hok : ∀ h, holder' = some h → h.Ok job config s.lastRunAt)
    (hself : ∀ h, holder' = some h → h.claimant = w → h.fate = .live →
      next.Agrees job (config w) s.lastRunAt h)
    (hother : ∀ h, holder' = some h → h.claimant ≠ w → s.holder = some h)
    (hnext : ∀ t, next ≠ .invoking t) :
    Inv job config log ((s.setPhase w next).hold holder') where
  holder := hok
  phase := by
    intro v h hv
    rw [own_eq_some] at hv
    obtain ⟨hh, hc, hl⟩ := hv
    by_cases hvw : v = w
    · subst hvw
      rw [hold_schedulers, setPhase_self]
      exact hself h hh hc hl
    · rw [hold_schedulers, setPhase_other _ _ hvw]
      have hs : s.own v = some h :=
        own_eq_some.mpr ⟨hother h hh (by rw [hc]; exact hvw), hc, hl⟩
      exact hi.phase v h hs
  last := hi.last
  inserts := hi.inserts
  jobs := hi.jobs
  apart := hi.apart
  invokedOnce := hi.invokedOnce
  invokedFired := hi.invokedFired
  invoking := by
    intro v t hv
    by_cases hvw : v = w
    · subst hvw
      rw [hold_schedulers, setPhase_self] at hv
      exact absurd hv (hnext t)
    · rw [hold_schedulers, setPhase_other _ _ hvw] at hv
      exact hi.invoking v t hv

/-- A phase that knows nothing of a transaction is entered with the row as it is. -/
theorem setPhase (hi : Inv job config log s) {next : Phase}
    (hagree : ∀ last h, next.Agrees job (config w) last h) (hnext : ∀ t, next ≠ .invoking t) :
    Inv job config log (s.setPhase w next) :=
  hi.move s.holder hi.holder (fun h _ _ _ => hagree _ h) (fun _ hh _ => hh) hnext

/-- The holder works on its own transaction. -/
theorem ownStep (hi : Inv job config log s) {next : Phase} {h h' : Holder}
    (hown : s.own w = some h) (hclaimant : h'.claimant = h.claimant)
    (hok : h'.Ok job config s.lastRunAt) (hagree : next.Agrees job (config w) s.lastRunAt h')
    (hnext : ∀ t, next ≠ .invoking t) :
    Inv job config log ((s.setPhase w next).hold (some h')) := by
  have hw : h'.claimant = w := hclaimant.trans (own_eq_some.mp hown).2.1
  apply hi.move (some h')
  · intro k hk
    cases hk
    exact hok
  · intro k hk _ _
    cases hk
    exact hagree
  · intro k hk hne
    cases hk
    exact absurd hw hne
  · exact hnext

/-- The scheduler drops its transaction; its commit is on its way only behind
the stamp. -/
theorem drop (hi : Inv job config log s) {next : Phase} {fate : Fate} (hfate : fate ≠ .live)
    (hsent : ∀ h, s.own w = some h → fate = .commitSent → h.stamp.isSome = true)
    (hnext : ∀ t, next ≠ .invoking t) :
    Inv job config log ((s.drop w fate).setPhase w next) := by
  cases hown : s.own w with
  | none =>
      have hdrop : s.drop w fate = s := by simp [State.drop, hown]
      rw [hdrop]
      apply hi.move s.holder hi.holder
      · intro h hh hc hl
        have hs : s.own w = some h := own_eq_some.mpr ⟨hh, hc, hl⟩
        rw [hown] at hs
        cases hs
      · intro h hh _
        exact hh
      · exact hnext
  | some h =>
      have hdrop : s.drop w fate = s.hold (some { h with fate := fate }) := by
        simp [State.drop, hown]
      have hw : h.claimant = w := (own_eq_some.mp hown).2.1
      rw [hdrop]
      apply hi.move (some { h with fate := fate })
      · intro k hk
        cases hk
        constructor
        · exact (hi.holder h (own_eq_some.mp hown).1).stamp
        · exact hsent h hown
      · intro k hk _ hl
        cases hk
        exact absurd hl hfate
      · intro k hk hne
        cases hk
        exact absurd hw hne
      · exact hnext

/-- The row is locked by a new transaction that has read it. -/
theorem lock (hi : Inv job config log s) (inserted : Option ℤ) :
    Inv job config log
      ((s.setPhase w (.timing s.lastRunAt)).hold (some (.new w inserted))) := by
  apply hi.move (some (.new w inserted))
  · intro h hh
    cases hh
    constructor
    · intro t ht
      simp [Holder.new] at ht
    · intro ht
      simp [Holder.new] at ht
  · intro h hh _ _
    cases hh
    simp [Phase.Agrees, Holder.new]
  · intro h hh hne
    cases hh
    simp [Holder.new] at hne
  · simp

/-- The transaction that holds the row ends without a commit. -/
theorem rollback (hi : Inv job config log s) : Inv job config log (s.hold none) where
  holder := by
    intro h hh
    cases hh
  phase := by
    intro v h hv
    rw [own_eq_some] at hv
    cases hv.1
  last := hi.last
  inserts := hi.inserts
  jobs := hi.jobs
  apart := hi.apart
  invokedOnce := hi.invokedOnce
  invokedFired := hi.invokedFired
  invoking := hi.invoking

/-! ## Commits and invocations -/

/-- The fire that a stamped transaction commits. -/
def fireOf (h : Holder) (time : ℤ) : Fire := ⟨h.claimant, time, h.jobs⟩

theorem getLast?_append_singleton (fs : List Fire) (f : Fire) :
    (fs ++ [f]).getLast?.map Fire.time = some f.time := by
  simp

theorem commit (hf : job.schedule.Forward) (hi : Inv job config log s) {h : Holder} {time : ℤ}
    (hh : s.holder = some h) (hstamp : h.stamp = some time) :
    Inv job config (log ++ (s.applyCommit h).2) (s.applyCommit h).1 := by
  have hok := (hi.holder h hh).stamp time hstamp
  have hlog : (s.applyCommit h).2 = [.fired h.claimant time h.jobs] := by
    simp [State.applyCommit, hstamp]
  have hfires : fires (log ++ (s.applyCommit h).2) = fires log ++ [fireOf h time] := by
    rw [hlog, fires_append]
    rfl
  have hinv : invocations (log ++ (s.applyCommit h).2) = invocations log := by
    rw [hlog, invocations_append]
    simp [invocations]
  constructor
  case holder =>
    intro k hk
    cases hk
  case phase =>
    intro v k hv
    rw [own_eq_some] at hv
    cases hv.1
  case last =>
    rw [hfires, getLast?_append_singleton]
    simp [State.applyCommit, hstamp, fireOf]
  case inserts =>
    intro f hfm
    rw [hfires, List.mem_append, List.mem_singleton] at hfm
    rcases hfm with hfm | rfl
    · exact hi.inserts f hfm
    · exact hok.2
  case jobs =>
    rw [hfires, List.flatMap_append, ← hi.jobs]
    simp [State.applyCommit, hstamp, fireOf]
  case apart =>
    rw [hfires, List.isChain_append]
    refine ⟨hi.apart, by simp, ?_⟩
    -- the claimant read the stamp of the last fire, and nobody committed since
    intro f hlast g hg
    simp only [List.head?_cons, Option.mem_some_iff] at hg
    subst hg
    have hrow : s.lastRunAt = some f.time := by
      rw [hi.last, Option.mem_def.mp hlast]
      rfl
    rw [hrow] at hok
    exact Schedule.apart_of_shouldRun hf hok.1
  case invokedOnce =>
    rw [hinv]
    exact hi.invokedOnce
  case invokedFired =>
    intro v t hv
    rw [hlog, List.mem_append] at hv
    rw [hfires]
    rcases hv with hv | hv
    · obtain ⟨f, hfm, h'⟩ := hi.invokedFired v t hv
      exact ⟨f, List.mem_append_left _ hfm, h'⟩
    · simp at hv
  case invoking =>
    intro v t hv
    rw [hinv, hfires]
    obtain ⟨hn, f, hfm, h'⟩ := hi.invoking v t hv
    exact ⟨hn, f, List.mem_append_left _ hfm, h'⟩

/-- A fire that was just committed has not been invoked. -/
theorem not_invoked (hi : Inv job config log s) {f : Fire} {log' : List Event}
    (hi' : Inv job config log' s') (hfires : fires log' = fires log ++ [f]) :
    f.time ∉ invocations log := by
  intro hmem
  obtain ⟨v, hv⟩ := mem_invocations.mp hmem
  obtain ⟨g, hg, -, ht⟩ := hi.invokedFired v f.time hv
  have hlt : ∀ k ∈ fires log, k.time < f.time := by
    have hp := hi'.increasing
    rw [hfires, List.pairwise_append] at hp
    intro k hk
    exact hp.2.2 k hk f (List.mem_singleton_self f)
  have := hlt g hg
  omega

/-- The scheduler whose callback the commit lets through. -/
theorem startInvoking (hi : Inv job config log s) {time : ℤ} (hown : s.own w = none)
    (hn : time ∉ invocations log) (hfire : ∃ f ∈ fires log, f.scheduler = w ∧ f.time = time) :
    Inv job config log (s.setPhase w (.invoking time)) where
  holder := hi.holder
  phase := by
    intro v h hv
    rw [setPhase_own] at hv
    by_cases hvw : v = w
    · rw [hvw, hown] at hv
      cases hv
    · rw [setPhase_other _ _ hvw]
      exact hi.phase v h hv
  last := hi.last
  inserts := hi.inserts
  jobs := hi.jobs
  apart := hi.apart
  invokedOnce := hi.invokedOnce
  invokedFired := hi.invokedFired
  invoking := by
    intro v t hv
    by_cases hvw : v = w
    · subst hvw
      rw [setPhase_self] at hv
      cases hv
      exact ⟨hn, hfire⟩
    · rw [setPhase_other _ _ hvw] at hv
      exact hi.invoking v t hv

theorem invoke (hi : Inv job config log s) {time : ℤ} {next : Phase}
    (hw : s.schedulers w = .invoking time)
    (hagree : ∀ last h, next.Agrees job (config w) last h) (hnext : ∀ t, next ≠ .invoking t) :
    Inv job config (log ++ [.invoked w time]) (s.setPhase w next) := by
  obtain ⟨hn, f, hfm, hfw, hft⟩ := hi.invoking w time hw
  have hi' : Inv job config log (s.setPhase w next) := hi.setPhase hagree hnext
  have hfires : fires (log ++ [.invoked w time]) = fires log := by
    rw [fires_append]
    simp [fires]
  have hinv : invocations (log ++ [.invoked w time]) = invocations log ++ [time] := by
    rw [invocations_append]
    rfl
  constructor
  case holder => exact hi'.holder
  case phase => exact hi'.phase
  case last => rw [hfires]; exact hi'.last
  case inserts => rw [hfires]; exact hi'.inserts
  case jobs => rw [hfires]; exact hi'.jobs
  case apart => rw [hfires]; exact hi'.apart
  case invokedOnce =>
    rw [hinv, List.nodup_append]
    refine ⟨hi.invokedOnce, List.nodup_singleton time, ?_⟩
    intro t ht u hu
    rw [List.mem_singleton] at hu
    rw [hu]
    intro heq
    exact hn (heq ▸ ht)
  case invokedFired =>
    intro v t hv
    rw [hfires]
    rw [List.mem_append, List.mem_singleton] at hv
    rcases hv with hv | hv
    · exact hi.invokedFired v t hv
    · cases hv
      exact ⟨f, hfm, hfw, hft⟩
  case invoking =>
    intro v t hv
    by_cases hvw : v = w
    · subst hvw
      rw [setPhase_self] at hv
      exact absurd hv (hnext t)
    · rw [setPhase_other _ _ hvw] at hv
      obtain ⟨hn', g, hgm, hgv, hgt⟩ := hi.invoking v t hv
      rw [hinv, hfires, List.mem_append, List.mem_singleton, not_or]
      refine ⟨⟨hn', ?_⟩, g, hgm, hgv, hgt⟩
      -- two schedulers invoke two fires
      intro heq
      have hfg : f = g := hi.fire_unique hfm hgm (by omega)
      rw [hfg] at hfw
      exact hvw (hgv.symm.trans hfw)

theorem tick (hi : Inv job config log s) (elapsed : ℕ) :
    Inv job config log { s with clock := s.clock + elapsed } :=
  ⟨hi.holder, hi.phase, hi.last, hi.inserts, hi.jobs, hi.apart, hi.invokedOnce,
    hi.invokedFired, hi.invoking⟩

theorem init (clock : ℤ) : Inv job config [] (State.init clock) := by
  constructor <;> simp [State.init, fires, invocations, State.own]

/-! ## Every step -/

theorem stepSelect {es : List Event} (hi : Inv job config log s)
    (h : s.select w = some (s', es)) : Inv job config (log ++ es) s' := by
  unfold State.select at h
  split at h
  · split at h
    · cases h
      rw [List.append_nil]
      exact hi.setPhase (fun _ _ => trivial) (by simp)
    · rename_i last hlast
      unfold State.lockRow at h
      split at h
      · cases h
        rw [List.append_nil, ← hlast]
        exact hi.lock none
      · cases h
  · cases h

theorem stepInsertRow {es : List Event} (hi : Inv job config log s)
    (h : s.insertRow w = some (s', es)) : Inv job config (log ++ es) s' := by
  unfold State.insertRow at h
  split at h
  · split at h
    · cases h
      rw [List.append_nil]
      exact hi.setPhase (fun _ _ => trivial) (by simp)
    · rename_i hlast _
      cases h
      rw [List.append_nil, ← hlast]
      exact hi.lock (some s.clock)
    · cases h
  · cases h

theorem stepReselect {es : List Event} (hi : Inv job config log s)
    (h : s.reselect w = some (s', es)) : Inv job config (log ++ es) s' := by
  unfold State.reselect at h
  split at h
  · rw [Option.bind_eq_some_iff] at h
    obtain ⟨last, hlast, h⟩ := h
    unfold State.lockRow at h
    split at h
    · cases h
      rw [List.append_nil, ← hlast]
      exact hi.lock none
    · cases h
  · cases h

theorem stepReadTime {es : List Event} (hi : Inv job config log s)
    (h : s.readTime job (config w) w = some (s', es)) : Inv job config (log ++ es) s' := by
  unfold State.readTime at h
  split at h
  · rename_i lastRun k hphase hown
    have hagree := hi.phase w k hown
    rw [hphase] at hagree
    obtain ⟨hlast, hjobs, hstamp⟩ := hagree
    split_ifs at h with hdue
    · cases h
      rw [List.append_nil]
      have hok := hi.holder k (own_eq_some.mp hown).1
      have hhold : s.setPhase w (.claimed s.clock lastRun) =
          (s.setPhase w (.claimed s.clock lastRun)).hold (some k) := by
        rw [← (own_eq_some.mp hown).1]
        rfl
      rw [hhold]
      exact hi.ownStep hown rfl hok ⟨hlast, hjobs, hstamp, hdue⟩ (by simp)
    · cases h
      rw [List.append_nil]
      exact hi.drop (by simp) (by simp) (by simp)
  · cases h

theorem stepInsertJob {id : ℕ} {es : List Event} (hi : Inv job config log s)
    (h : s.insertJob job w id = some (s', es)) : Inv job config (log ++ es) s' := by
  unfold State.insertJob at h
  split at h
  · rename_i time lastRun k hphase hown _
    have hagree := hi.phase w k hown
    rw [hphase] at hagree
    obtain ⟨hlast, hjobs, hstamp, hdue⟩ := hagree
    have hok := hi.holder k (own_eq_some.mp hown).1
    cases h
    rw [List.append_nil]
    apply hi.ownStep hown
    · rfl
    · constructor
      · intro t ht
        simp [hstamp] at ht
      · exact hok.sent
    · exact ⟨hlast, by simp [hjobs], hstamp, hdue⟩
    · simp
  · cases h

theorem stepUpdate {es : List Event} (hi : Inv job config log s)
    (h : s.update job w = some (s', es)) : Inv job config (log ++ es) s' := by
  -- both arms stamp a transaction whose inserts are complete
  have hstamped : ∀ {k : Holder} {time : ℤ} {lastRun : Option ℤ}, s.own w = some k →
      lastRun = s.lastRunAt → k.jobs.length = job.action.inserts →
      job.schedule.shouldRun lastRun time (config w).startedAt (config w).timezone = true →
      Inv job config log ((s.setPhase w (.committing time lastRun)).hold
        (some { k with stamp := some time })) := by
    intro k time lastRun hown hlast hjobs hdue
    have hw : k.claimant = w := (own_eq_some.mp hown).2.1
    apply hi.ownStep hown
    · rfl
    · constructor
      · intro t ht
        cases ht
        rw [hw, ← hlast]
        exact ⟨hdue, hjobs⟩
      · intro _
        rfl
    · rfl
    · simp
  unfold State.update at h
  split at h
  · rename_i time lastRun k hphase hown haction
    have hagree := hi.phase w k hown
    rw [hphase] at hagree
    obtain ⟨hlast, hjobs, -, hdue⟩ := hagree
    cases h
    rw [List.append_nil]
    exact hstamped hown hlast (by simp [hjobs, haction, CronAction.inserts]) hdue
  · rename_i time lastRun k hphase hown haction
    have hagree := hi.phase w k hown
    rw [hphase] at hagree
    obtain ⟨hlast, hjobs, -, hdue⟩ := hagree
    cases h
    rw [List.append_nil]
    exact hstamped hown hlast (by simp [hjobs, haction, CronAction.inserts]) hdue
  · cases h

theorem stepCommit {es : List Event} (hf : job.schedule.Forward) (hi : Inv job config log s)
    (h : s.commit job w = some (s', es)) : Inv job config (log ++ es) s' := by
  unfold State.commit at h
  split at h
  · rename_i time lastRun k hphase hown
    have hstamp := hi.phase w k hown
    rw [hphase] at hstamp
    have hh := (own_eq_some.mp hown).1
    have hw := (own_eq_some.mp hown).2.1
    have hi' := hi.commit hf hh hstamp
    simp only [Option.some.injEq, Prod.mk.injEq] at h
    obtain ⟨rfl, rfl⟩ := h
    have hfires : fires (log ++ (s.applyCommit k).2) = fires log ++ [fireOf k time] := by
      rw [fires_append, State.applyCommit, show k.stamp = some time from hstamp]
      rfl
    have hinv : invocations (log ++ (s.applyCommit k).2) = invocations log := by
      rw [invocations_append, State.applyCommit, show k.stamp = some time from hstamp]
      simp [invocations]
    cases haction : job.action with
    | job => exact hi'.setPhase (fun _ _ => trivial) (by simp)
    | callback =>
        apply hi'.startInvoking
        · simp [State.own, State.applyCommit]
        · rw [hinv]
          exact hi.not_invoked hi' hfires
        · exact ⟨fireOf k time, by simp [hfires], hw, rfl⟩
  · cases h

/-- A scheduler that leaves `committing` leaves a stamped transaction. -/
theorem fate_sent (hi : Inv job config log s) (h : Holder) (hown : s.own w = some h)
    (hfate : (s.schedulers w).fate = .commitSent) : h.stamp.isSome = true := by
  have hagree := hi.phase w h hown
  cases hphase : s.schedulers w with
  | committing time lastRun =>
      rw [hphase] at hagree
      rw [show h.stamp = some time from hagree]
      rfl
  | _ => simp [hphase, Phase.fate] at hfate

theorem fate_ne_live (p : Phase) : p.fate ≠ .live := by
  cases p <;> simp [Phase.fate]

theorem stepFails {error : SqlxError} {es : List Event} (hi : Inv job config log s)
    (h : s.fails w error = some (s', es)) : Inv job config (log ++ es) s' := by
  simp only [State.fails] at h
  split at h
  · cases h
    rw [List.append_nil]
    apply hi.drop (fate_ne_live _) (fun k hk => hi.fate_sent k hk)
    intro t
    split <;> simp
  · cases h

theorem step {a : Action} {es : List Event} (hf : job.schedule.Forward)
    (hi : Inv job config log s) (h : Cron.step job config s a = some (s', es)) :
    Inv job config (log ++ es) s' := by
  cases a with
  | tick elapsed =>
      cases h
      simpa using hi.tick elapsed
  | readMap w =>
      simp only [Cron.step] at h
      split at h
      · cases h
        rw [List.append_nil]
        exact hi.setPhase (fun _ _ => trivial) (by simp)
      · cases h
  | poll w now =>
      simp only [Cron.step] at h
      split at h
      · split_ifs at h
        · cases h
          rw [List.append_nil]
          exact hi.setPhase (fun _ _ => trivial) (by simp)
        · cases h
          rw [List.append_nil]
          exact hi.setPhase (fun _ _ => trivial) (by simp)
      · cases h
  | begin w =>
      simp only [Cron.step] at h
      split at h
      · cases h
        rw [List.append_nil]
        exact hi.setPhase (fun _ _ => trivial) (by simp)
      · cases h
  | setLocal w =>
      simp only [Cron.step] at h
      split at h
      · cases h
        rw [List.append_nil]
        split_ifs
        · exact hi.setPhase (fun _ _ => trivial) (by simp)
        · exact hi.setPhase (fun _ _ => trivial) (by simp)
      · cases h
  | select w => exact hi.stepSelect h
  | insertRow w => exact hi.stepInsertRow h
  | reselect w => exact hi.stepReselect h
  | readTime w => exact hi.stepReadTime h
  | insertJob w id => exact hi.stepInsertJob h
  | update w => exact hi.stepUpdate h
  | commit w => exact hi.stepCommit hf h
  | invoke w ok =>
      simp only [Cron.step] at h
      split at h
      · rename_i time hphase
        cases h
        cases ok with
        | true => exact hi.invoke hphase (fun _ _ => trivial) (by simp)
        | false => exact hi.invoke hphase (fun _ _ => trivial) (by simp)
      · cases h
  | fails w error => exact hi.stepFails h
  | serdeFails w =>
      simp only [Cron.step] at h
      split at h
      · cases h
        rw [List.append_nil]
        exact hi.drop (by simp) (by simp) (by simp)
      · cases h
  | die w =>
      cases h
      rw [List.append_nil]
      exact hi.drop (fate_ne_live _) (fun k hk => hi.fate_sent k hk) (by simp)
  | rollback =>
      simp only [Cron.step, Option.map_eq_some_iff] at h
      obtain ⟨k, -, heq⟩ := h
      cases heq
      simpa using hi.rollback
  | commitArrives =>
      simp only [Cron.step] at h
      split at h
      · rename_i k hk
        split_ifs at h with hsent
        cases h
        obtain ⟨time, hstamp⟩ := Option.isSome_iff_exists.mp ((hi.holder k hk).sent hsent)
        exact hi.commit hf hk hstamp
      · cases h

theorem of_run {clock : ℤ} (hf : job.schedule.Forward) (h : CronRun job config clock log s) :
    Inv job config log s :=
  h.invariant (init clock) fun _ _ _ _ _ _ hi _ hs => hi.step hf hs

end Inv

/-- For a job cron every stamp commits one job, for a callback none. -/
theorem jobs_length (hi : Inv job config log s) :
    s.jobs.length = (fires log).length * job.action.inserts := by
  rw [hi.jobs, List.length_flatMap]
  have hmap : (fires log).map (fun f => (f.jobs.map fun id => (id, f.time)).length) =
      (fires log).map fun _ => job.action.inserts := by
    apply List.map_congr_left
    intro f hf
    rw [List.length_map]
    exact hi.inserts f hf
  rw [hmap, List.map_const', List.sum_replicate, smul_eq_mul]

/-- No interval and no slot of a cron fires twice, in any run. -/
theorem cron_exactly_once {clock : ℤ} (hf : job.schedule.Forward)
    (h : CronRun job config clock log s) : ExactlyOnce job config s log :=
  have hi := Inv.of_run hf h
  ⟨hi.last, hi.inserts, hi.jobs, jobs_length hi, hi.apart, hi.increasing, hi.invokedOnce,
    hi.invokedFired⟩

/-- The slots of a schedule that is due on every hour. -/
def hourly : CronSchedule Unit :=
  ⟨fun _ t => some ((t / 3600000000000 + 1) * 3600000000000)⟩

theorem hourly_forward : (Schedule.cron hourly).Forward := by
  intro _ t slot h
  simp only [hourly, Option.some.injEq] at h
  omega

/-- Two schedulers fire an hourly job in turn. -/
theorem cron_exactly_once_hourly : ∃ (log : List Event) (s : State),
    CronRun ⟨.job, .cron hourly⟩ (fun _ => ⟨0, ()⟩) 0 log s ∧ (fires log).length = 2 ∧
      ExactlyOnce ⟨.job, .cron hourly⟩ (fun _ => ⟨0, ()⟩) s log := by
  obtain ⟨log, s, hrun, hlog⟩ := StepRun.exists_free_run
    (step ⟨.job, .cron hourly⟩ fun _ => ⟨0, ()⟩) (State.init 0)
    [.tick 3600000000000, .readMap 1, .poll 1 3600000000000, .begin 1, .setLocal 1, .setLocal 1,
      .setLocal 1, .select 1, .insertRow 1, .readTime 1, .insertJob 1 10, .update 1, .commit 1,
      .tick 3600000000000, .readMap 2, .poll 2 7200000000000, .begin 2, .setLocal 2, .setLocal 2,
      .setLocal 2, .select 2, .readTime 2, .insertJob 2 11, .update 2, .commit 2]
    (fun log _ => (fires log).length == 2) (by decide)
  exact ⟨log, s, hrun, by simpa using hlog, cron_exactly_once hourly_forward hrun⟩

end Cja.Cron
