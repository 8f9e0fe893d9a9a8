import Cja.Jobs.Gate

/-!
# What the gate keeps for parked workers

A wake that finds no parked worker is kept for the next one that comes. A wake of a worker
that cannot use it, since it is cancelled, dies or got a permit as well, goes to the next
worker. So a wake may coalesce with others, but it is pending until a claim is made. And
with or without wakes there is a worker that polls while others are parked.
-/
namespace Cja.Jobs

section
variable {ι : Type*} [DecidableEq ι]

namespace GatedWorker

variable {w : GatedWorker}

/-- Parked, and its `notified` was woken. -/
def Woken (w : GatedWorker) : Prop := ∃ granted, w.phase = .admitting granted true

/-- Parked, in the queue for a wake. -/
def Listens (w : GatedWorker) : Prop := ∃ granted, w.phase = .admitting granted false

/-- It makes the periodic claims: it is in one or sleeps before the next, or will be in one
when it is polled. -/
def Discovers (w : GatedWorker) : Prop :=
  w.polls = true ∨ (w.phase = .looping ∧ w.permit = true ∧ w.afterJob = false) ∨
    ∃ notified, w.phase = .admitting true notified

theorem Woken.notified {granted notified : Bool} (hp : w.phase = .admitting granted notified)
    (h : w.Woken) : notified = true := by
  obtain ⟨granted', hp'⟩ := h
  rw [hp] at hp'
  cases hp'
  rfl

theorem grant_woken : w.grant.Woken ↔ w.Woken := by
  unfold grant Woken
  split
  · next hp => simp [hp]
  · rfl

theorem grant_listens : w.grant.Listens ↔ w.Listens := by
  unfold grant Listens
  split
  · next hp => simp [hp]
  · rfl

theorem Listens.notify (h : w.Listens) : w.notify.Woken := by
  obtain ⟨granted, hp⟩ := h
  refine ⟨granted, ?_⟩
  simp [GatedWorker.notify, hp]

theorem notify_not_listens (w : GatedWorker) : ¬ w.notify.Listens := by
  rintro ⟨granted, hp⟩
  unfold notify at hp
  split at hp
  · cases hp
  · next hne => exact hne _ _ hp

theorem Outside.not_woken (h : w.Outside) : ¬ w.Woken := fun ⟨granted, hp⟩ => h granted true hp

theorem Outside.not_listens (h : w.Outside) : ¬ w.Listens :=
  fun ⟨granted, hp⟩ => h granted false hp

theorem again_outside (w : GatedWorker) : w.again.Outside := by
  simp [Outside, again]

/-- Who holds a permit makes the periodic claims. -/
theorem Sound.discovers (h : w.Sound) (hheld : w.held ≠ 0) : w.Discovers := by
  by_cases hpermit : w.permit = true
  · rcases h.permit hpermit with hp | ⟨hp | hp, hafter⟩
    · exact .inl (by rw [GatedWorker.polls, hp]; rfl)
    · exact .inl (by rw [GatedWorker.polls, hp]; rfl)
    · exact .inr (.inl ⟨hp, hpermit, hafter⟩)
  · unfold held at hheld
    rw [Bool.eq_false_iff.2 hpermit] at hheld
    split at hheld
    · next granted notified hp =>
        cases granted with
        | true => exact .inr (.inr ⟨notified, hp⟩)
        | false => exact absurd rfl hheld
    · exact absurd rfl hheld

end GatedWorker

namespace GateState

variable {s s' s₁ : GateState ι} {i : ι} {w : GatedWorker} {log log' : ClaimLog ι}

/-- The queue for wakes is what the workers know of it. -/
abbrev Listening (s : GateState ι) : Prop := s.gate.wake.Fair fun i => (s.workers i).Listens

/-- A wake is kept, or is that of a parked worker. -/
def Pending (s : GateState ι) : Prop := s.gate.wake.stored = true ∨ ∃ i, (s.workers i).Woken

/-- Without a claim, what was pending is pending. -/
structure Keeps (s s' : GateState ι) (log : ClaimLog ι) : Prop where
  listening : s.Listening → s'.Listening
  pending : s.Listening → log = [] → s.Pending → s'.Pending

omit [DecidableEq ι] in
theorem Keeps.refl (s : GateState ι) (log : ClaimLog ι) : Keeps s s log :=
  ⟨fun h => h, fun _ _ h => h⟩

omit [DecidableEq ι] in
theorem Keeps.trans (h : Keeps s s₁ log) (h' : Keeps s₁ s' log') : Keeps s s' (log ++ log') where
  listening hl := h'.listening (h.listening hl)
  pending hl hnil hp := by
    obtain ⟨hlog, hlog'⟩ := List.append_eq_nil_iff.1 hnil
    exact h'.pending (h.listening hl) hlog' (h.pending hl hlog hp)

/-! ## Steps -/

theorem Keeps.setWorker (hlistens : w.Listens ↔ (s.workers i).Listens)
    (hwoken : (s.workers i).Woken → w.Woken) : Keeps s (s.setWorker i w) log where
  listening hl := hl.congr fun x => by
    by_cases hx : x = i
    · subst hx
      simpa [GateState.setWorker] using hlistens
    · simp [GateState.setWorker, hx]
  pending _ _ hp := by
    rcases hp with hstored | ⟨x, hx⟩
    · exact .inl hstored
    · refine .inr ⟨x, ?_⟩
      by_cases hxi : x = i
      · subst hxi
        simpa [GateState.setWorker] using hwoken hx
      · simpa [GateState.setWorker, hxi] using hx

/-- A worker goes on outside the `select!`. -/
theorem Keeps.move (hout : (s.workers i).Outside) (hout' : w.Outside) :
    Keeps s (s.setWorker i w) log :=
  .setWorker (iff_of_false hout'.not_listens hout.not_listens) fun h => absurd h hout.not_woken

/-- Permits are no wakes. -/
theorem Keeps.releasePermit (s : GateState ι) (log : ClaimLog ι) : Keeps s s.releasePermit log := by
  unfold GateState.releasePermit
  dsimp only
  split
  · exact ⟨fun h => h, fun _ _ h => h⟩
  · next j rest hcons =>
      have hset : Keeps _ (GateState.setWorker
          { s with gate := { s.gate with periodicClaims := s.gate.periodicClaims.release } }
          j (s.workers j).grant) log :=
        .setWorker GatedWorker.grant_listens GatedWorker.grant_woken.2
      exact ⟨hset.listening, hset.pending⟩

theorem Keeps.dropPermit (hout : (s.workers i).Outside)
    (hout' : ({ w with permit := false } : GatedWorker).Outside) :
    Keeps s (s.dropPermit i w) log := by
  have hset : Keeps s (s.setWorker i { w with permit := false }) [] := .move hout hout'
  unfold GateState.dropPermit
  dsimp only
  split_ifs with hpermit
  · exact hset.trans (.releasePermit _ log)
  · exact hset.trans (.refl _ log)

/-- Whoever the wake goes to, it is pending. -/
theorem Listening.notifyOne (h : s.Listening) : s.notifyOne.Listening ∧ s.notifyOne.Pending := by
  unfold GateState.notifyOne
  split
  · next hnil =>
      obtain ⟨hfair, hstored⟩ := h.notifyOne_nil hnil
      exact ⟨hfair, .inl hstored⟩
  · next j rest hcons =>
      obtain ⟨hj, hfair⟩ := h.notifyOne_cons hcons
      refine ⟨hfair.congr fun x => ?_, .inr ⟨j, by simpa [GateState.setWorker] using hj.notify⟩⟩
      by_cases hx : x = j
      · subst hx
        simpa [GateState.setWorker] using (s.workers x).notify_not_listens
      · simp [GateState.setWorker, hx]

/-- The wake of a worker that leaves the `select!` goes on. -/
theorem Keeps.endSelect {giveBack forward : Bool} (hout : w.Outside)
    (hforward : log = [] → (s.workers i).Woken → forward = true) :
    Keeps s (s.endSelect i w giveBack forward) log := by
  let s₂ : GateState ι := GateState.setWorker
    { s with gate := ⟨s.gate.periodicClaims.forget i, s.gate.wake.forget i⟩ } i w
  let s₃ : GateState ι := if giveBack then s₂.releasePermit else s₂
  have hset : s.Listening → s₂.Listening := fun hl => (hl.forget i).congr fun x => by
    by_cases hx : x = i
    · subst hx
      simpa [s₂, GateState.setWorker] using hout.not_listens
    · simp [s₂, GateState.setWorker, hx]
  have hothers : s.Pending → ¬ (s.workers i).Woken → s₂.Pending := by
    rintro (hstored | ⟨x, hx⟩) hnot
    · exact .inl hstored
    · refine .inr ⟨x, ?_⟩
      have hxi : x ≠ i := fun heq => hnot (heq ▸ hx)
      simpa [s₂, GateState.setWorker, hxi] using hx
  have hrelease : Keeps s₂ s₃ log := by
    simp only [s₃]
    split_ifs
    · exact .releasePermit _ _
    · exact .refl _ _
  have hend : s.endSelect i w giveBack forward = if forward then s₃.notifyOne else s₃ := rfl
  rw [hend]
  cases forward with
  | true =>
      have hnotify := fun hl => (hrelease.listening (hset hl)).notifyOne
      exact ⟨fun hl => (hnotify hl).1, fun hl _ _ => (hnotify hl).2⟩
  | false =>
      refine ⟨fun hl => hrelease.listening (hset hl), fun hl hnil hp => ?_⟩
      have hnot : ¬ (s.workers i).Woken := fun hw => Bool.noConfusion (hforward hnil hw)
      exact hrelease.pending (hset hl) hnil (hothers hp hnot)

theorem admitClaim_keeps (hs : s.admitClaim i = some (s', log)) : Keeps s s' log := by
  unfold GateState.admitClaim at hs
  dsimp only at hs
  split at hs
  · next hp =>
      have hout : (s.workers i).Outside := by simp [GatedWorker.Outside, hp]
      split_ifs at hs with hafter hpermit hcancelled havailable hstored <;>
        simp only [Option.some.injEq, Prod.mk.injEq] at hs <;> obtain ⟨rfl, rfl⟩ := hs
      · exact .move hout (by simp [GatedWorker.Outside])
      · exact .move hout (by simp [GatedWorker.Outside])
      · exact .dropPermit hout (by simp [GatedWorker.Outside])
      · have hset : Keeps _ (GateState.setWorker
            { s with gate := { s.gate with periodicClaims := s.gate.periodicClaims.take } } i
            { s.workers i with phase := .claiming .periodic, permit := true })
            [(i, ClaimKind.periodic)] := .move hout (by simp [GatedWorker.Outside])
        exact ⟨hset.listening, hset.pending⟩
      · -- the wake that was kept is used by this claim
        have hset : Keeps _ (GateState.setWorker
            { s with gate := { s.gate with wake := { s.gate.wake with stored := false } } } i
            { s.workers i with phase := .claiming .notified }) [(i, ClaimKind.notified)] :=
          .move hout (by simp [GatedWorker.Outside])
        exact ⟨fun hl => hset.listening hl.unstore,
          fun _ hnil => absurd hnil (List.cons_ne_nil _ _)⟩
      · have hnone : s.gate.wake.stored = false := Bool.eq_false_iff.2 hstored
        refine ⟨fun hl => (hl.park hnone hout.not_listens).congr fun x => ?_,
          fun _ _ hpending => ?_⟩
        · by_cases hx : x = i
          · subst hx
            simp [GateState.setWorker, GatedWorker.Listens]
          · simp [GateState.setWorker, hx]
        · rcases hpending with hstored' | ⟨x, hx⟩
          · exact absurd hstored' hstored
          · have hxi : x ≠ i := fun heq => hout.not_woken (heq ▸ hx)
            exact .inr ⟨x, by simpa [GateState.setWorker, hxi] using hx⟩
  · cases hs

theorem poll_keeps (hs : s.poll i = some (s', log)) : Keeps s s' log := by
  unfold GateState.poll at hs
  dsimp only at hs
  split at hs
  · next granted notified hp =>
      have hnotified : (s.workers i).Woken → notified = true := GatedWorker.Woken.notified hp
      split_ifs at hs with hcancelled hgranted hnotified' <;>
        simp only [Option.some.injEq, Prod.mk.injEq] at hs <;> obtain ⟨rfl, rfl⟩ := hs
      · exact .endSelect (by simp [GatedWorker.Outside]) fun _ => hnotified
      · exact .endSelect (by simp [GatedWorker.Outside]) fun _ => hnotified
      · exact .endSelect (by simp [GatedWorker.Outside])
          fun hnil => absurd hnil (List.cons_ne_nil _ _)
      · exact .refl _ _
  · cases hs

theorem fetched_keeps {result : Fetched} (hs : s.fetched i result = some (s', log)) :
    Keeps s s' log := by
  unfold GateState.fetched at hs
  dsimp only at hs
  split at hs
  · next kind hp =>
      have hout : (s.workers i).Outside := by simp [GatedWorker.Outside, hp]
      cases result with
      | job =>
          cases hs
          exact .dropPermit hout (by simp [GatedWorker.Outside])
      | nothing =>
          dsimp only at hs
          split_ifs at hs with hpermit <;> cases hs
          · exact .move hout (by simp [GatedWorker.Outside])
          · exact .move hout (GatedWorker.again_outside _)
      | error =>
          cases hs
          exact .dropPermit hout (by simp [GatedWorker.Outside])
  · cases hs

theorem ran_keeps {ok : Bool} (hs : s.ran i ok = some (s', log)) : Keeps s s' log := by
  unfold GateState.ran at hs
  dsimp only at hs
  split at hs
  · next hp =>
      have hout : (s.workers i).Outside := by simp [GatedWorker.Outside, hp]
      split_ifs at hs with hok <;> cases hs
      · exact .move hout (GatedWorker.again_outside _)
      · exact .dropPermit hout (by simp [GatedWorker.Outside])
  · cases hs

theorem slept_keeps (hs : s.slept i = some (s', log)) : Keeps s s' log := by
  unfold GateState.slept at hs
  dsimp only at hs
  split at hs
  · next hp =>
      cases hs
      exact .move (by simp [GatedWorker.Outside, hp]) (GatedWorker.again_outside _)
  · next hp =>
      cases hs
      exact .move (by simp [GatedWorker.Outside, hp]) (by simp [GatedWorker.Outside])
  · cases hs

theorem stop_keeps (hs : s.stop i = some (s', log)) : Keeps s s' log := by
  unfold GateState.stop at hs
  dsimp only at hs
  split_ifs at hs
  split at hs
  all_goals cases hs
  all_goals
    next hp => exact .dropPermit (by simp [GatedWorker.Outside, hp]) (by simp [GatedWorker.Outside])

theorem cleanup_keeps (hs : s.cleanup i = some (s', log)) : Keeps s s' log := by
  unfold GateState.cleanup at hs
  dsimp only at hs
  split at hs
  all_goals cases hs
  next hp => exact .move (by simp [GatedWorker.Outside, hp]) (by simp [GatedWorker.Outside])

theorem die_keeps (hs : s.die i = some (s', log)) : Keeps s s' log := by
  unfold GateState.die at hs
  dsimp only at hs
  split at hs
  · cases hs
  · next granted notified hp =>
      cases hs
      exact .endSelect (by simp [GatedWorker.Outside]) fun _ => GatedWorker.Woken.notified hp
  · next hne =>
      cases hs
      exact .dropPermit hne (by simp [GatedWorker.Outside])

theorem step_keeps {a : GateAction ι} (hs : s.step a = some (s', log)) : Keeps s s' log := by
  cases a with
  | admitClaim i => exact admitClaim_keeps hs
  | poll i => exact poll_keeps hs
  | fetched i result => exact fetched_keeps hs
  | ran i ok => exact ran_keeps hs
  | slept i => exact slept_keeps hs
  | stop i => exact stop_keeps hs
  | cleanup i => exact cleanup_keeps hs
  | die i => exact die_keeps hs
  | cancel i =>
      cases hs
      exact .setWorker Iff.rfl fun hw => hw
  | wakeOne =>
      cases hs
      exact ⟨fun hl => hl.notifyOne.1, fun hl _ _ => hl.notifyOne.2⟩

/-! ## Runs -/

theorem run_keeps (h : StepRun.Run GateState.step StepRun.Free s log s') : Keeps s s' log := by
  induction h with
  | start => exact .refl _ _
  | snoc _ _ hs ih => exact ih.trans (step_keeps hs)

/-- The next poll of a woken worker is a claim, and so is what a worker that comes makes of
a wake that is kept. -/
structure Answers (s : GateState ι) (i : ι) : Prop where
  woken : (s.workers i).Woken → ∃ kind s', s.poll i = some (s', [(i, kind)])
  kept : s.gate.wake.stored = true → (s.workers i).phase = .looping →
    ∃ kind s', s.admitClaim i = some (s', [(i, kind)])

theorem answers_of_not_cancelled (hcancelled : (s.workers i).cancelled = false) : s.Answers i where
  woken := by
    rintro ⟨granted, hp⟩
    unfold GateState.poll
    simp only [hp, hcancelled]
    cases granted with
    | true => exact ⟨.periodic, _, rfl⟩
    | false => exact ⟨.notified, _, rfl⟩
  kept hstored hp := by
    unfold GateState.admitClaim
    simp only [hp, hcancelled, hstored, Bool.false_eq_true, if_false, if_true]
    split_ifs
    · exact ⟨.afterJob, _, rfl⟩
    · exact ⟨.periodic, _, rfl⟩
    · exact ⟨.periodic, _, rfl⟩
    · exact ⟨.notified, _, rfl⟩

end GateState

section
variable [Fintype ι] {periodicClaimers : ℕ+} {log : ClaimLog ι} {s : GateState ι}

omit [Fintype ι] in
theorem GateRun.listening (h : GateRun periodicClaimers log s) : s.Listening := by
  refine (GateState.run_keeps h).listening ⟨List.nodup_nil, fun i => ?_, fun _ => rfl⟩
  simp [GateState.init, IdlePollGate.new, GatedWorker.Listens]

/-- While a worker waits for a permit, one that has a permit makes the periodic claims. -/
theorem GateRun.discovers (h : GateRun periodicClaimers log s) {i : ι}
    (hwaits : (s.workers i).Waits) : ∃ j, (s.workers j).Discovers := by
  have hnone : s.gate.periodicClaims.available = 0 := by
    by_contra hne
    exact h.no_idle_permit (Nat.pos_of_ne_zero hne) i hwaits
  have htotal : s.total = periodicClaimers := h.inv.total
  have hpos : (∑ j, (s.workers j).held) ≠ 0 := by
    rw [GateState.total, hnone, Nat.add_zero] at htotal
    rw [htotal]
    exact periodicClaimers.ne_zero
  obtain ⟨j, -, hheld⟩ := Finset.exists_ne_zero_of_sum_ne_zero hpos
  exact ⟨j, (h.inv.sound j).discovers hheld⟩

/-- Discovery goes on: while a worker waits for a permit, another one polls; and a wake is
pending until a claim is made, which a worker makes that is not cancelled and is polled
with it. -/
theorem gate_discovers (h : GateRun periodicClaimers log s) :
    (∀ i, (s.workers i).Waits → ∃ j, j ≠ i ∧ (s.workers j).Discovers) ∧
      ∀ log' s', StepRun.Run GateState.step StepRun.Free s.notifyOne log' s' → log' = [] →
        s'.Pending ∧ ∀ i, (s'.workers i).cancelled = false → s'.Answers i := by
  constructor
  · intro i hwaits
    obtain ⟨j, hj⟩ := h.discovers hwaits
    refine ⟨j, ?_, hj⟩
    rintro rfl
    obtain ⟨notified, hp⟩ := hwaits
    rcases hj with hpolls | ⟨hp', -⟩ | ⟨notified', hp'⟩
    · simp [GatedWorker.polls, hp] at hpolls
    · simp [hp] at hp'
    · simp [hp] at hp'
  · intro log' s' hrun hnil
    have hnotified := h.listening.notifyOne
    exact ⟨(GateState.run_keeps hrun).pending hnotified.1 hnil hnotified.2,
      fun i hi => GateState.answers_of_not_cancelled hi⟩

/-- The worker that was woken dies, and the next one has its wake. -/
theorem gate_discovers_died : ∃ (log : ClaimLog (Fin 3)) (s s' : GateState (Fin 3)),
    GateRun 1 log s ∧ (s.workers 2).phase = .admitting false false ∧
      StepRun.Run GateState.step StepRun.Free s.notifyOne [] s' ∧
        (s'.workers 1).phase = .exited ∧ s'.Pending ∧ s'.Answers 2 ∧
          ∃ j, j ≠ 2 ∧ (s.workers j).Discovers := by
  obtain ⟨log, s, hrun, hend⟩ := StepRun.exists_free_run GateState.step
    (GateState.init (ι := Fin 3) 1) [.admitClaim 0, .admitClaim 1, .admitClaim 2]
    (fun _ s => (s.workers 2).phase == .admitting false false &&
      ((s.notifyOne.step (.die 1)).any fun r => r.2.isEmpty &&
        (r.1.workers 1).phase == .exited && !(r.1.workers 2).cancelled)) (by decide +kernel)
  simp only [Bool.and_eq_true, beq_iff_eq, Option.any_eq_true, List.isEmpty_iff,
    Bool.not_eq_true'] at hend
  obtain ⟨hparked, ⟨s', log'⟩, hstep, ⟨hnil, hexited⟩, hactive⟩ := hend
  obtain rfl : log' = [] := hnil
  have hdies : StepRun.Run GateState.step StepRun.Free s.notifyOne [] s' :=
    .snoc .start trivial hstep
  obtain ⟨hpolls, hkept⟩ := gate_discovers hrun
  obtain ⟨hpending, hanswers⟩ := hkept [] s' hdies rfl
  exact ⟨log, s, s', hrun, hparked, hdies, hexited, hpending, hanswers 2 hactive,
    hpolls 2 ⟨false, hparked⟩⟩

end

end

end Cja.Jobs
