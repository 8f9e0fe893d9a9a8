import Cja.Lib.StepRun
import Cja.Lib.Semaphore

/-!
# Workers that share an idle poll gate

The loop of `job_worker` with an `IdlePollGate`, which all workers of this module have:
what a worker does between two claims, and which of it holds a permit. A worker that
waits in `admit_claim` polls the two futures of its `select!` when one of them wakes it;
a permit that the semaphore has assigned to a waiting worker is that worker's, whether
or not it has been polled since. A future that is dropped gives back what it was assigned.

The claims, the bodies and their outcomes are the environment's.
-/
namespace Cja.Jobs

inductive ClaimKind
  | periodic
  | notified
  | afterJob
deriving Repr, DecidableEq

/-- In seconds. -/
def tickErrorBackoffBase : ℕ := 1
def tickErrorBackoffMax : ℕ := 30

inductive LoopPhase
  /-- At the top of the loop, before `admit_claim`. -/
  | looping
  /-- Parked in the `select!` of `admit_claim`: whether the semaphore has assigned a
  permit to its `acquire`, and whether its `notified` was woken. -/
  | admitting (granted notified : Bool)
  | claiming (kind : ClaimKind)
  /-- In `run_claimed_job`, also while it drains. -/
  | running
  /-- The idle sleep after an empty claim. -/
  | sleeping
  | backingOff
  /-- Out of the loop, at `cleanup_worker_locks`. -/
  | cleaning
  | exited
deriving Repr, DecidableEq

structure GatedWorker where
  phase : LoopPhase := .looping
  permit : Bool := false
  afterJob : Bool := false
  tickErrorBackoff : ℕ := tickErrorBackoffBase
  cancelled : Bool := false
deriving Repr, DecidableEq

structure IdlePollGate (ι : Type*) where
  periodicClaims : Semaphore ι
  wake : Notify ι

def IdlePollGate.new {ι : Type*} (periodicClaimers : ℕ+) : IdlePollGate ι :=
  ⟨⟨periodicClaimers, []⟩, ⟨false, []⟩⟩

structure GateState (ι : Type*) where
  gate : IdlePollGate ι
  workers : ι → GatedWorker

def GateState.init {ι : Type*} (periodicClaimers : ℕ+) : GateState ι :=
  ⟨.new periodicClaimers, fun _ => {}⟩

/-- What `fetch_next_job` comes to. -/
inductive Fetched
  | job
  | nothing
  | error
deriving Repr, DecidableEq

inductive GateAction (ι : Type*)
  /-- `admit_claim`, and the first poll of its `select!`. -/
  | admitClaim (i : ι)
  /-- A later poll of that `select!`. -/
  | poll (i : ι)
  | fetched (i : ι) (result : Fetched)
  /-- `run_claimed_job` is done, with an infrastructure error where not `ok`. -/
  | ran (i : ι) (ok : Bool)
  /-- A sleep is over. -/
  | slept (i : ι)
  /-- The branch of the shutdown token, or the end of the drain. -/
  | stop (i : ι)
  | cleanup (i : ι)
  /-- The worker's future is dropped: its task is aborted, or it panics. -/
  | die (i : ι)
  | cancel (i : ι)
  | wakeOne

abbrev ClaimLog (ι : Type*) := List (ι × ClaimKind)

/-! ## Steps -/

section
variable {ι : Type*} [DecidableEq ι]

namespace GatedWorker

/-- The permits a worker holds: in `permit`, or by its `acquire`. -/
def held (w : GatedWorker) : ℕ :=
  w.permit.toNat + match w.phase with
    | .admitting granted _ => granted.toNat
    | _ => 0

def grant (w : GatedWorker) : GatedWorker :=
  match w.phase with
  | .admitting _ notified => { w with phase := .admitting true notified }
  | _ => w

def notify (w : GatedWorker) : GatedWorker :=
  match w.phase with
  | .admitting granted _ => { w with phase := .admitting granted true }
  | _ => w

/-- The outcome `Ok(())` of a turn of the loop. -/
def again (w : GatedWorker) : GatedWorker :=
  { w with phase := .looping, tickErrorBackoff := tickErrorBackoffBase }

end GatedWorker

namespace GateState

def setWorker (s : GateState ι) (i : ι) (w : GatedWorker) : GateState ι :=
  { s with workers := Function.update s.workers i w }

/-- A permit comes back to the semaphore. -/
def releasePermit (s : GateState ι) : GateState ι :=
  let sem := s.gate.periodicClaims
  let s₁ : GateState ι := { s with gate := { s.gate with periodicClaims := sem.release } }
  match sem.waiters with
  | [] => s₁
  | j :: _ => s₁.setWorker j (s.workers j).grant

def notifyOne (s : GateState ι) : GateState ι :=
  let s₁ : GateState ι := { s with gate := { s.gate with wake := s.gate.wake.notifyOne } }
  match s.gate.wake.waiters with
  | [] => s₁
  | j :: _ => s₁.setWorker j (s.workers j).notify

/-- `drop(permit.take())`, after which the worker is as `w` without a permit. -/
def dropPermit (s : GateState ι) (i : ι) (w : GatedWorker) : GateState ι :=
  let s₁ := s.setWorker i { w with permit := false }
  if (s.workers i).permit then s₁.releasePermit else s₁

/-- The `select!` of `admit_claim` is over. An `acquire` that is dropped gives its permit
back, a `notified` that is dropped passes its notification on. -/
def endSelect (s : GateState ι) (i : ι) (w : GatedWorker) (giveBack forward : Bool) :
    GateState ι :=
  let s₁ : GateState ι :=
    { s with gate := ⟨s.gate.periodicClaims.forget i, s.gate.wake.forget i⟩ }
  let s₂ := s₁.setWorker i w
  let s₃ := if giveBack then s₂.releasePermit else s₂
  if forward then s₃.notifyOne else s₃

abbrev Result (ι : Type*) := Option (GateState ι × ClaimLog ι)

/-- `admit_claim` and the first poll of its futures. -/
def admitClaim (s : GateState ι) (i : ι) : Result ι :=
  let w := s.workers i
  match w.phase with
  | .looping =>
      if w.afterJob then
        some (s.setWorker i { w with phase := .claiming .afterJob }, [(i, .afterJob)])
      else if w.permit then
        some (s.setWorker i { w with phase := .claiming .periodic }, [(i, .periodic)])
      else if w.cancelled then some (s.dropPermit i { w with phase := .cleaning }, [])
      else if 0 < s.gate.periodicClaims.available then
        some ({ s with gate := { s.gate with periodicClaims := s.gate.periodicClaims.take } }.setWorker
          i { w with phase := .claiming .periodic, permit := true }, [(i, .periodic)])
      else if s.gate.wake.stored then
        some ({ s with gate := { s.gate with wake := { s.gate.wake with stored := false } } }.setWorker
          i { w with phase := .claiming .notified }, [(i, .notified)])
      else
        some ({ s with gate := ⟨s.gate.periodicClaims.park i, s.gate.wake.park i⟩ }.setWorker
          i { w with phase := .admitting false false }, [])
  | _ => none

/-- The branches in the order of the source. -/
def poll (s : GateState ι) (i : ι) : Result ι :=
  let w := s.workers i
  match w.phase with
  | .admitting granted notified =>
      if w.cancelled then some (s.endSelect i { w with phase := .cleaning } granted notified, [])
      else if granted then
        some (s.endSelect i { w with phase := .claiming .periodic, permit := true } false notified,
          [(i, .periodic)])
      else if notified then
        some (s.endSelect i { w with phase := .claiming .notified } false false, [(i, .notified)])
      else some (s, [])
  | _ => none

def fetched (s : GateState ι) (i : ι) (result : Fetched) : Result ι :=
  let w := s.workers i
  match w.phase with
  | .claiming _ =>
      match result with
      | .job => some (s.dropPermit i { w with phase := .running, afterJob := true }, [])
      | .nothing =>
          if w.permit then some (s.setWorker i { w with phase := .sleeping, afterJob := false }, [])
          else some (s.setWorker i { w with afterJob := false }.again, [])
      | .error => some (s.dropPermit i { w with phase := .backingOff, afterJob := false }, [])
  | _ => none

def ran (s : GateState ι) (i : ι) (ok : Bool) : Result ι :=
  let w := s.workers i
  match w.phase with
  | .running =>
      if ok then some (s.setWorker i w.again, [])
      else some (s.dropPermit i { w with phase := .backingOff, afterJob := false }, [])
  | _ => none

def slept (s : GateState ι) (i : ι) : Result ι :=
  let w := s.workers i
  match w.phase with
  | .sleeping => some (s.setWorker i w.again, [])
  | .backingOff =>
      some (s.setWorker i { w with
        phase := .looping
        tickErrorBackoff := min (w.tickErrorBackoff * 2) tickErrorBackoffMax }, [])
  | _ => none

def stop (s : GateState ι) (i : ι) : Result ι :=
  let w := s.workers i
  if w.cancelled then
    match w.phase with
    | .claiming _ | .running | .sleeping | .backingOff =>
        some (s.dropPermit i { w with phase := .cleaning }, [])
    | _ => none
  else none

def cleanup (s : GateState ι) (i : ι) : Result ι :=
  let w := s.workers i
  match w.phase with
  | .cleaning => some (s.setWorker i { w with phase := .exited }, [])
  | _ => none

def die (s : GateState ι) (i : ι) : Result ι :=
  let w := s.workers i
  match w.phase with
  | .exited => none
  | .admitting granted notified =>
      some (s.endSelect i { w with phase := .exited } granted notified, [])
  | _ => some (s.dropPermit i { w with phase := .exited }, [])

def cancel (s : GateState ι) (i : ι) : Result ι :=
  some (s.setWorker i { s.workers i with cancelled := true }, [])

def step (s : GateState ι) : GateAction ι → Result ι
  | .admitClaim i => s.admitClaim i
  | .poll i => s.poll i
  | .fetched i result => s.fetched i result
  | .ran i ok => s.ran i ok
  | .slept i => s.slept i
  | .stop i => s.stop i
  | .cleanup i => s.cleanup i
  | .die i => s.die i
  | .cancel i => s.cancel i
  | .wakeOne => some (s.notifyOne, [])

end GateState

/-- Every run of workers that share a gate. -/
abbrev GateRun (periodicClaimers : ℕ+) : ClaimLog ι → GateState ι → Prop :=
  StepRun.Run GateState.step StepRun.Free (.init periodicClaimers)

/-! ## What a worker may hold -/

namespace GatedWorker

variable {w : GatedWorker}

/-- In the queue for a permit. -/
def Waits (w : GatedWorker) : Prop := ∃ notified, w.phase = .admitting false notified

/-- In a periodic claim or in the idle sleep. -/
def polls (w : GatedWorker) : Bool := w.phase == .claiming .periodic || w.phase == .sleeping

/-- A permit is held in a periodic claim and in the idle sleep, and at the top of the loop
after that sleep. -/
structure Sound (w : GatedWorker) : Prop where
  permit : w.permit = true → w.phase = .claiming .periodic ∨
    (w.phase = .sleeping ∨ w.phase = .looping) ∧ w.afterJob = false
  polls : w.polls = true → w.permit = true
  backoff : tickErrorBackoffBase ≤ w.tickErrorBackoff ∧ w.tickErrorBackoff ≤ tickErrorBackoffMax

/-- Elsewhere a worker has no permit. -/
theorem Sound.none (h : w.Sound) (hphase : w.phase ≠ .claiming .periodic ∧ w.phase ≠ .sleeping ∧
    w.phase ≠ .looping) : w.permit = false := by
  rw [Bool.eq_false_iff]
  intro hpermit
  rcases h.permit hpermit with hp | ⟨hp | hp, -⟩
  · exact hphase.1 hp
  · exact hphase.2.1 hp
  · exact hphase.2.2 hp

theorem backoff_base : tickErrorBackoffBase ≤ tickErrorBackoffBase ∧
    tickErrorBackoffBase ≤ tickErrorBackoffMax := by decide

theorem Sound.held_of_polls (h : w.Sound) (hpolls : w.polls = true) : 1 ≤ w.held := by
  rw [held, h.polls hpolls]
  exact Nat.le_add_right 1 _

/-- A worker that runs a body, backs off, or has left its loop holds nothing. -/
theorem Sound.held_eq_zero (h : w.Sound) (hphase : w.phase = .running ∨ w.phase = .backingOff ∨
    w.phase = .cleaning ∨ w.phase = .exited) : w.held = 0 := by
  have hpermit : w.permit = false := h.none (by rcases hphase with hp | hp | hp | hp <;> simp [hp])
  rcases hphase with hp | hp | hp | hp <;> simp [held, hpermit, hp]

theorem Waits.held (hwaits : w.Waits) (h : w.Sound) : w.held = 0 := by
  obtain ⟨notified, hp⟩ := hwaits
  have hpermit : w.permit = false := h.none (by simp [hp])
  simp [GatedWorker.held, hpermit, hp]

theorem held_grant (hwaits : w.Waits) : w.grant.held = w.held + 1 := by
  obtain ⟨notified, hp⟩ := hwaits
  simp [GatedWorker.held, grant, hp]

theorem grant_not_waits (w : GatedWorker) : ¬ w.grant.Waits := by
  rintro ⟨notified, hp⟩
  unfold grant at hp
  split at hp
  · cases hp
  · next hne => exact hne _ _ hp

theorem notify_waits : w.notify.Waits ↔ w.Waits := by
  unfold notify Waits
  split
  · next hp => simp [hp]
  · rfl

theorem held_notify (w : GatedWorker) : w.notify.held = w.held := by
  unfold notify
  split
  · next hp => simp [held, hp]
  · rfl

/-- Not in the `select!` of `admit_claim`. -/
def Outside (w : GatedWorker) : Prop := ∀ granted notified, w.phase ≠ .admitting granted notified

theorem Outside.not_waits (h : w.Outside) : ¬ w.Waits := fun ⟨notified, hp⟩ => h false notified hp

theorem Outside.held (h : w.Outside) : w.held = w.permit.toNat := by
  unfold GatedWorker.held
  split
  · next hp => exact absurd hp (h _ _)
  · exact Nat.add_zero _

theorem sound_without (hpermit : w.permit = false) (hpolls : w.polls = false)
    (hbackoff : tickErrorBackoffBase ≤ w.tickErrorBackoff ∧ w.tickErrorBackoff ≤ tickErrorBackoffMax) :
    w.Sound :=
  ⟨fun h => by simp [hpermit] at h, fun h => by simp [hpolls] at h, hbackoff⟩

/-- Soundness does not depend on what the futures of `admit_claim` were assigned. -/
theorem Sound.admitting (h : w.Sound) {granted notified granted' notified' : Bool}
    (hp : w.phase = .admitting granted notified) :
    ({ w with phase := .admitting granted' notified' } : GatedWorker).Sound := by
  refine ⟨fun hpermit => ?_, fun hpolls => ?_, h.backoff⟩
  · have hholds := h.permit hpermit
    simp [hp] at hholds
  · simp [GatedWorker.polls] at hpolls

theorem Sound.grant (h : w.Sound) : w.grant.Sound := by
  unfold GatedWorker.grant
  split
  · next hp => exact h.admitting hp
  · exact h

theorem Sound.notify (h : w.Sound) : w.notify.Sound := by
  unfold GatedWorker.notify
  split
  · next hp => exact h.admitting hp
  · exact h

end GatedWorker

/-! ## The permits -/

namespace GateState

variable [Fintype ι] {s s' : GateState ι} {i j : ι} {w : GatedWorker} {t t' : ℕ}

/-- All permits: those that are held and those that are available. -/
def total (s : GateState ι) : ℕ := (∑ i, (s.workers i).held) + s.gate.periodicClaims.available

structure Inv (t : ℕ) (s : GateState ι) : Prop where
  total : s.total = t
  sound : ∀ i, (s.workers i).Sound
  fair : s.gate.periodicClaims.Fair fun i => (s.workers i).Waits

theorem total_setWorker (s : GateState ι) (i : ι) (w : GatedWorker) :
    (s.setWorker i w).total + (s.workers i).held = s.total + w.held := by
  have hheld : ∀ x, ((s.setWorker i w).workers x).held =
      Function.update (fun x => (s.workers x).held) i w.held x :=
    fun x => Function.apply_update (fun _ => GatedWorker.held) s.workers i w x
  have hsum := Semaphore.sum_update_add (fun x => (s.workers x).held) i w.held
  simp only [total, hheld]
  simp only [setWorker] at hsum ⊢
  omega

omit [Fintype ι] in
theorem sound_setWorker (h : ∀ i, (s.workers i).Sound) (hw : w.Sound) (x : ι) :
    ((s.setWorker i w).workers x).Sound := by
  by_cases hx : x = i
  · subst hx
    simpa [setWorker] using hw
  · simpa [setWorker, hx] using h x

theorem Inv.setWorker (h : s.Inv t) (hw : w.Sound) (hwaits : w.Waits ↔ (s.workers i).Waits)
    (ht : t' + (s.workers i).held = t + w.held) : (s.setWorker i w).Inv t' := by
  refine ⟨?_, sound_setWorker h.sound hw, h.fair.congr fun x => ?_⟩
  · have htotal := s.total_setWorker i w
    have htotal' := h.total
    omega
  · by_cases hx : x = i
    · subst hx
      simpa [GateState.setWorker] using hwaits
    · simp [GateState.setWorker, hx]

/-- A permit that comes back is one more among all permits. -/
theorem Inv.releasePermit (h : s.Inv t) : s.releasePermit.Inv (t + 1) := by
  unfold GateState.releasePermit
  dsimp only
  split
  · next hnil =>
      obtain ⟨hfair, havailable⟩ := h.fair.release_nil hnil
      refine ⟨?_, h.sound, hfair⟩
      have htotal := h.total
      simp only [GateState.total, havailable] at htotal ⊢
      omega
  · next j rest hcons =>
      obtain ⟨hwaits, hfair, havailable⟩ := h.fair.release_cons hcons
      refine ⟨?_, sound_setWorker h.sound (h.sound j).grant, hfair.congr fun x => ?_⟩
      · have hset := GateState.total_setWorker
          { s with gate := { s.gate with periodicClaims := s.gate.periodicClaims.release } }
          j (s.workers j).grant
        have hgrant := GatedWorker.held_grant hwaits
        have htotal := h.total
        simp only [GateState.total, havailable] at htotal hset ⊢
        omega
      · by_cases hx : x = j
        · subst hx
          simpa [GateState.setWorker] using (s.workers x).grant_not_waits
        · simp [GateState.setWorker, hx]

omit [DecidableEq ι] in
theorem Inv.wake (h : s.Inv t) (n : Notify ι) :
    ({ s with gate := { s.gate with wake := n } } : GateState ι).Inv t :=
  ⟨h.total, h.sound, h.fair⟩

theorem Inv.notifyOne (h : s.Inv t) : s.notifyOne.Inv t := by
  unfold GateState.notifyOne
  split
  · exact h.wake _
  · exact (h.wake _).setWorker (h.sound _).notify GatedWorker.notify_waits
      (by rw [GatedWorker.held_notify])

/-- A worker goes on outside the `select!` and keeps its permit. -/
theorem Inv.move (h : s.Inv t) (hout : (s.workers i).Outside) (hout' : w.Outside) (hw : w.Sound)
    (hpermit : w.permit = (s.workers i).permit) : (s.setWorker i w).Inv t :=
  h.setWorker hw (iff_of_false hout'.not_waits hout.not_waits) (by rw [hout.held, hout'.held, hpermit])

/-- The permit that a worker drops comes back. -/
theorem Inv.dropPermit (h : s.Inv t) (hout : (s.workers i).Outside)
    (hout' : ({ w with permit := false } : GatedWorker).Outside)
    (hw : ({ w with permit := false } : GatedWorker).Sound) : (s.dropPermit i w).Inv t := by
  have hset : (s.setWorker i { w with permit := false }).total + (s.workers i).permit.toNat = t := by
    have hset := s.total_setWorker i { w with permit := false }
    rw [hout.held, hout'.held, h.total] at hset
    exact hset
  have hinv : (s.setWorker i { w with permit := false }).Inv _ :=
    h.setWorker hw (iff_of_false hout'.not_waits hout.not_waits)
      (by rw [hout.held, hout'.held]; exact hset)
  unfold GateState.dropPermit
  dsimp only
  split_ifs with hpermit
  · rw [hpermit] at hset
    exact hset ▸ hinv.releasePermit
  · rw [Bool.eq_false_iff.2 hpermit] at hset
    exact hset ▸ hinv

/-- What the futures of the `select!` were assigned goes on. -/
theorem Inv.endSelect {giveBack forward : Bool} (h : s.Inv t) (hw : w.Sound) (hwaits : ¬ w.Waits)
    (hheld : (s.workers i).held = w.held + giveBack.toNat) :
    (s.endSelect i w giveBack forward).Inv t := by
  let s₁ : GateState ι :=
    { s with gate := ⟨s.gate.periodicClaims.forget i, s.gate.wake.forget i⟩ }
  have hset : (s₁.setWorker i w).total + giveBack.toNat = t := by
    have hset : (s₁.setWorker i w).total + (s.workers i).held = s.total + w.held :=
      s₁.total_setWorker i w
    have htotal := h.total
    omega
  have hinv : (s₁.setWorker i w).Inv (s₁.setWorker i w).total := by
    refine ⟨rfl, sound_setWorker h.sound hw, (h.fair.forget i).congr fun x => ?_⟩
    by_cases hx : x = i
    · subst hx
      simpa [GateState.setWorker] using hwaits
    · simp [GateState.setWorker, s₁, hx]
  have hreleased : (if giveBack then (s₁.setWorker i w).releasePermit else s₁.setWorker i w).Inv t := by
    split_ifs with hgive
    · rw [hgive] at hset
      exact hset ▸ hinv.releasePermit
    · rw [Bool.eq_false_iff.2 hgive] at hset
      exact hset ▸ hinv
  unfold GateState.endSelect
  dsimp only
  by_cases hforward : forward = true
  · rw [if_pos hforward]
    exact hreleased.notifyOne
  · rw [if_neg hforward]
    exact hreleased

omit [DecidableEq ι] in
theorem Inv.take (h : s.Inv t) (havailable : 0 < s.gate.periodicClaims.available) :
    ({ s with gate := { s.gate with periodicClaims := s.gate.periodicClaims.take } } :
      GateState ι).Inv (t - 1) := by
  refine ⟨?_, h.sound, h.fair.take⟩
  have htotal := h.total
  simp only [GateState.total, Semaphore.take] at htotal ⊢
  omega

theorem Inv.park (h : s.Inv t) (hnone : s.gate.periodicClaims.available = 0)
    (hout : (s.workers i).Outside) (hpermit : (s.workers i).permit = false) :
    (({ s with gate := ⟨s.gate.periodicClaims.park i, s.gate.wake.park i⟩ } : GateState ι).setWorker i
      { s.workers i with phase := .admitting false false }).Inv t := by
  let s₁ : GateState ι := { s with gate := ⟨s.gate.periodicClaims.park i, s.gate.wake.park i⟩ }
  let w : GatedWorker := { s.workers i with phase := .admitting false false }
  have hw : w.Sound := GatedWorker.sound_without hpermit rfl (h.sound i).backoff
  refine ⟨?_, sound_setWorker h.sound hw,
    (h.fair.park hnone hout.not_waits).congr fun x => ?_⟩
  · have hset : (s₁.setWorker i w).total + (s.workers i).held = s.total + w.held :=
      s₁.total_setWorker i w
    have hheld : w.held = 0 := GatedWorker.Waits.held ⟨false, rfl⟩ hw
    rw [hout.held, hpermit, hheld, h.total] at hset
    exact hset
  · by_cases hx : x = i
    · subst hx
      simp [GateState.setWorker, GatedWorker.Waits]
    · simp [GateState.setWorker, hx]

theorem Inv.admitClaim {log : ClaimLog ι} (h : s.Inv t)
    (hs : s.admitClaim i = some (s', log)) : s'.Inv t := by
  have hsound := h.sound i
  unfold GateState.admitClaim at hs
  dsimp only at hs
  split at hs
  · next hp =>
      have hout : (s.workers i).Outside := by simp [GatedWorker.Outside, hp]
      split_ifs at hs with hafter hpermit hcancelled havailable hstored <;>
        simp only [Option.some.injEq, Prod.mk.injEq] at hs <;> obtain ⟨rfl, -⟩ := hs
      · have hnone : (s.workers i).permit = false := by
          rw [Bool.eq_false_iff]
          intro hpermit
          have hholds := hsound.permit hpermit
          simp [hp, hafter] at hholds
        exact h.move hout nofun (GatedWorker.sound_without hnone rfl hsound.backoff) rfl
      · exact h.move hout nofun ⟨fun _ => .inl rfl, fun _ => hpermit, hsound.backoff⟩ rfl
      · exact h.dropPermit hout nofun (GatedWorker.sound_without rfl rfl hsound.backoff)
      · -- a permit is available, and the worker takes it
        refine (h.take havailable).setWorker ⟨fun _ => .inl rfl, fun _ => rfl, hsound.backoff⟩
          (iff_of_false (by simp [GatedWorker.Waits]) hout.not_waits) ?_
        have hle : s.gate.periodicClaims.available ≤ t := h.total ▸ Nat.le_add_left _ _
        dsimp only
        rw [hout.held, Bool.eq_false_iff.2 hpermit]
        simp only [GatedWorker.held, Bool.toNat_true, Bool.toNat_false]
        omega
      · exact (h.wake _).move hout nofun
          (GatedWorker.sound_without (Bool.eq_false_iff.2 hpermit) rfl hsound.backoff) rfl
      · exact h.park (Nat.eq_zero_of_not_pos havailable) hout (Bool.eq_false_iff.2 hpermit)
  · cases hs

theorem Inv.poll {log : ClaimLog ι} (h : s.Inv t) (hs : s.poll i = some (s', log)) : s'.Inv t := by
  have hsound := h.sound i
  unfold GateState.poll at hs
  dsimp only at hs
  split at hs
  · next granted notified hp =>
      have hnone : (s.workers i).permit = false := hsound.none (by simp [hp])
      have hheld : (s.workers i).held = granted.toNat := by
        simp [GatedWorker.held, hnone, hp]
      split_ifs at hs with hcancelled hgranted hnotified <;>
        simp only [Option.some.injEq, Prod.mk.injEq] at hs <;> obtain ⟨rfl, -⟩ := hs
      · refine h.endSelect (GatedWorker.sound_without hnone rfl hsound.backoff)
          (by simp [GatedWorker.Waits]) ?_
        rw [hheld]
        simp [GatedWorker.held, hnone]
      · refine h.endSelect ⟨fun _ => .inl rfl, fun _ => rfl, hsound.backoff⟩
          (by simp [GatedWorker.Waits]) ?_
        rw [hheld, hgranted]
        simp [GatedWorker.held]
      · refine h.endSelect (GatedWorker.sound_without hnone rfl hsound.backoff)
          (by simp [GatedWorker.Waits]) ?_
        rw [hheld, Bool.eq_false_iff.2 hgranted]
        simp [GatedWorker.held, hnone]
      · exact h
  · cases hs

theorem Inv.fetched {result : Fetched} {log : ClaimLog ι} (h : s.Inv t)
    (hs : s.fetched i result = some (s', log)) : s'.Inv t := by
  have hsound := h.sound i
  unfold GateState.fetched at hs
  dsimp only at hs
  split at hs
  · next kind hp =>
      have hout : (s.workers i).Outside := by simp [GatedWorker.Outside, hp]
      cases result with
      | job =>
          cases hs
          exact h.dropPermit hout nofun (GatedWorker.sound_without rfl rfl hsound.backoff)
      | nothing =>
          dsimp only at hs
          split_ifs at hs with hpermit
          · cases hs
            exact h.move hout nofun
              ⟨fun _ => .inr ⟨.inl rfl, rfl⟩, fun _ => hpermit, hsound.backoff⟩ rfl
          · cases hs
            exact h.move hout nofun
              (GatedWorker.sound_without (Bool.eq_false_iff.2 hpermit) rfl GatedWorker.backoff_base) rfl
      | error =>
          cases hs
          exact h.dropPermit hout nofun (GatedWorker.sound_without rfl rfl hsound.backoff)
  · cases hs

theorem Inv.ran {ok : Bool} {log : ClaimLog ι} (h : s.Inv t)
    (hs : s.ran i ok = some (s', log)) : s'.Inv t := by
  have hsound := h.sound i
  unfold GateState.ran at hs
  dsimp only at hs
  split at hs
  · next hp =>
      have hout : (s.workers i).Outside := by simp [GatedWorker.Outside, hp]
      have hnone : (s.workers i).permit = false := hsound.none (by simp [hp])
      split_ifs at hs with hok
      · cases hs
        exact h.move hout nofun (GatedWorker.sound_without hnone rfl GatedWorker.backoff_base) rfl
      · cases hs
        exact h.dropPermit hout nofun (GatedWorker.sound_without rfl rfl hsound.backoff)
  · cases hs

theorem Inv.slept {log : ClaimLog ι} (h : s.Inv t) (hs : s.slept i = some (s', log)) : s'.Inv t := by
  have hsound := h.sound i
  unfold GateState.slept at hs
  dsimp only at hs
  split at hs
  · next hp =>
      cases hs
      have hout : (s.workers i).Outside := by simp [GatedWorker.Outside, hp]
      -- the permit of the sleep is kept for the next periodic claim
      refine h.move hout nofun ⟨fun hpermit => .inr ⟨.inr rfl, ?_⟩, nofun, GatedWorker.backoff_base⟩ rfl
      have hholds : (s.workers i).afterJob = false := by simpa [hp] using hsound.permit hpermit
      exact hholds
  · next hp =>
      cases hs
      have hout : (s.workers i).Outside := by simp [GatedWorker.Outside, hp]
      have hnone : (s.workers i).permit = false := hsound.none (by simp [hp])
      refine h.move hout nofun (GatedWorker.sound_without hnone rfl ?_) rfl
      have hbackoff := hsound.backoff
      simp only [tickErrorBackoffBase, tickErrorBackoffMax] at hbackoff ⊢
      omega
  · cases hs

theorem Inv.stop {log : ClaimLog ι} (h : s.Inv t) (hs : s.stop i = some (s', log)) : s'.Inv t := by
  have hsound := h.sound i
  unfold GateState.stop at hs
  dsimp only at hs
  split_ifs at hs
  split at hs
  all_goals cases hs
  all_goals
    next hp =>
      exact h.dropPermit (by simp [GatedWorker.Outside, hp]) nofun
        (GatedWorker.sound_without rfl rfl hsound.backoff)

theorem Inv.die {log : ClaimLog ι} (h : s.Inv t) (hs : s.die i = some (s', log)) : s'.Inv t := by
  have hsound := h.sound i
  unfold GateState.die at hs
  dsimp only at hs
  split at hs
  · cases hs
  · next granted notified hp =>
      cases hs
      have hnone : (s.workers i).permit = false := hsound.none (by simp [hp])
      refine h.endSelect (GatedWorker.sound_without hnone rfl hsound.backoff)
        (by simp [GatedWorker.Waits]) ?_
      simp [GatedWorker.held, hnone, hp]
  · next hne =>
      cases hs
      exact h.dropPermit hne nofun (GatedWorker.sound_without rfl rfl hsound.backoff)

theorem Inv.cleanup {log : ClaimLog ι} (h : s.Inv t) (hs : s.cleanup i = some (s', log)) :
    s'.Inv t := by
  have hsound := h.sound i
  unfold GateState.cleanup at hs
  dsimp only at hs
  split at hs
  · next hp =>
      cases hs
      have hnone : (s.workers i).permit = false := hsound.none (by simp [hp])
      exact h.move (by simp [GatedWorker.Outside, hp]) nofun
        (GatedWorker.sound_without hnone rfl hsound.backoff) rfl
  · cases hs

/-- The token changes nothing by itself. -/
theorem Inv.cancel {log : ClaimLog ι} (h : s.Inv t) (hs : s.cancel i = some (s', log)) :
    s'.Inv t := by
  cases hs
  have hsound := h.sound i
  exact h.setWorker ⟨hsound.permit, hsound.polls, hsound.backoff⟩ Iff.rfl rfl

theorem Inv.step {a : GateAction ι} {log : ClaimLog ι} (h : s.Inv t)
    (hs : s.step a = some (s', log)) : s'.Inv t := by
  cases a with
  | admitClaim i => exact h.admitClaim hs
  | poll i => exact h.poll hs
  | fetched i result => exact h.fetched hs
  | ran i ok => exact h.ran hs
  | slept i => exact h.slept hs
  | stop i => exact h.stop hs
  | cleanup i => exact h.cleanup hs
  | die i => exact h.die hs
  | cancel i => exact h.cancel hs
  | wakeOne =>
      cases hs
      exact h.notifyOne

end GateState

section
variable [Fintype ι] {periodicClaimers : ℕ+} {log : ClaimLog ι} {s : GateState ι}

theorem GateRun.inv (h : GateRun periodicClaimers log s) : s.Inv periodicClaimers := by
  refine h.safe ⟨?_, fun i => ?_, ⟨List.nodup_nil, fun i => ?_, fun _ => rfl⟩⟩
    fun _ _ _ _ hinv _ hs => hinv.step hs
  · simp [GateState.total, GateState.init, IdlePollGate.new, GatedWorker.held]
  · exact GatedWorker.sound_without rfl rfl GatedWorker.backoff_base
  · simp [GateState.init, IdlePollGate.new, GatedWorker.Waits]

/-- No permit is left over while a worker waits for one. -/
theorem GateRun.no_idle_permit (h : GateRun periodicClaimers log s)
    (hpos : 0 < s.gate.periodicClaims.available) (i : ι) : ¬ (s.workers i).Waits := by
  rw [← h.inv.fair.mem_iff, h.inv.fair.idle hpos]
  exact List.not_mem_nil

/-- Permits that are held and permits that are available are those of the gate; at most so
many workers poll; a worker that runs a body or backs off holds none, and neither does
one that has left its loop. -/
theorem idle_poll_gate (h : GateRun periodicClaimers log s) :
    (∑ i, (s.workers i).held) + s.gate.periodicClaims.available = periodicClaimers ∧
    (Finset.univ.filter fun i => (s.workers i).polls = true).card ≤ periodicClaimers ∧
    (∀ i, (s.workers i).phase = .running ∨ (s.workers i).phase = .backingOff →
      (s.workers i).held = 0) ∧
    ∀ i, (s.workers i).phase = .cleaning ∨ (s.workers i).phase = .exited →
      (s.workers i).held = 0 := by
  have hinv := h.inv
  have htotal : (∑ i, (s.workers i).held) + s.gate.periodicClaims.available = periodicClaimers :=
    hinv.total
  refine ⟨htotal, ?_, fun i hp => (hinv.sound i).held_eq_zero (by tauto),
    fun i hp => (hinv.sound i).held_eq_zero (by tauto)⟩
  have hpolls : (Finset.univ.filter fun i => (s.workers i).polls = true).card ≤
      ∑ i, (s.workers i).held := by
    rw [Finset.card_filter]
    refine Finset.sum_le_sum fun i _ => ?_
    split_ifs with hpolls
    · exact (hinv.sound i).held_of_polls hpolls
    · exact Nat.zero_le _
  omega

/-- One permit among three workers: it passes from the first, which got a job, to the
second, which sleeps with it, while the third makes a claim without one. -/
theorem idle_poll_gate_three : ∃ (log : ClaimLog (Fin 3)) (s : GateState (Fin 3)),
    GateRun 1 log s ∧ log = [(0, .periodic), (1, .periodic), (2, .notified)] ∧
    (s.workers 0).phase = .running ∧ (s.workers 1).phase = .sleeping ∧
    (s.workers 2).phase = .backingOff ∧
    (∑ i, (s.workers i).held) + s.gate.periodicClaims.available = 1 := by
  obtain ⟨log, s, hrun, hp⟩ := StepRun.exists_free_run GateState.step (GateState.init (ι := Fin 3) 1)
    [.admitClaim 0, .admitClaim 1, .admitClaim 2, .fetched 0 .job, .poll 1, .fetched 1 .nothing,
      .wakeOne, .poll 2, .fetched 2 .error]
    (fun log s => decide (log = [(0, .periodic), (1, .periodic), (2, .notified)] ∧
      (s.workers 0).phase = .running ∧ (s.workers 1).phase = .sleeping ∧
      (s.workers 2).phase = .backingOff)) (by decide +kernel)
  obtain ⟨hlog, hrunning, hsleeping, hbacking⟩ := of_decide_eq_true hp
  exact ⟨log, s, hrun, hlog, hrunning, hsleeping, hbacking, (idle_poll_gate hrun).1⟩

end

end

end Cja.Jobs
