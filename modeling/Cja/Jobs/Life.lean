import Cja.Jobs.Steps

/-!
# The life of one job

This is what the queue is for, said about a single job id and without workers'
phases, clocks or statements. A job is ready, or leased to one owner, or ended
in the dead letters or by completion; its error count grows by one with every
charge. The automaton reads the recorded events and refuses an event that may
not happen in the current state: a claim with the wrong count, a release of an
abandoned lease, a completion without an `Ok` seen under the lease. An
abandoned lease ends in no other way than by the next claim.

Worker-side events of a former owner (a body that outlived its lease) are
accepted and change nothing.
-/
namespace Cja.Jobs

structure Lease where
  owner : OwnerToken
  count : ℕ
  dispatched : Bool := false
  okOwned : Bool := false
  abandoned : Bool := false
deriving Repr, DecidableEq

/-- `last` is the owner whose lease ended in readiness. -/
inductive Life
  | absent
  | ready (count : ℕ) (last : Option OwnerToken)
  | leased (lease : Lease)
  | dead (count : ℕ)
  | completed (count : ℕ)
deriving Repr, DecidableEq

namespace Life

def count : Life → ℕ
  | absent => initialErrorCount
  | ready c _ => c
  | leased l => l.count
  | dead c => c
  | completed c => c

def heldBy (w : OwnerToken) : Life → Bool
  | leased l => l.owner == w
  | _ => false

/-- A worker-side event touches the lease only if the worker still holds it. -/
def mark (w : OwnerToken) (f : Lease → Lease) : Life → Life
  | leased l => if l.owner = w then leased (f l) else leased l
  | L => L

/-- The owner whose lease ended last may show no more events of that lease. -/
def gone (w : OwnerToken) : Life → Bool
  | ready _ last => last == some w
  | _ => false

def claim (w : OwnerToken) (previous : Option OwnerToken) (n : ℕ) : Life → Option Life
  | ready c _ => if previous = none ∧ n = c then some (leased { owner := w, count := n }) else none
  | leased l =>
      if previous = some l.owner ∧ n = l.count + 1 then
        some (leased { owner := w, count := n })
      else none
  | _ => none

/-- Leaving the lease, for its owner only. -/
def leave (w : OwnerToken) (ok : Lease → Bool) (next : Lease → Life) : Life → Option Life
  | leased l => if l.owner = w ∧ l.abandoned = false ∧ ok l = true then some (next l) else none
  | _ => none

def observe (w : OwnerToken) (f : Lease → Lease) (L : Life) : Option Life :=
  if L.gone w then none else some (L.mark w f)

def step (j : Uuid) (L : Life) (e : Event) : Option Life :=
  if e.job = j then
    match e with
    | .inserted _ => if L = absent then some (ready initialErrorCount none) else none
    | .claimed w _ previous n => L.claim w previous n
    | .dispatched w _ _ => L.observe w fun l => { l with dispatched := true }
    | .returned w _ ok owned =>
        if owned = L.heldBy w then
          L.observe w fun l => { l with okOwned := l.okOwned || ok }
        else none
    | .abandoned w _ => L.observe w fun l => { l with abandoned := true }
    | .failed w _ => L.leave w (fun _ => true) fun l => ready (l.count + 1) (some w)
    | .released w _ => L.leave w (fun _ => true) fun l => ready l.count (some w)
    | .deadLettered w _ n failedBody =>
        L.leave w (fun l => n == l.count + failedBody.toNat) fun _ => dead n
    | .deleted w _ => L.leave w (fun l => l.okOwned) fun l => completed l.count
  else some L

abbrev replay (j : Uuid) : Life → List Event → Option Life := StepRun.replay (step j)

theorem step_of_ne {j : Uuid} {e : Event} (h : e.job ≠ j) (L : Life) : step j L e = some L := by
  simp [step, h]

/-- Only the events of the job itself matter. -/
theorem replay_filter (j : Uuid) (L : Life) (es : List Event) :
    replay j L (es.filter fun e => e.job = j) = replay j L es := by
  induction es generalizing L with
  | nil => rfl
  | cons e es ih =>
      by_cases h : e.job = j
      · rw [List.filter_cons_of_pos (by simpa using h)]
        exact congrArg (Option.bind (step j L e)) (funext ih)
      · rw [List.filter_cons_of_neg (by simpa using h), ih]
        simp [replay, StepRun.replay, step_of_ne h]

@[simp] theorem mark_count (w : OwnerToken) (f : Lease → Lease)
    (hf : ∀ l, (f l).count = l.count) (L : Life) : (L.mark w f).count = L.count := by
  cases L with
  | leased l => simp only [mark]; split <;> simp [count, hf]
  | _ => rfl

/-- A lease after an observation: as it was, or changed by its owner's event. -/
theorem mark_eq_leased {w : OwnerToken} {f : Lease → Lease} {L : Life} {l : Lease}
    (h : L.mark w f = leased l) :
    ∃ l₀, L = leased l₀ ∧ (l = l₀ ∨ l₀.owner = w ∧ l = f l₀) := by
  cases L with
  | leased l₀ =>
      simp only [mark] at h
      split_ifs at h with hw
      · cases h; exact ⟨l₀, rfl, .inr ⟨hw, rfl⟩⟩
      · cases h; exact ⟨l, rfl, .inl rfl⟩
  | _ => cases h

theorem observe_some {w : OwnerToken} {f : Lease → Lease} {L L' : Life}
    (h : L.observe w f = some L') : L.gone w = false ∧ L' = L.mark w f := by
  unfold observe at h
  split_ifs at h with hg
  exact ⟨by simpa using hg, by simpa using h.symm⟩

theorem leave_some {w : OwnerToken} {ok : Lease → Bool} {next : Lease → Life} {L L' : Life}
    (h : L.leave w ok next = some L') :
    ∃ l, L = leased l ∧ l.owner = w ∧ l.abandoned = false ∧ ok l = true ∧ L' = next l := by
  cases L with
  | leased l =>
      simp only [leave] at h
      split_ifs at h with hc
      exact ⟨l, rfl, hc.1, hc.2.1, hc.2.2, by simpa using h.symm⟩
  | _ => cases h

/-- A claim starts a new lease, charged if it takes the row from an owner. -/
theorem claim_some {w : OwnerToken} {previous : Option OwnerToken} {n : ℕ} {L L' : Life}
    (h : L.claim w previous n = some L') :
    L' = leased { owner := w, count := n } ∧ n = L.count + previous.isSome.toNat ∧
      (∀ p, previous = some p ↔ ∃ l, L = leased l ∧ l.owner = p) := by
  cases L with
  | ready c last =>
      simp only [claim] at h
      split_ifs at h with hc
      exact ⟨by simpa using h.symm, by simp [hc.1, hc.2, count], by simp [hc.1]⟩
  | leased l =>
      simp only [claim] at h
      split_ifs at h with hc
      exact ⟨by simpa using h.symm, by simp [hc.1, hc.2, count], by simp [hc.1]⟩
  | _ => cases h

/-- What one event can do to a life. -/
inductive Moved (j : Uuid) (L : Life) : Event → Life → Prop
  | other {e : Event} (h : e.job ≠ j) : Moved j L e L
  | inserted (h : L = absent) : Moved j L (.inserted j) (ready initialErrorCount none)
  | claimed {w : OwnerToken} {previous : Option OwnerToken} {n : ℕ}
      (hn : n = L.count + previous.isSome.toNat)
      (hprev : ∀ p, previous = some p ↔ ∃ l, L = leased l ∧ l.owner = p)
      (hlive : (∃ c last, L = ready c last) ∨ ∃ l, L = leased l) :
      Moved j L (.claimed w j previous n) (leased { owner := w, count := n })
  | dispatched {w : OwnerToken} {n : ℕ} (h : L.gone w = false) :
      Moved j L (.dispatched w j n) (L.mark w fun l => { l with dispatched := true })
  | returned {w : OwnerToken} {ok : Bool} (h : L.gone w = false) :
      Moved j L (.returned w j ok (L.heldBy w))
        (L.mark w fun l => { l with okOwned := l.okOwned || ok })
  | abandoned {w : OwnerToken} (h : L.gone w = false) :
      Moved j L (.abandoned w j) (L.mark w fun l => { l with abandoned := true })
  | failed {l : Lease} (h : L = leased l) (ha : l.abandoned = false) :
      Moved j L (.failed l.owner j) (ready (l.count + 1) (some l.owner))
  | released {l : Lease} (h : L = leased l) (ha : l.abandoned = false) :
      Moved j L (.released l.owner j) (ready l.count (some l.owner))
  | deadLettered {l : Lease} {failedBody : Bool} (h : L = leased l) (ha : l.abandoned = false) :
      Moved j L (.deadLettered l.owner j (l.count + failedBody.toNat) failedBody)
        (dead (l.count + failedBody.toNat))
  | deleted {l : Lease} (h : L = leased l) (ha : l.abandoned = false) (hok : l.okOwned = true) :
      Moved j L (.deleted l.owner j) (completed l.count)

theorem step_moved {j : Uuid} {L L' : Life} {e : Event} (h : step j L e = some L') :
    Moved j L e L' := by
  by_cases hj : e.job = j
  swap
  · rw [step_of_ne hj] at h
    cases h
    exact .other hj
  simp only [step, hj, if_true] at h
  cases e with
  | inserted k =>
      obtain rfl : k = j := hj
      simp only at h
      split_ifs at h with ha
      cases h
      exact .inserted ha
  | claimed w k previous n =>
      obtain rfl : k = j := hj
      have hlive : (∃ c last, L = ready c last) ∨ ∃ l, L = leased l := by
        cases L with
        | ready c last => exact .inl ⟨c, last, rfl⟩
        | leased l => exact .inr ⟨l, rfl⟩
        | _ => cases h
      obtain ⟨rfl, hn, hprev⟩ := claim_some h
      exact .claimed hn hprev hlive
  | dispatched w k n =>
      obtain rfl : k = j := hj
      obtain ⟨hg, rfl⟩ := observe_some h
      exact .dispatched hg
  | returned w k ok owned =>
      obtain rfl : k = j := hj
      simp only at h
      split_ifs at h with ho
      obtain ⟨hg, rfl⟩ := observe_some h
      subst ho
      exact .returned hg
  | abandoned w k =>
      obtain rfl : k = j := hj
      obtain ⟨hg, rfl⟩ := observe_some h
      exact .abandoned hg
  | failed w k =>
      obtain rfl : k = j := hj
      obtain ⟨l, hl, rfl, ha, -, rfl⟩ := leave_some h
      exact .failed hl ha
  | released w k =>
      obtain rfl : k = j := hj
      obtain ⟨l, hl, rfl, ha, -, rfl⟩ := leave_some h
      exact .released hl ha
  | deadLettered w k n failedBody =>
      obtain rfl : k = j := hj
      obtain ⟨l, hl, rfl, ha, hn, rfl⟩ := leave_some h
      obtain rfl : n = l.count + failedBody.toNat := by simpa using hn
      exact .deadLettered hl ha
  | deleted w k =>
      obtain rfl : k = j := hj
      obtain ⟨l, hl, rfl, ha, hok, rfl⟩ := leave_some h
      exact .deleted hl ha hok

/-- A property of lives that every event of a stretch keeps. -/
theorem replay_induction {j : Uuid} {I : Life → Prop} {es : List Event} {L L' : Life}
    (hstep : ∀ M e M', e ∈ es → I M → Moved j M e M' → I M') (hL : I L)
    (h : replay j L es = some L') : I L' :=
  StepRun.replay_invariant (fun M e M' he hM hs => hstep M e M' he hM (step_moved hs)) hL h

/-- What a life has seen, it saw by one of the events. -/
theorem replay_origin {j : Uuid} {I : Life → Prop} {E : Event → Prop} {es : List Event}
    {L L' : Life} (hstep : ∀ M e M', Moved j M e M' → I M' → I M ∨ E e) (hL : ¬I L)
    (h : replay j L es = some L') (hI : I L') : ∃ e ∈ es, E e := by
  by_contra hno
  refine replay_induction (I := fun M => ¬I M) (fun M e M' he hM hm hM' => ?_) hL h hI
  exact (hstep M e M' hm hM').elim hM fun hE => hno ⟨e, he, hE⟩

/-! ## Charges -/

/-- What one event adds to the error count of job `j`. -/
def charge (j : Uuid) : Event → ℕ
  | .failed _ k => if k = j then 1 else 0
  | .claimed _ k previous _ => if k = j then previous.isSome.toNat else 0
  | .deadLettered _ k _ failedBody => if k = j then failedBody.toNat else 0
  | _ => 0

def chargesOf (j : Uuid) (log : List Event) : ℕ := (log.map (charge j)).sum

@[simp] theorem chargesOf_nil (j : Uuid) : chargesOf j [] = 0 := rfl

@[simp] theorem chargesOf_cons (j : Uuid) (e : Event) (es : List Event) :
    chargesOf j (e :: es) = charge j e + chargesOf j es := rfl

@[simp] theorem chargesOf_append (j : Uuid) (es fs : List Event) :
    chargesOf j (es ++ fs) = chargesOf j es + chargesOf j fs := by
  simp [chargesOf]

theorem charge_of_ne {j : Uuid} {e : Event} (h : e.job ≠ j) : charge j e = 0 := by
  cases e <;> simp_all [charge, Event.job]

/-- One event moves the count by its charge. -/
theorem step_count {j : Uuid} {L L' : Life} {e : Event} (h : step j L e = some L') :
    L'.count = L.count + charge j e := by
  cases step_moved h with
  | other hj => simp [charge_of_ne hj]
  | inserted ha => simp [ha, count, charge]
  | claimed hn => simp [count, charge, hn]
  | dispatched => simp [charge]
  | returned => simp [charge]
  | abandoned => simp [charge]
  | failed hl => simp [hl, count, charge]
  | released hl => simp [hl, count, charge]
  | deadLettered hl => simp [hl, count, charge]
  | deleted hl => simp [hl, count, charge]

/-- The count after any stretch of events is the count before plus its charges. -/
theorem replay_count {j : Uuid} {L L' : Life} {es : List Event}
    (h : replay j L es = some L') : L'.count = L.count + chargesOf j es := by
  induction es generalizing L with
  | nil =>
      simp only [replay, StepRun.replay, Option.some.injEq] at h
      simp [h]
  | cons e es ih =>
      simp only [replay, StepRun.replay, Option.bind_eq_some_iff] at h
      obtain ⟨M, hM, hr⟩ := h
      rw [ih hr, step_count hM, chargesOf_cons, Nat.add_assoc]

end Life

end Cja.Jobs
