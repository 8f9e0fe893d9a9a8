import Mathlib.Algebra.BigOperators.Group.Finset.Basic
import Mathlib.Data.Fintype.BigOperators

/-!
# A fair semaphore and a notification

`tokio::sync::Semaphore` and `Notify`, as their documentation has them. A `Semaphore`
counts the permits that are available and queues the clients that wait for one: it is
fair, permits are given out in the order in which they were requested, and a permit that
comes back goes to the first that waits. `Fair` ties the queue to what the clients
themselves know of their waiting. A `Notify` queues clients in the same way, and keeps one
notification for the next client where none waits.

What a client that is dropped gives back, a permit assigned to it or a notification it
received, is its own affair: `forget` only takes it out of the queue.
-/

/-- `waiters` are the `acquire` futures that were polled and got no permit. -/
structure Semaphore (ι : Type*) where
  available : ℕ
  waiters : List ι

/-- `stored` is the permit of `notify_one`, and `waiters` the `notified` futures that were
polled and not notified. -/
structure Notify (ι : Type*) where
  stored : Bool
  waiters : List ι

/-- Behind the first client of a queue stand the others. -/
theorem mem_behind_first {ι : Type*} {x j : ι} {rest : List ι} (h : (j :: rest).Nodup) :
    x ∈ rest ↔ x ≠ j ∧ x ∈ j :: rest := by
  rw [List.mem_cons]
  constructor
  · intro hx
    exact ⟨fun heq => (List.nodup_cons.1 h).1 (heq ▸ hx), .inr hx⟩
  · rintro ⟨hne, heq | hx⟩
    · exact absurd heq hne
    · exact hx

namespace Semaphore

variable {ι : Type*}

/-- An `acquire` that finds a permit available. -/
def take (s : Semaphore ι) : Semaphore ι := { s with available := s.available - 1 }

/-- An `acquire` that finds none waits behind the others. -/
def park (s : Semaphore ι) (i : ι) : Semaphore ι := { s with waiters := s.waiters ++ [i] }

/-- A permit is dropped: it is added back to the semaphore, for the first that waits. -/
def release (s : Semaphore ι) : Semaphore ι :=
  match s.waiters with
  | [] => { s with available := s.available + 1 }
  | _ :: rest => { s with waiters := rest }

/-- A client waits no longer: cancelling an `acquire` loses its place in the queue. -/
def forget [DecidableEq ι] (s : Semaphore ι) (i : ι) : Semaphore ι :=
  { s with waiters := s.waiters.filter (· ≠ i) }

/-- The queue holds each client that waits once, and no permit is left over while one
waits. -/
structure Fair (s : Semaphore ι) (waits : ι → Prop) : Prop where
  nodup : s.waiters.Nodup
  mem_iff : ∀ i, i ∈ s.waiters ↔ waits i
  idle : 0 < s.available → s.waiters = []

variable {s : Semaphore ι} {waits waits' : ι → Prop} {i j : ι} {rest : List ι}

theorem Fair.congr (h : s.Fair waits) (heq : ∀ i, waits' i ↔ waits i) : s.Fair waits' :=
  ⟨h.nodup, fun i => (h.mem_iff i).trans (heq i).symm, h.idle⟩

theorem Fair.take (h : s.Fair waits) : s.take.Fair waits :=
  ⟨h.nodup, h.mem_iff, fun hpos => h.idle (Nat.lt_of_lt_of_le hpos (Nat.sub_le _ _))⟩

theorem Fair.park (h : s.Fair waits) (hnone : s.available = 0) (hi : ¬ waits i) :
    (s.park i).Fair fun x => x = i ∨ waits x := by
  refine ⟨?_, fun x => ?_, fun hpos => ?_⟩
  · refine h.nodup.append (List.nodup_singleton i) ?_
    rw [List.disjoint_singleton, h.mem_iff]
    exact hi
  · rw [Semaphore.park, List.mem_append, List.mem_singleton, h.mem_iff, or_comm]
  · simp only [Semaphore.park, hnone, Nat.lt_irrefl] at hpos

theorem Fair.forget [DecidableEq ι] (h : s.Fair waits) (i : ι) :
    (s.forget i).Fair fun x => x ≠ i ∧ waits x := by
  refine ⟨h.nodup.filter _, fun x => ?_, fun hpos => ?_⟩
  · rw [Semaphore.forget, List.mem_filter, h.mem_iff, and_comm, decide_eq_true_eq]
  · simp only [Semaphore.forget, h.idle hpos, List.filter_nil]

/-- Without a client that waits the permit is available. -/
theorem Fair.release_nil (h : s.Fair waits) (hnil : s.waiters = []) :
    s.release.Fair waits ∧ s.release.available = s.available + 1 := by
  unfold Semaphore.release
  rw [hnil]
  refine ⟨⟨List.nodup_nil, fun i => ?_, fun _ => rfl⟩, rfl⟩
  rw [← h.mem_iff, hnil]

/-- The first client that waits gets the permit. -/
theorem Fair.release_cons (h : s.Fair waits) (hcons : s.waiters = j :: rest) :
    waits j ∧ (s.release.Fair fun x => x ≠ j ∧ waits x) ∧ s.release.available = s.available := by
  have hnodup := h.nodup
  rw [hcons] at hnodup
  unfold Semaphore.release
  rw [hcons]
  refine ⟨(h.mem_iff j).1 (hcons ▸ List.mem_cons_self), ⟨hnodup.of_cons, fun x => ?_, fun hpos => ?_⟩, rfl⟩
  · rw [← h.mem_iff, hcons]
    exact mem_behind_first hnodup
  · have hempty := h.idle hpos
    rw [hcons] at hempty
    cases hempty

/-- What one client's change does to the permits that all of them hold. -/
theorem sum_update_add [Fintype ι] [DecidableEq ι] (f : ι → ℕ) (i : ι) (n : ℕ) :
    (∑ x, Function.update f i n x) + f i = (∑ x, f x) + n := by
  have hmem : i ∈ (Finset.univ : Finset ι) := Finset.mem_univ i
  rw [Finset.sum_update_of_mem hmem, ← Finset.add_sum_erase _ f hmem, Finset.erase_eq]
  omega

end Semaphore

namespace Notify

variable {ι : Type*}

/-- `notify_one`: the first client that waits is notified, or the next one to come. -/
def notifyOne (n : Notify ι) : Notify ι :=
  match n.waiters with
  | [] => { n with stored := true }
  | _ :: rest => { n with waiters := rest }

/-- A `notified` that finds no permit waits behind the others. -/
def park (n : Notify ι) (i : ι) : Notify ι := { n with waiters := n.waiters ++ [i] }

/-- A `notified` is dropped, or was notified. -/
def forget [DecidableEq ι] (n : Notify ι) (i : ι) : Notify ι :=
  { n with waiters := n.waiters.filter (· ≠ i) }

/-- The queue holds each client that listens once, and no notification is kept while one
listens. -/
structure Fair (n : Notify ι) (listens : ι → Prop) : Prop where
  nodup : n.waiters.Nodup
  mem_iff : ∀ i, i ∈ n.waiters ↔ listens i
  idle : n.stored = true → n.waiters = []

variable {n : Notify ι} {listens listens' : ι → Prop} {i j : ι} {rest : List ι}

theorem Fair.congr (h : n.Fair listens) (heq : ∀ i, listens' i ↔ listens i) : n.Fair listens' :=
  ⟨h.nodup, fun i => (h.mem_iff i).trans (heq i).symm, h.idle⟩

theorem Fair.unstore (h : n.Fair listens) : ({ n with stored := false } : Notify ι).Fair listens :=
  ⟨h.nodup, h.mem_iff, nofun⟩

theorem Fair.park (h : n.Fair listens) (hnone : n.stored = false) (hi : ¬ listens i) :
    (n.park i).Fair fun x => x = i ∨ listens x := by
  refine ⟨?_, fun x => ?_, fun hstored => ?_⟩
  · refine h.nodup.append (List.nodup_singleton i) ?_
    rw [List.disjoint_singleton, h.mem_iff]
    exact hi
  · rw [Notify.park, List.mem_append, List.mem_singleton, h.mem_iff, or_comm]
  · rw [Notify.park, hnone] at hstored
    cases hstored

theorem Fair.forget [DecidableEq ι] (h : n.Fair listens) (i : ι) :
    (n.forget i).Fair fun x => x ≠ i ∧ listens x := by
  refine ⟨h.nodup.filter _, fun x => ?_, fun hstored => ?_⟩
  · rw [Notify.forget, List.mem_filter, h.mem_iff, and_comm, decide_eq_true_eq]
  · simp only [Notify.forget, h.idle hstored, List.filter_nil]

theorem Fair.notifyOne_nil (h : n.Fair listens) (hnil : n.waiters = []) :
    n.notifyOne.Fair listens ∧ n.notifyOne.stored = true := by
  unfold Notify.notifyOne
  rw [hnil]
  refine ⟨⟨List.nodup_nil, fun i => ?_, fun _ => rfl⟩, rfl⟩
  rw [← h.mem_iff, hnil]

/-- The first client that listens is notified. -/
theorem Fair.notifyOne_cons (h : n.Fair listens) (hcons : n.waiters = j :: rest) :
    listens j ∧ n.notifyOne.Fair fun x => x ≠ j ∧ listens x := by
  have hnodup := h.nodup
  rw [hcons] at hnodup
  unfold Notify.notifyOne
  rw [hcons]
  refine ⟨(h.mem_iff j).1 (hcons ▸ List.mem_cons_self), hnodup.of_cons, fun x => ?_, fun hstored => ?_⟩
  · rw [← h.mem_iff, hcons]
    exact mem_behind_first hnodup
  · have hempty := h.idle hstored
    rw [hcons] at hempty
    cases hempty

end Notify
