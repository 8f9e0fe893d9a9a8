import Mathlib

/-!
# Task-local variables

A key of a task-local is a variable that every future scoped with it has for itself,
while it is polled and while it is dropped, on any thread. `LocalKey.Lawful` says so of a
key, with the value of each future and the scopes that each thread is in.

`TaskLocal` is such a key: a future keeps its value while nobody runs it, a poll swaps
the value with the variable of the polling thread, and swaps back when it is over.
-/

/-- The operations of a key: the scope of a future is entered and left on a thread, and
code that runs there reads or changes the variable. -/
structure LocalKey (Thread Future V : Type*) where
  State : Type
  /-- Futures that are scoped with a value each and not yet polled. -/
  scope : (Future → V) → State
  /-- A future is polled, or dropped unfinished. -/
  enter : State → Thread → Future → Option State
  leave : State → Thread → Option State
  get : State → Thread → Option V
  modify : State → Thread → (V → V) → State

/-- What is promised of a key. `Owns value inside s` relates the state to the value of each
future and to the futures in whose scopes each thread is, innermost first. -/
structure LocalKey.Lawful {Thread Future V : Type*} [DecidableEq Thread] [DecidableEq Future]
    (K : LocalKey Thread Future V)
    (Owns : (Future → V) → (Thread → List Future) → K.State → Prop) : Prop where
  scope : ∀ value, Owns value (fun _ => []) (K.scope value)
  enter : ∀ {value inside s s' t f}, Owns value inside s → K.enter s t f = some s' →
    Owns value (Function.update inside t (f :: inside t)) s'
  leave : ∀ {value inside s s' t}, Owns value inside s → K.leave s t = some s' →
    Owns value (Function.update inside t (inside t).tail) s'
  /-- The variable is set in a scope only, to the value of the innermost future. -/
  get : ∀ {value inside s}, Owns value inside s → ∀ t, K.get s t = (inside t).head?.map value
  modify : ∀ {value inside s t f fs}, Owns value inside s → inside t = f :: fs →
    ∀ g, Owns (Function.update value f (g (value f))) inside (K.modify s t g)
  modify_outside : ∀ {value inside s t}, Owns value inside s → inside t = [] →
    ∀ g, Owns value inside (K.modify s t g)

/-- The variable of each thread, what each future keeps, and which thread runs it. -/
structure TaskLocal (Thread Future V : Type*) where
  cell : Thread → Option V
  held : Future → Option V
  /-- The futures in whose scopes a thread is, innermost first. -/
  stack : Thread → List Future
  runBy : Future → Option Thread

namespace TaskLocal

variable {Thread Future V : Type*}

/-- Futures that were built with a value each and not polled yet. -/
def new (value : Future → V) : TaskLocal Thread Future V :=
  ⟨fun _ => none, fun f => some (value f), fun _ => [], fun _ => none⟩

/-! ## One value for each future -/

/-- Along a stack every future keeps the value of the one outside it, and the outermost
keeps the unset variable. -/
def Chain (held : Future → Option V) (value : Future → V) : Option V → List Future → Prop
  | c, [] => c = none
  | c, f :: fs => c = some (value f) ∧ Chain held value (held f) fs

theorem Chain.head {held : Future → Option V} {value : Future → V} {c : Option V}
    {fs : List Future} (h : Chain held value c fs) : c = fs.head?.map value := by
  cases fs with
  | nil => exact h
  | cons f fs => exact h.1

/-- A chain reads nothing of other futures. -/
theorem Chain.congr {held held' : Future → Option V} {value value' : Future → V} {c : Option V}
    {fs : List Future} (h : Chain held value c fs) (hh : ∀ f ∈ fs, held' f = held f)
    (hv : ∀ f ∈ fs, value' f = value f) : Chain held' value' c fs := by
  induction fs generalizing c with
  | nil => exact h
  | cons f fs ih =>
      obtain ⟨hc, hrest⟩ := h
      rw [Chain, hv f (by simp), hh f (by simp)]
      exact ⟨hc, ih hrest (fun k hk => hh k (by simp [hk])) fun k hk => hv k (by simp [hk])⟩

/-- The machine holds the value of each future, wherever it is swapped to. -/
structure Owns (value : Future → V) (s : TaskLocal Thread Future V) : Prop where
  chain : ∀ t, Chain s.held value (s.cell t) (s.stack t)
  idle : ∀ f, s.runBy f = none → s.held f = some (value f)
  polled : ∀ t f, f ∈ s.stack t ↔ s.runBy f = some t
  nodup : ∀ t, (s.stack t).Nodup

namespace Owns

variable {value : Future → V} {s s' : TaskLocal Thread Future V} {t : Thread} {f : Future}

theorem new (value : Future → V) : (TaskLocal.new value : TaskLocal Thread Future V).Owns value := by
  constructor <;> simp [TaskLocal.new, Chain]

/-- What code reads is the value of the innermost future. -/
theorem cell_eq (h : s.Owns value) (t : Thread) : s.cell t = (s.stack t).head?.map value :=
  (h.chain t).head

/-- No other thread runs the future. -/
theorem not_mem (h : s.Owns value) {u : Thread} (hu : u ≠ t) (hf : s.runBy f = some t) :
    f ∉ s.stack u := by
  intro hmem
  have hpolled := (h.polled u f).mp hmem
  rw [hf, Option.some.injEq] at hpolled
  exact hu hpolled.symm

end Owns

/-! ## What polls and code do -/

variable [DecidableEq Thread]

/-- Code that runs on the thread changes the variable, where it is set. -/
def modify (s : TaskLocal Thread Future V) (t : Thread) (g : V → V) : TaskLocal Thread Future V :=
  { s with cell := Function.update s.cell t ((s.cell t).map g) }

variable [DecidableEq Future]

/-- A scope is entered: the value of the future goes to the thread. -/
def enter (s : TaskLocal Thread Future V) (t : Thread) (f : Future) :
    Option (TaskLocal Thread Future V) :=
  if s.runBy f = none then
    some {
      cell := Function.update s.cell t (s.held f)
      held := Function.update s.held f (s.cell t)
      stack := Function.update s.stack t (f :: s.stack t)
      runBy := Function.update s.runBy f (some t) }
  else none

/-- The innermost scope is left, also by a panic: the values are swapped back. -/
def leave (s : TaskLocal Thread Future V) (t : Thread) : Option (TaskLocal Thread Future V) :=
  match s.stack t with
  | [] => none
  | f :: fs =>
      some {
        cell := Function.update s.cell t (s.held f)
        held := Function.update s.held f (s.cell t)
        stack := Function.update s.stack t fs
        runBy := Function.update s.runBy f none }

namespace Owns

variable {value : Future → V} {s s' : TaskLocal Thread Future V} {t : Thread} {f : Future}

omit [DecidableEq Future] in
/-- Outside every future there is nothing to change. -/
theorem modify_outside (h : s.Owns value) (ht : s.stack t = []) (g : V → V) :
    s.modify t g = s := by
  have hcell := h.cell_eq t
  rw [ht, List.head?_nil, Option.map_none] at hcell
  unfold TaskLocal.modify
  rw [hcell, Option.map_none, ← hcell, Function.update_eq_self]

/-- A change on a thread is a change of the value of its innermost future. -/
theorem modify {fs : List Future} (h : s.Owns value) (hstack : s.stack t = f :: fs) (g : V → V) :
    (s.modify t g).Owns (Function.update value f (g (value f))) := by
  have hpolled : s.runBy f = some t := (h.polled t f).mp (by simp [hstack])
  constructor
  case chain =>
    intro u
    by_cases hu : u = t
    · subst hu
      have hchain := h.chain u
      rw [hstack] at hchain
      obtain ⟨hnot, -⟩ := List.nodup_cons.mp (hstack ▸ h.nodup u)
      simp only [TaskLocal.modify, Function.update_self, hstack, Chain, hchain.1, Option.map_some,
        true_and]
      refine hchain.2.congr (fun _ _ => rfl) fun k hk => Function.update_of_ne ?_ _ _
      exact fun he => hnot (he ▸ hk)
    · simp only [TaskLocal.modify, Function.update_of_ne hu]
      refine (h.chain u).congr (fun _ _ => rfl) fun k hk => Function.update_of_ne ?_ _ _
      exact fun he => h.not_mem hu hpolled (he ▸ hk)
  case idle =>
    intro k hk
    have hne : k ≠ f := by
      rintro rfl
      rw [show s.runBy k = none from hk] at hpolled
      cases hpolled
    rw [Function.update_of_ne hne]
    exact h.idle k hk
  case polled => exact h.polled
  case nodup => exact h.nodup

theorem enter (h : s.Owns value) (he : s.enter t f = some s') : s'.Owns value := by
  unfold TaskLocal.enter at he
  split_ifs at he with hidle
  cases he
  have hfree : ∀ u, f ∉ s.stack u := by
    intro u hmem
    rw [h.polled u f, hidle] at hmem
    cases hmem
  have hother : ∀ u, ∀ k ∈ s.stack u, k ≠ f := fun u k hk he => hfree u (he ▸ hk)
  constructor
  case chain =>
    intro u
    have hkeep : Chain (Function.update s.held f (s.cell t)) value (s.cell u) (s.stack u) :=
      (h.chain u).congr (fun k hk => Function.update_of_ne (hother u k hk) _ _) fun _ _ => rfl
    by_cases hu : u = t
    · subst hu
      simp only [Function.update_self, Chain]
      exact ⟨h.idle f hidle, hkeep⟩
    · simp only [Function.update_of_ne hu]
      exact hkeep
  case idle =>
    intro k hk
    have hne : k ≠ f := by
      rintro rfl
      simp at hk
    simp only [Function.update_of_ne hne] at hk ⊢
    exact h.idle k hk
  case polled =>
    intro u k
    by_cases hk : k = f
    · subst hk
      by_cases hu : u = t
      · simp [hu]
      · simp [Function.update_of_ne hu, hfree u, Ne.symm hu]
    · by_cases hu : u = t
      · subst hu
        simp [hk, h.polled]
      · simp [Function.update_of_ne hu, Function.update_of_ne hk, h.polled]
  case nodup =>
    intro u
    by_cases hu : u = t
    · subst hu
      simpa using ⟨hfree u, h.nodup u⟩
    · simpa [Function.update_of_ne hu] using h.nodup u

theorem leave (h : s.Owns value) (hl : s.leave t = some s') : s'.Owns value := by
  unfold TaskLocal.leave at hl
  split at hl
  · cases hl
  · case _ f fs hstack =>
      cases hl
      have hf : s.runBy f = some t := (h.polled t f).mp (by simp [hstack])
      obtain ⟨hcell, hrest⟩ : s.cell t = some (value f) ∧ Chain s.held value (s.held f) fs := by
        have hchain := h.chain t
        rwa [hstack] at hchain
      obtain ⟨hnot, hnodup⟩ := List.nodup_cons.mp (hstack ▸ h.nodup t)
      have hne : ∀ k ∈ fs, k ≠ f := fun k hk he => hnot (he ▸ hk)
      constructor
      case chain =>
        intro u
        by_cases hu : u = t
        · subst hu
          simp only [Function.update_self]
          exact hrest.congr (fun k hk => Function.update_of_ne (hne k hk) _ _) fun _ _ => rfl
        · simp only [Function.update_of_ne hu]
          refine (h.chain u).congr (fun k hk => Function.update_of_ne ?_ _ _) fun _ _ => rfl
          exact fun he => h.not_mem hu hf (he ▸ hk)
      case idle =>
        intro k hk
        by_cases hkf : k = f
        · subst hkf
          simpa using hcell
        · simp only [Function.update_of_ne hkf] at hk ⊢
          exact h.idle k hk
      case polled =>
        intro u k
        have hold := h.polled u k
        by_cases hu : u = t
        · subst hu
          rw [hstack, List.mem_cons] at hold
          by_cases hk : k = f
          · subst hk
            simp [hnot]
          · simp [← hold, hk]
        · by_cases hk : k = f
          · subst hk
            simp [Function.update_of_ne hu, h.not_mem hu hf]
          · simp [Function.update_of_ne hu, Function.update_of_ne hk, hold]
      case nodup =>
        intro u
        by_cases hu : u = t
        · subst hu
          simpa using hnodup
        · simpa [Function.update_of_ne hu] using h.nodup u

end Owns

/-! ## The key -/

def key (Thread Future V : Type) [DecidableEq Thread] [DecidableEq Future] :
    LocalKey Thread Future V where
  State := TaskLocal Thread Future V
  scope := .new
  enter := enter
  leave := leave
  get s t := s.cell t
  modify := modify

theorem key_lawful (Thread Future V : Type) [DecidableEq Thread] [DecidableEq Future] :
    (key Thread Future V).Lawful fun value inside s => s.Owns value ∧ s.stack = inside where
  scope value := ⟨Owns.new value, rfl⟩
  enter := by
    rintro value _ s s' t f ⟨howns, rfl⟩ he
    refine ⟨howns.enter he, ?_⟩
    simp only [key, TaskLocal.enter] at he
    split_ifs at he
    cases he
    rfl
  leave := by
    rintro value _ s s' t ⟨howns, rfl⟩ hl
    refine ⟨howns.leave hl, ?_⟩
    simp only [key, TaskLocal.leave] at hl
    split at hl
    · cases hl
    · case _ f fs hstack =>
        cases hl
        rw [hstack]
        rfl
  get := by
    rintro value _ s ⟨howns, rfl⟩ t
    exact howns.cell_eq t
  modify := by
    rintro value _ s t f fs ⟨howns, rfl⟩ hstack g
    exact ⟨howns.modify hstack g, rfl⟩
  modify_outside := by
    rintro value _ s t ⟨howns, rfl⟩ hstack g
    have hsame : (key Thread Future V).modify s t g = s := howns.modify_outside hstack g
    rw [hsame]
    exact ⟨howns, rfl⟩

end TaskLocal
