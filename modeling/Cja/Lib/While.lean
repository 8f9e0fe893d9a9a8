import Mathlib

/-!
# A loop that may stop with an error

The loop runs its body while the condition holds; both may fail. A measure that
every pass lowers makes it total. A property of the states is kept pass by pass; a
property that relates a state to the end of the loop is shown from the end back.
-/
namespace While

variable {σ ε : Type}

/-- A loop: its condition, its body, and the measure that each pass lowers. -/
structure Loop (σ ε : Type) where
  cond : σ → Except ε Bool
  body : σ → Except ε σ
  measure : σ → ℕ
  lowers : ∀ s s', cond s = .ok true → body s = .ok s' → measure s' < measure s

def Loop.run (l : Loop σ ε) (s : σ) : Except ε σ :=
  match _ : l.cond s with
  | .error e => .error e
  | .ok false => .ok s
  | .ok true =>
      match _ : l.body s with
      | .error e => .error e
      | .ok s' => l.run s'
termination_by l.measure s
decreasing_by exact l.lowers s s' ‹_› ‹_›

variable {l : Loop σ ε} {s s' t : σ}

theorem Loop.run_stop (h : l.cond s = .ok false) : l.run s = .ok s := by
  rw [run]
  split
  · case _ e he => rw [h] at he; cases he
  · rfl
  · case _ hc => rw [h] at hc; cases hc

theorem Loop.run_next (hc : l.cond s = .ok true) (hb : l.body s = .ok s') : l.run s = l.run s' := by
  rw [run]
  split
  · case _ e he => rw [hc] at he; cases he
  · case _ hf => rw [hc] at hf; cases hf
  · split
    · case _ e he => rw [hb] at he; cases he
    · case _ u hu => rw [hb] at hu; cases hu; rfl

/-- A run that ends took a pass of the body, or none. -/
theorem Loop.run_ok (h : l.run s = .ok t) :
    (l.cond s = .ok false ∧ s = t) ∨
      ∃ s', l.cond s = .ok true ∧ l.body s = .ok s' ∧ l.run s' = .ok t := by
  rw [run] at h
  split at h
  · cases h
  · case _ hc =>
      cases h
      exact .inl ⟨hc, rfl⟩
  · case _ hc =>
      split at h
      · cases h
      · case _ u hu => exact .inr ⟨u, hc, hu, h⟩

/-- Induction from the end of a loop back to a state that keeps `I`. -/
theorem Loop.run_induct {I P : σ → Prop} (hstep : ∀ s s', I s → l.cond s = .ok true →
      l.body s = .ok s' → I s' ∧ (P s' → P s))
    (hend : I t → l.cond t = .ok false → P t) (hs : I s) (h : l.run s = .ok t) : P s := by
  induction hm : l.measure s using Nat.strong_induction_on generalizing s with
  | _ n ih =>
      rcases Loop.run_ok h with ⟨hc, rfl⟩ | ⟨s', hc, hb, hrun⟩
      · exact hend hs hc
      · obtain ⟨hs', hback⟩ := hstep s s' hs hc hb
        apply hback
        exact ih (l.measure s') (hm ▸ l.lowers s s' hc hb) hs' hrun rfl

/-- What every pass keeps holds at the end, where the condition is false. -/
theorem Loop.run_keeps {I : σ → Prop}
    (hstep : ∀ s s', I s → l.cond s = .ok true → l.body s = .ok s' → I s')
    (hs : I s) (h : l.run s = .ok t) : I t ∧ l.cond t = .ok false := by
  refine Loop.run_induct (I := I) (P := fun _ => I t ∧ l.cond t = .ok false) ?_ ?_ hs h
  · intro s s' hi hc hb
    exact ⟨hstep s s' hi hc hb, id⟩
  · intro hi hc
    exact ⟨hi, hc⟩

/-! ## How a computation ends -/

variable {α β : Type}

/-- Two computations in a row that return. -/
theorem bind_ok {x : Except ε α} {f : α → Except ε β} {b : β} (h : x >>= f = .ok b) :
    ∃ a, x = .ok a ∧ f a = .ok b := by
  cases x with
  | error e => cases h
  | ok a => exact ⟨a, rfl, h⟩

/-- The computation ends with a value in `Q`, or with an error in `E`. -/
structure Lands (x : Except ε α) (Q : α → Prop) (E : ε → Prop) : Prop where
  ok : ∀ a, x = .ok a → Q a
  error : ∀ e, x = .error e → E e

variable {x : Except ε α} {Q Q' : α → Prop} {E : ε → Prop}

theorem Lands.of_ok {a : α} (h : Q a) : Lands (.ok a : Except ε α) Q E where
  ok := by
    intro b hb
    cases hb
    exact h
  error := by
    intro e he
    cases he

theorem Lands.of_error {e : ε} (h : E e) : Lands (.error e : Except ε α) Q E where
  ok := by
    intro a ha
    cases ha
  error := by
    intro e' he
    cases he
    exact h

theorem Lands.weaken (h : Lands x Q E) (hQ : ∀ a, Q a → Q' a) : Lands x Q' E where
  ok := fun a ha => hQ a (h.ok a ha)
  error := h.error

theorem Lands.bind {R : β → Prop} {f : α → Except ε β} (hx : Lands x Q E)
    (hf : ∀ a, x = .ok a → Q a → Lands (f a) R E) : Lands (x >>= f) R E := by
  cases x with
  | ok a => exact hf a rfl (hx.ok a rfl)
  | error e => exact .of_error (hx.error e rfl)

/-- A loop whose passes keep `I` ends with `I`, where the condition is false. -/
theorem Loop.run_lands {I : σ → Prop} (hcond : ∀ s, I s → Lands (l.cond s) (fun _ => True) E)
    (hbody : ∀ s, I s → l.cond s = .ok true → Lands (l.body s) I E) (hs : I s) :
    Lands (l.run s) (fun t => I t ∧ l.cond t = .ok false) E := by
  induction hm : l.measure s using Nat.strong_induction_on generalizing s with
  | _ n ih =>
      rw [run]
      split
      · case _ e he => exact .of_error ((hcond s hs).error e he)
      · case _ hc => exact .of_ok ⟨hs, hc⟩
      · case _ hc =>
          split
          · case _ e he => exact .of_error ((hbody s hs hc).error e he)
          · case _ s' hb =>
              have hlower := l.lowers s s' hc hb
              exact ih (l.measure s') (hm ▸ hlower) ((hbody s hs hc).ok s' hb) rfl

end While
