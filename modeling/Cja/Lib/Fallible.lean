import Mathlib

/-!
# Programs that may fail over a state

A program is an `ExceptT ε (StateM σ)` action: where it fails, the state it
leaves stays. `Ends P m Q E` says that from a state with `P` the program ends
with a value and a state in `Q`, or with an error and a state in `E`. The rules
follow the shape of a program, so an invariant is proved statement by statement.
-/
namespace Fallible

variable {σ ε δ α β : Type}

/-- The result of a program and the state it leaves. -/
def outcome (m : ExceptT ε (StateM σ) α) (s : σ) : Except ε α × σ :=
  StateT.run (ExceptT.run m) s

/-- A program given by its outcome. -/
def ofOutcome (f : σ → Except ε α × σ) : ExceptT ε (StateM σ) α :=
  ExceptT.mk (StateT.mk f)

/-- The same program with its errors translated. -/
def mapErr (f : ε → δ) (m : ExceptT ε (StateM σ) α) : ExceptT δ (StateM σ) α :=
  ofOutcome fun s => ((outcome m s).1.mapError f, (outcome m s).2)

@[simp] theorem outcome_ofOutcome (f : σ → Except ε α × σ) (s : σ) :
    outcome (ofOutcome f) s = f s := rfl

theorem outcome_bind (m : ExceptT ε (StateM σ) α) (f : α → ExceptT ε (StateM σ) β) (s : σ) :
    outcome (m >>= f) s =
      match outcome m s with
      | (.ok a, s') => outcome (f a) s'
      | (.error e, s') => (.error e, s') := by
  change (match outcome m s with | (r, s') => StateT.run (ExceptT.bindCont f r) s') = _
  obtain ⟨r, s'⟩ := outcome m s
  cases r <;> rfl

theorem outcome_bind_ok {m : ExceptT ε (StateM σ) α} {f : α → ExceptT ε (StateM σ) β} {s s' : σ}
    {a : α} (h : outcome m s = (.ok a, s')) : outcome (m >>= f) s = outcome (f a) s' := by
  rw [outcome_bind, h]

theorem outcome_bind_error {m : ExceptT ε (StateM σ) α} {f : α → ExceptT ε (StateM σ) β}
    {s s' : σ} {e : ε} (h : outcome m s = (.error e, s')) :
    outcome (m >>= f) s = (.error e, s') := by
  rw [outcome_bind, h]

/-- From `P` the program ends with a value in `Q`, or with an error in `E`. -/
structure Ends (P : σ → Prop) (m : ExceptT ε (StateM σ) α) (Q : α → σ → Prop) (E : σ → Prop) :
    Prop where
  ok : ∀ s a s', P s → outcome m s = (.ok a, s') → Q a s'
  error : ∀ s e s', P s → outcome m s = (.error e, s') → E s'

variable {P P' : σ → Prop} {Q : α → σ → Prop} {Q' : β → σ → Prop} {E E' : σ → Prop}
variable {m : ExceptT ε (StateM σ) α}

theorem Ends.of_pure {a : α} (h : ∀ s, P s → Q a s) :
    Ends P (pure a : ExceptT ε (StateM σ) α) Q E where
  ok := by
    intro s b s' hP heq
    cases heq
    exact h s hP
  error := by
    intro s e s' _ heq
    cases heq

theorem Ends.of_throw {e : ε} (h : ∀ s, P s → E s) :
    Ends P (throw e : ExceptT ε (StateM σ) α) Q E where
  ok := by
    intro s b s' _ heq
    cases heq
  error := by
    intro s e s' hP heq
    cases heq
    exact h s hP

theorem Ends.bind {R : α → σ → Prop} {f : α → ExceptT ε (StateM σ) β} (hm : Ends P m R E)
    (hf : ∀ a, Ends (R a) (f a) Q' E) : Ends P (m >>= f) Q' E where
  ok := by
    intro s b s' hP heq
    cases hrun : outcome m s with
    | mk result s₁ =>
        cases result with
        | ok a =>
            rw [outcome_bind_ok hrun] at heq
            exact (hf a).ok s₁ b s' (hm.ok s a s₁ hP hrun) heq
        | error e =>
            rw [outcome_bind_error hrun] at heq
            cases heq
  error := by
    intro s e s' hP heq
    cases hrun : outcome m s with
    | mk result s₁ =>
        cases result with
        | ok a =>
            rw [outcome_bind_ok hrun] at heq
            exact (hf a).error s₁ e s' (hm.ok s a s₁ hP hrun) heq
        | error e' =>
            rw [outcome_bind_error hrun] at heq
            cases heq
            exact hm.error s e s' hP hrun

theorem Ends.weaken (h : Ends P m Q E) (hP : ∀ s, P' s → P s) {R : α → σ → Prop}
    (hQ : ∀ a s, Q a s → R a s) (hE : ∀ s, E s → E' s) : Ends P' m R E' where
  ok := fun s a s' hs heq => hQ a s' (h.ok s a s' (hP s hs) heq)
  error := fun s e s' hs heq => hE s' (h.error s e s' (hP s hs) heq)

/-- A fact about values is no condition on the state. -/
theorem Ends.assume {J : Prop} (h : J → Ends P m Q E) : Ends (fun s => J ∧ P s) m Q E where
  ok := fun s a s' hs heq => (h hs.1).ok s a s' hs.2 heq
  error := fun s e s' hs heq => (h hs.1).error s e s' hs.2 heq

/-- A fact that every state with `P` shows. -/
theorem Ends.learn {J : Prop} (hJ : ∀ s, P s → J) (h : J → Ends P m Q E) : Ends P m Q E where
  ok := fun s a s' hs heq => (h (hJ s hs)).ok s a s' hs heq
  error := fun s e s' hs heq => (h (hJ s hs)).error s e s' hs heq

/-- A run of two programs in a row that returns. -/
theorem bind_ok {f : α → ExceptT ε (StateM σ) β} {s s' : σ} {b : β}
    (h : outcome (m >>= f) s = (.ok b, s')) :
    ∃ a s₁, outcome m s = (.ok a, s₁) ∧ outcome (f a) s₁ = (.ok b, s') := by
  cases hrun : outcome m s with
  | mk result s₁ =>
      cases result with
      | ok a =>
          rw [outcome_bind_ok hrun] at h
          exact ⟨a, s₁, rfl, h⟩
      | error e =>
          rw [outcome_bind_error hrun] at h
          cases h

theorem Ends.mapErr {f : ε → δ} (h : Ends P m Q E) : Ends P (mapErr f m) Q E where
  ok := by
    intro s a s' hP heq
    cases hrun : outcome m s with
    | mk result s₁ =>
        simp only [Fallible.mapErr, outcome_ofOutcome, hrun] at heq
        cases result with
        | ok b => cases heq; exact h.ok s a s' hP hrun
        | error e => cases heq
  error := by
    intro s e s' hP heq
    cases hrun : outcome m s with
    | mk result s₁ =>
        simp only [Fallible.mapErr, outcome_ofOutcome, hrun] at heq
        cases result with
        | ok b => cases heq
        | error e' => cases heq; exact h.error s e' s' hP hrun

/-- A program that keeps `I`, whether it fails or not. -/
abbrev Keeps (I : σ → Prop) (m : ExceptT ε (StateM σ) α) : Prop := Ends I m (fun _ => I) I

theorem Keeps.of_outcome {I : σ → Prop} (h : ∀ s, I s → I (outcome m s).2) : Keeps I m where
  ok := by
    intro s a s' hI heq
    have hs := h s hI
    rwa [heq] at hs
  error := by
    intro s e s' hI heq
    have hs := h s hI
    rwa [heq] at hs

/-- A loop that keeps `I` in each round. -/
theorem Keeps.forM {I : σ → Prop} {γ : Type} {f : γ → ExceptT ε (StateM σ) PUnit} {xs : List γ}
    (h : ∀ x ∈ xs, Keeps I (f x)) : Keeps I (xs.forM f) := by
  induction xs with
  | nil => exact .of_pure fun _ hI => hI
  | cons x xs ih =>
      refine Ends.bind (h x (List.mem_cons_self ..)) fun _ => ?_
      exact ih fun y hy => h y (List.mem_cons_of_mem x hy)

/-- A loop with an accumulator that keeps `J` of the accumulator and `I` of the
state in each round. -/
theorem Ends.foldlM {I : σ → Prop} {J : β → Prop} {γ : Type}
    {f : β → γ → ExceptT ε (StateM σ) β} {xs : List γ} {b : β} (hb : J b)
    (h : ∀ b x, x ∈ xs → J b → Ends I (f b x) (fun b' s => J b' ∧ I s) I) :
    Ends I (xs.foldlM f b) (fun b' s => J b' ∧ I s) I := by
  induction xs generalizing b with
  | nil => exact .of_pure fun _ hI => ⟨hb, hI⟩
  | cons x xs ih =>
      rw [List.foldlM_cons]
      refine Ends.bind (h b x (List.mem_cons_self ..) hb) fun b' => ?_
      refine Ends.assume fun hb' => ih hb' fun b'' y hy => h b'' y (List.mem_cons_of_mem x hy)

/-- A loop with an accumulator, where `J` also says what the rounds have done. -/
theorem Ends.foldlM_done {I : σ → Prop} {γ : Type} {J : List γ → β → Prop}
    {f : β → γ → ExceptT ε (StateM σ) β} {xs : List γ} {b : β} (hb : J [] b)
    (h : ∀ done b x, x ∈ xs → J done b →
      Ends I (f b x) (fun b' s => J (done ++ [x]) b' ∧ I s) I) :
    Ends I (xs.foldlM f b) (fun b' s => J xs b' ∧ I s) I := by
  have hrest : ∀ (rest done : List γ) (b : β), (∀ x ∈ rest, x ∈ xs) → J done b →
      Ends I (rest.foldlM f b) (fun b' s => J (done ++ rest) b' ∧ I s) I := by
    intro rest
    induction rest with
    | nil =>
        intro done b _ hJ
        exact .of_pure fun _ hI => ⟨by simpa using hJ, hI⟩
    | cons x rest ih =>
        intro done b hall hJ
        rw [List.foldlM_cons]
        refine Ends.bind (h done b x (hall x (List.mem_cons_self ..)) hJ) fun b' => ?_
        refine Ends.assume fun hJ' => ?_
        have hloop := ih (done ++ [x]) b' (fun y hy => hall y (List.mem_cons_of_mem x hy)) hJ'
        simpa using hloop
  have hloop := hrest xs [] b (fun _ hx => hx) hb
  simpa using hloop

end Fallible
