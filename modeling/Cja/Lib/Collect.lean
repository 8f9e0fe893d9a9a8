import Mathlib

/-!
# Collecting under distinct keys

A step that adds items to a collection and fails exactly where two items of the
collection would share a key. A loop of such steps is one of them.
-/
namespace Collect

variable {σ α β κ ε : Type*}

/-- From states with `I`, the step adds `add a` to `items`, or fails because the keys
would not be distinct. -/
structure Collects (I : σ → Prop) (f : σ → α → Except ε σ) (items : σ → List β)
    (add : α → List β) (key : β → κ) : Prop where
  ok : ∀ s a s', I s → f s a = .ok s' → I s' ∧ items s' = items s ++ add a
  fresh : ∀ s a, I s → ((∃ s', f s a = .ok s') ↔ ((items s ++ add a).map key).Nodup)
  distinct : ∀ s, I s → ((items s).map key).Nodup

variable {I : σ → Prop} {f : σ → α → Except ε σ} {items : σ → List β} {add : α → List β}
variable {key : β → κ}

theorem foldlM_cons_ok {s s' : σ} {a : α} {as : List α} (h : f s a = .ok s') :
    (a :: as).foldlM f s = as.foldlM f s' := by
  rw [List.foldlM_cons, h]
  rfl

theorem foldlM_cons_error {s : σ} {a : α} {as : List α} {e : ε} (h : f s a = .error e) :
    (a :: as).foldlM f s = .error e := by
  rw [List.foldlM_cons, h]
  rfl

/-- The step on other inputs. -/
theorem Collects.comap {γ : Type*} (h : Collects I f items add key) (g : γ → α) :
    Collects I (fun s c => f s (g c)) items (fun c => add (g c)) key :=
  ⟨fun s c => h.ok s (g c), fun s c => h.fresh s (g c), h.distinct⟩

/-- A loop collects what its rounds collect. -/
theorem Collects.foldlM (h : Collects I f items add key) :
    Collects I (fun s as => List.foldlM f s as) items (fun as => as.flatMap add) key where
  ok := by
    intro s as s' hI heq
    induction as generalizing s with
    | nil =>
        cases heq
        exact ⟨hI, by simp⟩
    | cons a as ih =>
        cases hstep : f s a with
        | error e =>
            rw [foldlM_cons_error hstep] at heq
            cases heq
        | ok s₁ =>
            rw [foldlM_cons_ok hstep] at heq
            obtain ⟨hI₁, hitems⟩ := h.ok s a s₁ hI hstep
            obtain ⟨hI', hrest⟩ := ih s₁ hI₁ heq
            refine ⟨hI', ?_⟩
            rw [hrest, hitems, List.flatMap_cons, List.append_assoc]
  fresh := by
    intro s as hI
    induction as generalizing s with
    | nil =>
        constructor
        · intro _
          simpa using h.distinct s hI
        · intro _
          exact ⟨s, rfl⟩
    | cons a as ih =>
        have hassoc : items s ++ (a :: as).flatMap add =
            (items s ++ add a) ++ as.flatMap add := by
          rw [List.flatMap_cons, List.append_assoc]
        cases hstep : f s a with
        | error e =>
            have hnot : ¬ ((items s ++ add a).map key).Nodup := by
              rw [← h.fresh s a hI, hstep]
              rintro ⟨s', heq⟩
              cases heq
            rw [foldlM_cons_error hstep, hassoc, List.map_append]
            constructor
            · rintro ⟨s', heq⟩
              cases heq
            · intro hnodup
              exact absurd hnodup.of_append_left hnot
        | ok s₁ =>
            obtain ⟨hI₁, hitems⟩ := h.ok s a s₁ hI hstep
            rw [foldlM_cons_ok hstep, hassoc, ← hitems]
            exact ih s₁ hI₁
  distinct := h.distinct

end Collect
