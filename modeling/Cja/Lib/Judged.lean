import Mathlib

/-!
# Logs judged event by event

A log is judged where every event of it stands in a relation to the events before it. A
run that adds one event at a time keeps this if it judges the new event; what a judged log
says of a member is read off the part of the log before the member.
-/

variable {ε : Type*} {J : List ε → ε → Prop} {log : List ε} {e : ε}

/-- `J` holds of every event and the events before it. -/
def Judged (J : List ε → ε → Prop) (log : List ε) : Prop :=
  ∀ before e after, log = before ++ e :: after → J before e

namespace Judged

theorem nil : Judged J [] := by simp [Judged]

theorem snoc (h : Judged J log) (he : J log e) : Judged J (log ++ [e]) := by
  intro before e' after heq
  induction after using List.reverseRecOn with
  | nil =>
      obtain ⟨rfl, hlast⟩ := List.append_inj' heq rfl
      rw [List.cons.injEq] at hlast
      exact hlast.1 ▸ he
  | append_singleton after last _ =>
      have hsplit : log ++ [e] = (before ++ e' :: after) ++ [last] := by simpa using heq
      exact h before e' after (List.append_inj_left' hsplit rfl)

/-- Events that are judged well wherever they stand. -/
theorem append {es : List ε} (h : Judged J log) (hes : ∀ e ∈ es, ∀ before, J before e) :
    Judged J (log ++ es) := by
  induction es generalizing log with
  | nil => rwa [List.append_nil]
  | cons e es ih =>
      rw [List.forall_mem_cons] at hes
      rw [List.append_cons]
      exact ih (h.snoc (hes.1 log)) hes.2

/-- A member stands in the relation to a part of the log before it. -/
theorem mem (h : Judged J log) (he : e ∈ log) : ∃ before, before <+: log ∧ J before e := by
  obtain ⟨before, after, rfl⟩ := List.append_of_mem he
  exact ⟨before, List.prefix_append _ _, h before e after rfl⟩

end Judged
