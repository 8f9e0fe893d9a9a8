import Mathlib

/-!
# Replacing a piece of a list

`replace needle rep text` goes through `text` from the left and puts `rep` in the
place of every occurrence of `needle` that does not overlap the one replaced before,
as `str::replace` does. An occurrence is an infix.
-/
namespace Replace

variable {α : Type*} [DecidableEq α]

/-- `skip` elements of the occurrence replaced last are still to be passed. -/
def replaceFrom (needle rep : List α) : ℕ → List α → List α
  | _, [] => []
  | skip + 1, _ :: text => replaceFrom needle rep skip text
  | 0, a :: text =>
      if needle.isPrefixOf (a :: text) then
        rep ++ replaceFrom needle rep (needle.length - 1) text
      else a :: replaceFrom needle rep 0 text

def replace (needle rep text : List α) : List α := replaceFrom needle rep 0 text

variable {needle rep text before behind : List α} {a : α} {n : ℕ}

theorem replaceFrom_skip (needle rep : List α) (n : ℕ) (text : List α) :
    replaceFrom needle rep n text = replace needle rep (text.drop n) := by
  induction n generalizing text with
  | zero => rfl
  | succ n ih =>
      cases text with
      | nil => rfl
      | cons a text => exact ih text

@[simp] theorem replace_nil : replace needle rep ([] : List α) = [] := rfl

theorem replace_cons (h : ¬ needle <+: a :: text) :
    replace needle rep (a :: text) = a :: replace needle rep text := by
  have hfalse : needle.isPrefixOf (a :: text) ≠ true := fun ht =>
    h (List.isPrefixOf_iff_prefix.1 ht)
  rw [replace, replaceFrom, if_neg hfalse]
  rfl

/-- An occurrence at the front is replaced. -/
theorem replace_append (rep text : List α) (hne : needle ≠ []) :
    replace needle rep (needle ++ text) = rep ++ replace needle rep text := by
  cases needle with
  | nil => exact absurd rfl hne
  | cons a needle =>
      have htrue : (a :: needle).isPrefixOf (a :: (needle ++ text)) = true :=
        List.isPrefixOf_iff_prefix.2 (List.prefix_append (a :: needle) text)
      rw [List.cons_append, replace, replaceFrom, if_pos htrue, replaceFrom_skip]
      simp

theorem replace_absent (h : ¬ needle <:+: text) : replace needle rep text = text := by
  induction text with
  | nil => rfl
  | cons a text ih =>
      rw [List.infix_cons_iff, not_or] at h
      rw [replace_cons h.1, ih h.2]

/-- Where an occurrence is the first one. -/
def Clear (needle before text : List α) : Prop :=
  ∀ n, n < before.length → ¬ needle <+: (before ++ text).drop n

omit [DecidableEq α] in
theorem Clear.tail (h : Clear needle (a :: before) text) : Clear needle before text := by
  intro n hn
  exact h (n + 1) (Nat.succ_lt_succ hn)

/-- What stands before the first occurrence stays. -/
theorem replace_clear (rep : List α) (h : Clear needle before text) :
    replace needle rep (before ++ text) = before ++ replace needle rep text := by
  induction before with
  | nil => rfl
  | cons a before ih =>
      have hhead : ¬ needle <+: a :: (before ++ text) := h 0 (Nat.succ_pos _)
      rw [List.cons_append, replace_cons hhead, ih h.tail, List.cons_append]

/-- A needle with an element that nothing before it has occurs first where it stands. -/
theorem clear_of_not_mem (ha : a ∈ needle) (hnot : a ∉ before) :
    Clear needle before (needle ++ behind) := by
  intro n hn hpre
  have hdrop : (before ++ (needle ++ behind)).drop n = before.drop n ++ (needle ++ behind) :=
    List.drop_append_of_le_length hn.le
  rw [hdrop] at hpre
  obtain ⟨rest, heq⟩ := hpre
  have hrest : a ∉ before.drop n := fun hmem => hnot (List.mem_of_mem_drop hmem)
  have hindex := congrArg (List.idxOf a) heq
  rw [List.idxOf_append_of_mem ha, List.idxOf_append_of_notMem hrest,
    List.idxOf_append_of_mem ha, List.length_drop] at hindex
  omega

/-- An infix occurs a first time. -/
theorem exists_clear (h : needle <:+: text) :
    ∃ before behind, text = before ++ (needle ++ behind) ∧ Clear needle before (needle ++ behind) := by
  induction text with
  | nil =>
      rw [List.infix_nil] at h
      subst h
      exact ⟨[], [], rfl, by intro n hn; cases hn⟩
  | cons a text ih =>
      by_cases hhead : needle <+: a :: text
      · obtain ⟨behind, heq⟩ := hhead
        exact ⟨[], behind, heq.symm, by intro n hn; cases hn⟩
      · obtain ⟨before, behind, rfl, hclear⟩ := ih ((List.infix_cons_iff.1 h).resolve_left hhead)
        refine ⟨a :: before, behind, rfl, ?_⟩
        intro n hn
        cases n with
        | zero => exact hhead
        | succ n => exact hclear n (Nat.lt_of_succ_lt_succ hn)

theorem length_le_replace (hne : needle ≠ []) (hle : needle.length ≤ rep.length) :
    ∀ text, text.length ≤ (replace needle rep text).length := by
  intro text
  induction hn : text.length using Nat.strong_induction_on generalizing text with
  | _ n ih =>
      cases text with
      | nil => simpa using hn.symm.le
      | cons a text =>
          by_cases hhead : needle <+: a :: text
          · obtain ⟨behind, heq⟩ := hhead
            have hpos : 0 < needle.length := List.length_pos_iff.2 hne
            have hlength : needle.length + behind.length = n := by
              rw [← hn, ← heq, List.length_append]
            have hrest := ih behind.length (by omega) behind rfl
            rw [← heq, replace_append _ _ hne, List.length_append]
            omega
          · have hlength : text.length + 1 = n := hn
            have hrest := ih text.length (by omega) text rfl
            rw [replace_cons hhead, List.length_cons]
            omega

/-- A longer replacement makes a list longer wherever there is an occurrence. -/
theorem length_lt_replace (hne : needle ≠ []) (hlt : needle.length < rep.length)
    (h : needle <:+: text) : text.length < (replace needle rep text).length := by
  obtain ⟨before, behind, rfl, hclear⟩ := exists_clear h
  rw [replace_clear _ hclear, replace_append _ _ hne]
  have hrest := length_le_replace hne hlt.le behind
  simp only [List.length_append]
  omega

end Replace
