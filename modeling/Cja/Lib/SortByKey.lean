import Mathlib.Data.List.Sort
import Mathlib.Order.Basic

/-!
# Sorting by a key

Where no two elements share a key, sorting by it leaves nothing open: the result is strictly
increasing, and it does not depend on the order the elements came in.
-/
namespace SortByKey

variable {α κ : Type*} [LinearOrder κ] {key : α → κ} {le : α → α → Bool} {xs ys : List α}

theorem pairwise_lt (hle : ∀ a b, le a b = true ↔ key a ≤ key b) (hd : (xs.map key).Nodup) :
    (xs.mergeSort le).Pairwise fun a b => key a < key b := by
  have hsorted : (xs.mergeSort le).Pairwise fun a b => le a b = true := by
    refine List.pairwise_mergeSort (fun a b c hab hbc => ?_) (fun a b => ?_) xs
    · exact (hle a c).mpr (((hle a b).mp hab).trans ((hle b c).mp hbc))
    · rw [Bool.or_eq_true, hle, hle]
      exact le_total (key a) (key b)
  have hdistinct : (xs.mergeSort le).Pairwise fun a b => key a ≠ key b :=
    List.pairwise_map.mp (((List.mergeSort_perm xs le).map key).nodup_iff.mpr hd)
  exact (hsorted.and hdistinct).imp fun {a b} h => lt_of_le_of_ne ((hle a b).mp h.1) h.2

/-- A list that increases with the key is told by its members. -/
theorem eq_of_mem_iff (hxs : xs.Pairwise fun a b => key a < key b)
    (hys : ys.Pairwise fun a b => key a < key b) (h : ∀ a, a ∈ xs ↔ a ∈ ys) : xs = ys := by
  have hnodup : ∀ {zs : List α}, (zs.Pairwise fun a b => key a < key b) → zs.Nodup :=
    fun hzs => hzs.imp fun hlt heq => hlt.ne (congrArg key heq)
  refine List.Perm.eq_of_pairwise (fun a b _ _ hab hba => ?_) hxs hys
    ((List.perm_ext_iff_of_nodup (hnodup hxs) (hnodup hys)).mpr h)
  exact absurd hba (lt_asymm hab)

theorem mergeSort_of_perm (hle : ∀ a b, le a b = true ↔ key a ≤ key b) (hperm : xs.Perm ys)
    (hd : (xs.map key).Nodup) : xs.mergeSort le = ys.mergeSort le := by
  refine eq_of_mem_iff (pairwise_lt hle hd)
    (pairwise_lt hle ((hperm.map key).nodup_iff.mp hd)) fun a => ?_
  rw [(List.mergeSort_perm xs le).mem_iff, (List.mergeSort_perm ys le).mem_iff, hperm.mem_iff]

end SortByKey
