import Cja.Lib.Replace

/-!
# Splitting a text at a piece

`split needle text` cuts `text` at every occurrence of `needle` that does not
overlap the one before, and `String.splitOn` is this function. A needle none of
whose ends is a beginning of it has at most one place in a text that is cut once.
-/
namespace Replace

section Lists

variable {α : Type*} [DecidableEq α]

/-- `skip` elements of the occurrence cut last are still to be passed. -/
def splitFrom (needle : List α) : ℕ → List α → List (List α)
  | _, [] => [[]]
  | skip + 1, _ :: text => splitFrom needle skip text
  | 0, a :: text =>
      if needle.isPrefixOf (a :: text) then [] :: splitFrom needle (needle.length - 1) text
      else (splitFrom needle 0 text).modifyHead (a :: ·)

def split (needle text : List α) : List (List α) := splitFrom needle 0 text

variable {needle text before behind : List α} {a : α}

theorem splitFrom_skip (needle : List α) (n : ℕ) (text : List α) :
    splitFrom needle n text = split needle (text.drop n) := by
  induction n generalizing text with
  | zero => rfl
  | succ n ih =>
      cases text with
      | nil => rfl
      | cons a text => exact ih text

theorem split_cons (h : ¬ needle <+: a :: text) :
    split needle (a :: text) = (split needle text).modifyHead (a :: ·) := by
  have hfalse : needle.isPrefixOf (a :: text) ≠ true := fun ht =>
    h (List.isPrefixOf_iff_prefix.1 ht)
  rw [split, splitFrom, if_neg hfalse]
  rfl

theorem split_append (text : List α) (hne : needle ≠ []) :
    split needle (needle ++ text) = [] :: split needle text := by
  cases needle with
  | nil => exact absurd rfl hne
  | cons a needle =>
      have htrue : (a :: needle).isPrefixOf (a :: (needle ++ text)) = true :=
        List.isPrefixOf_iff_prefix.2 (List.prefix_append (a :: needle) text)
      rw [List.cons_append, split, splitFrom, if_pos htrue, splitFrom_skip]
      simp

theorem split_ne_nil (needle text : List α) : split needle text ≠ [] := by
  induction hn : text.length using Nat.strong_induction_on generalizing text with
  | _ n ih =>
      cases text with
      | nil => simp [split, splitFrom]
      | cons a text =>
          have hlength : text.length + 1 = n := hn
          rw [split, splitFrom]
          split
          · simp
          · have hrest := ih text.length (by omega) text rfl
            rw [split] at hrest
            cases hsplit : splitFrom needle 0 text with
            | nil => exact absurd hsplit hrest
            | cons piece pieces => simp

/-- What stands before the first occurrence is the first piece. -/
theorem split_clear (hne : needle ≠ []) (h : Clear needle before (needle ++ behind)) :
    split needle (before ++ (needle ++ behind)) = before :: split needle behind := by
  induction before with
  | nil => exact split_append behind hne
  | cons a before ih =>
      have hhead : ¬ needle <+: a :: (before ++ (needle ++ behind)) := h 0 (Nat.succ_pos _)
      rw [List.cons_append, split_cons hhead, ih h.tail]
      rfl

theorem two_le_length_split (hne : needle ≠ []) (h : needle <:+: text) :
    2 ≤ (split needle text).length := by
  obtain ⟨before, behind, rfl, hclear⟩ := exists_clear h
  rw [split_clear hne hclear, List.length_cons]
  have hpos := List.length_pos_iff.2 (split_ne_nil needle behind)
  omega

theorem split_absent (h : ¬ needle <:+: text) : split needle text = [text] := by
  induction text with
  | nil => rfl
  | cons a text ih =>
      rw [List.infix_cons_iff, not_or] at h
      rw [split_cons h.1, ih h.2]
      rfl

/-- No proper end of the list is a beginning of it. -/
def Borderless (needle : List α) : Prop :=
  ∀ k < needle.length, 0 < k → ¬ needle.drop k <+: needle

/-- Where a text is cut once, its pieces are the two sides of any occurrence. -/
theorem split_of_length_two (hne : needle ≠ []) (hb : Borderless needle)
    (h : (split needle (before ++ (needle ++ behind))).length = 2) :
    split needle (before ++ (needle ++ behind)) = [before, behind] := by
  obtain ⟨first, rest, heq, hclear⟩ :=
    exists_clear ((List.prefix_append needle behind).isInfix.trans
      (List.suffix_append before (needle ++ behind)).isInfix)
  rw [heq, split_clear hne hclear, List.length_cons] at h
  have hrest : ¬ needle <:+: rest := by
    intro hinfix
    have htwo := two_le_length_split hne hinfix
    omega
  have hle : first.length ≤ before.length := by
    by_contra hlt
    apply hclear before.length (by omega)
    rw [← heq, List.drop_left]
    exact List.prefix_append ..
  obtain ⟨between, rfl⟩ : first <+: before := by
    have hfirst : first <+: first ++ (needle ++ rest) := List.prefix_append ..
    have hbefore : before <+: first ++ (needle ++ rest) := by
      rw [← heq]
      exact List.prefix_append ..
    exact List.prefix_of_prefix_length_le hfirst hbefore hle
  rw [List.append_assoc, List.append_right_inj] at heq
  by_cases hzero : between = []
  · subst hzero
    have hsame : behind = rest := by simpa using heq
    rw [List.append_nil, hsame, split_clear hne hclear, split_absent hrest]
  · exfalso
    have hpos := List.length_pos_iff.2 hzero
    by_cases hshort : between.length < needle.length
    · apply hb between.length hshort hpos
      have hdrop := congrArg (List.drop between.length) heq
      rw [List.drop_left, List.drop_append_of_le_length hshort.le] at hdrop
      have hrest : needle.drop between.length <+: needle ++ behind := by
        rw [hdrop]
        exact List.prefix_append ..
      have hneedle : needle <+: needle ++ behind := List.prefix_append ..
      have hle : (needle.drop between.length).length ≤ needle.length := by
        rw [List.length_drop]
        omega
      exact List.prefix_of_prefix_length_le hrest hneedle hle
    · apply hrest
      have hdrop := congrArg (List.drop needle.length) heq
      rw [List.drop_left, List.drop_append_of_le_length (by omega)] at hdrop
      rw [← hdrop]
      exact (List.prefix_append needle behind).isInfix.trans
        (List.suffix_append _ (needle ++ behind)).isInfix

end Lists

/-! ## Strings -/

section Strings
open String

/-- The loop of `String.splitOn` when it has passed `l`, `m` and `d`: the current piece
begins after `l`, and `d` is the part of the needle `d ++ e` matched so far. -/
def splitLoop (l m d r e : List Char) (acc : List String) : List String :=
  splitOnAux (ofList (l ++ m ++ d ++ r)) (ofList (d ++ e)) ⟨utf8Len l⟩ ⟨utf8Len (l ++ m ++ d)⟩
    ⟨utf8Len d⟩ acc

variable {l m d r e : List Char} {acc : List String} {a c : Char}

theorem splitLoop_end : splitLoop l m d [] e acc = acc.reverse ++ [ofList (m ++ d)] := by
  have hend : Pos.Raw.atEnd (ofList (l ++ m ++ d ++ [])) ⟨utf8Len (l ++ m ++ d)⟩ = true := by
    rw [atEnd_of_valid]
  have hpiece := extract_of_valid l (m ++ d) []
  rw [splitLoop, splitOnAux, if_pos hend]
  simp only [List.append_nil, List.append_assoc, utf8Len_append, List.reverse_cons] at hpiece ⊢
  rw [hpiece]

theorem splitLoop_cons : splitLoop l m d (c :: r) (a :: e) acc =
    if c = a then
      if e = [] then splitLoop (l ++ m ++ d ++ [c]) [] [] r (d ++ a :: e) (ofList m :: acc)
      else splitLoop l m (d ++ [c]) r e acc
    else splitLoop l (m ++ (d ++ c :: r).take 1) [] ((d ++ c :: r).drop 1) (d ++ a :: e) acc := by
  have hend : ¬ Pos.Raw.atEnd (ofList (l ++ m ++ d ++ c :: r)) ⟨utf8Len (l ++ m ++ d)⟩ = true := by
    rw [atEnd_of_valid]
    simp
  have htext : Pos.Raw.get (ofList (l ++ m ++ d ++ c :: r)) ⟨utf8Len (l ++ m ++ d)⟩ = c :=
    get_of_valid (l ++ m ++ d) (c :: r)
  have hneedle : Pos.Raw.get (ofList (d ++ a :: e)) ⟨utf8Len d⟩ = a := get_of_valid d (a :: e)
  rw [splitLoop, splitOnAux, if_neg hend]
  by_cases hca : c = a
  · subst hca
    rw [if_pos rfl, if_pos (by rw [htext, hneedle, beq_self_eq_true]),
      next_of_valid (l ++ m ++ d) c r, next_of_valid d c e]
    by_cases he : e = []
    · subst he
      have hneedleEnd : Pos.Raw.atEnd (ofList (d ++ [c])) ⟨utf8Len d + c.utf8Size⟩ = true := by
        simp [-ofList_append]
      have hpiece := extract_of_valid l m (d ++ c :: r)
      have hback : (⟨utf8Len (l ++ m ++ d) + c.utf8Size⟩ : Pos.Raw).unoffsetBy
          ⟨utf8Len d + c.utf8Size⟩ = ⟨utf8Len l + utf8Len m⟩ := by
        simp only [Pos.Raw.unoffsetBy, Pos.Raw.mk.injEq, utf8Len_append]
        omega
      have hlist : l ++ m ++ (d ++ c :: r) = l ++ m ++ d ++ c :: r := by simp
      rw [hlist] at hpiece
      rw [if_pos hneedleEnd, if_pos rfl, hback, hpiece, splitLoop]
      simp [-ofList_append, Nat.add_assoc]
    · have hneedleEnd : ¬ Pos.Raw.atEnd (ofList (d ++ c :: e)) ⟨utf8Len d + c.utf8Size⟩ = true := by
        have hvalid := atEnd_of_valid (d ++ [c]) e
        simp only [List.append_assoc, List.cons_append, List.nil_append, utf8Len_append,
          utf8Len_cons, utf8Len_nil, Nat.zero_add] at hvalid
        rw [hvalid]
        exact he
      rw [if_neg hneedleEnd, if_neg he, splitLoop]
      simp [-ofList_append, Nat.add_assoc]
  · rw [if_neg hca, if_neg (by rw [htext, hneedle, beq_iff_eq]; exact hca)]
    have hback : (⟨utf8Len (l ++ m ++ d)⟩ : Pos.Raw).unoffsetBy ⟨utf8Len d⟩ =
        ⟨utf8Len (l ++ m)⟩ := by
      simp only [Pos.Raw.unoffsetBy, Pos.Raw.mk.injEq, utf8Len_append]
      omega
    obtain ⟨x, rest, heq⟩ := List.exists_cons_of_ne_nil (l := d ++ c :: r) (by simp)
    have hlist : l ++ m ++ d ++ c :: r = l ++ m ++ x :: rest := by
      rw [List.append_assoc, heq]
    rw [hback, hlist, next_of_valid (l ++ m) x rest, heq, splitLoop]
    simp [-ofList_append, Nat.add_assoc]

theorem modifyHead_nil_append {α : Type*} (pieces : List (List α)) :
    pieces.modifyHead ([] ++ ·) = pieces := by
  cases pieces <;> simp

theorem modifyHead_append {α : Type*} (m : List α) (x : α) (pieces : List (List α)) :
    (pieces.modifyHead (x :: ·)).modifyHead (m ++ ·) = pieces.modifyHead ((m ++ [x]) ++ ·) := by
  cases pieces <;> simp

/-- The loop cuts what is left as `split` does. What is left grows shorter, or the
same text is matched further. -/
theorem splitLoop_eq (l m d r e : List Char) (acc : List String) (he : e ≠ []) :
    splitLoop l m d r e acc =
      acc.reverse ++ ((split (d ++ e) (d ++ r)).modifyHead (m ++ ·)).map ofList := by
  cases r with
  | nil =>
      have habsent : ¬ (d ++ e) <:+: d ++ [] := by
        intro h
        have hlength := h.length_le
        have hpos := List.length_pos_iff.2 he
        simp only [List.length_append, List.length_nil] at hlength
        omega
      rw [splitLoop_end, split_absent habsent]
      simp
  | cons c r =>
      obtain ⟨a, e, rfl⟩ := List.exists_cons_of_ne_nil he
      rw [splitLoop_cons]
      by_cases hca : c = a
      · subst hca
        rw [if_pos rfl]
        by_cases hempty : e = []
        · subst hempty
          have hsplit : split (d ++ [c]) (d ++ [c] ++ r) = [] :: split (d ++ [c]) r :=
            split_append r (by simp)
          rw [if_pos rfl, splitLoop_eq _ [] [] r (d ++ [c]) _ (by simp), modifyHead_nil_append]
          rw [show d ++ c :: r = d ++ [c] ++ r by simp, hsplit]
          simp
        · rw [if_neg hempty, splitLoop_eq l m (d ++ [c]) r e acc hempty]
          simp
      · have hno : ¬ (d ++ a :: e) <+: d ++ c :: r := by
          rw [List.prefix_append_right_inj, List.cons_prefix_cons]
          exact fun h => hca h.1.symm
        obtain ⟨x, rest, heq⟩ := List.exists_cons_of_ne_nil (l := d ++ c :: r) (by simp)
        have hshorter : rest.length < d.length + (r.length + 1) := by
          have hlength := congrArg List.length heq
          simp only [List.length_append, List.length_cons] at hlength
          omega
        rw [if_neg hca, heq]
        rw [heq] at hno
        rw [split_cons hno, modifyHead_append]
        exact splitLoop_eq l (m ++ [x]) [] rest (d ++ a :: e) acc (by simp)
termination_by (d.length + r.length, r.length)
decreasing_by
  all_goals
    simp_wf
    omega

theorem splitOn_ofList {needle : List Char} (text : List Char) (hne : needle ≠ []) :
    (ofList text).splitOn (ofList needle) = (split needle text).map ofList := by
  have hloop := splitLoop_eq [] [] [] text needle [] hne
  have hfalse : ¬ (ofList needle == "") = true := by
    rw [beq_iff_eq]
    intro h
    apply hne
    simpa using congrArg toList h
  rw [modifyHead_nil_append] at hloop
  rw [splitOn, if_neg hfalse]
  simpa [splitLoop] using hloop

end Strings

end Replace
