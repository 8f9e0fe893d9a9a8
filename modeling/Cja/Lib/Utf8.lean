import Mathlib

/-!
# A text and its UTF-8 bytes

A position in a text counts the bytes before it. A slice starts and ends between
two characters; at any other position there is none.
-/
namespace Utf8

def bytes (cs : List Char) : List UInt8 := cs.flatMap String.utf8EncodeChar

/-- The characters from a position on. -/
def dropBytes : List Char → ℕ → Option (List Char)
  | cs, 0 => some cs
  | [], _ + 1 => none
  | c :: cs, n + 1 => if c.utf8Size ≤ n + 1 then dropBytes cs (n + 1 - c.utf8Size) else none

/-- The characters before a position. -/
def takeBytes : List Char → ℕ → Option (List Char)
  | _, 0 => some []
  | [], _ + 1 => none
  | c :: cs, n + 1 =>
      if c.utf8Size ≤ n + 1 then (takeBytes cs (n + 1 - c.utf8Size)).map (c :: ·) else none

def slice (cs : List Char) (start stop : ℕ) : Option (List Char) :=
  if start ≤ stop then (dropBytes cs start).bind fun rest => takeBytes rest (stop - start)
  else none

variable {cs t : List Char} {start stop n : ℕ}

@[simp] theorem bytes_cons (c : Char) (cs : List Char) :
    bytes (c :: cs) = String.utf8EncodeChar c ++ bytes cs := rfl

theorem bytes_append (cs ds : List Char) : bytes (cs ++ ds) = bytes cs ++ bytes ds := by
  simp [bytes]

theorem dropBytes_spec (h : dropBytes cs n = some t) :
    ∃ before, cs = before ++ t ∧ (bytes before).length = n := by
  induction cs generalizing n with
  | nil =>
      cases n with
      | zero => cases h; exact ⟨[], rfl, rfl⟩
      | succ n => cases h
  | cons c cs ih =>
      cases n with
      | zero => cases h; exact ⟨[], rfl, rfl⟩
      | succ n =>
          simp only [dropBytes] at h
          split_ifs at h with hc
          obtain ⟨before, rfl, hn⟩ := ih h
          refine ⟨c :: before, rfl, ?_⟩
          rw [bytes_cons, List.length_append, String.length_utf8EncodeChar, hn]
          omega

theorem takeBytes_spec (h : takeBytes cs n = some t) :
    ∃ after, cs = t ++ after ∧ (bytes t).length = n := by
  induction cs generalizing n t with
  | nil =>
      cases n with
      | zero => cases h; exact ⟨[], rfl, rfl⟩
      | succ n => cases h
  | cons c cs ih =>
      cases n with
      | zero => cases h; exact ⟨c :: cs, rfl, rfl⟩
      | succ n =>
          simp only [takeBytes] at h
          split_ifs at h with hc
          rw [Option.map_eq_some_iff] at h
          obtain ⟨u, hu, rfl⟩ := h
          obtain ⟨after, rfl, hn⟩ := ih hu
          refine ⟨after, rfl, ?_⟩
          rw [bytes_cons, List.length_append, String.length_utf8EncodeChar, hn]
          omega

/-- A slice and what stands before and after it. -/
theorem slice_spec (h : slice cs start stop = some t) :
    ∃ before after, cs = before ++ t ++ after ∧ (bytes before).length = start ∧
      start + (bytes t).length = stop := by
  unfold slice at h
  split_ifs at h with hle
  rw [Option.bind_eq_some_iff] at h
  obtain ⟨rest, hrest, ht⟩ := h
  obtain ⟨before, rfl, hbefore⟩ := dropBytes_spec hrest
  obtain ⟨after, rfl, hlength⟩ := takeBytes_spec ht
  refine ⟨before, after, by rw [List.append_assoc], hbefore, ?_⟩
  omega

theorem slice_drop (h : slice cs start stop = some t) :
    (bytes cs).drop start = bytes t ++ (bytes cs).drop stop := by
  obtain ⟨before, after, rfl, hstart, hstop⟩ := slice_spec h
  rw [bytes_append, bytes_append, List.append_assoc, List.drop_left' hstart,
    ← List.append_assoc, List.drop_left' (by rw [List.length_append]; omega)]

/-! ## ASCII -/

/-- A byte below 128 stands for itself only. -/
theorem val_of_mem {c : Char} {b : UInt8} (hb : b ∈ String.utf8EncodeChar c) (h : b.toNat < 128) :
    c.val.toNat = b.toNat := by
  unfold String.utf8EncodeChar at hb
  dsimp only at hb
  split_ifs at hb with h₁ h₂ h₃
  · rw [List.mem_singleton] at hb
    subst hb
    rw [UInt8.toNat_ofNat']
    omega
  · simp only [List.mem_cons, List.not_mem_nil, or_false] at hb
    rcases hb with hb | hb <;> (subst hb; rw [UInt8.toNat_ofNat'] at h; omega)
  · simp only [List.mem_cons, List.not_mem_nil, or_false] at hb
    rcases hb with hb | hb | hb <;> (subst hb; rw [UInt8.toNat_ofNat'] at h; omega)
  · simp only [List.mem_cons, List.not_mem_nil, or_false] at hb
    rcases hb with hb | hb | hb | hb <;> (subst hb; rw [UInt8.toNat_ofNat'] at h; omega)

theorem encode_ascii {c : Char} (h : c.val.toNat < 128) :
    String.utf8EncodeChar c = [UInt8.ofNat c.val.toNat] := by
  unfold String.utf8EncodeChar
  dsimp only
  rw [if_pos (by omega)]

/-- A character below 128 is in a text if its byte is in the bytes. -/
theorem mem_of_mem_bytes {b : UInt8} (hb : b ∈ bytes cs) (h : b.toNat < 128) :
    ∃ c ∈ cs, c.val.toNat = b.toNat := by
  obtain ⟨c, hc, hb⟩ := List.mem_flatMap.mp hb
  exact ⟨c, hc, val_of_mem hb h⟩

/-! ## Boundaries -/

/-- A position between two characters, or at an end of the text. -/
def Boundary (cs : List Char) (n : ℕ) : Prop :=
  ∃ before after, cs = before ++ after ∧ (bytes before).length = n

theorem boundary_zero (cs : List Char) : Boundary cs 0 := ⟨[], cs, rfl, rfl⟩

theorem boundary_length (cs : List Char) : Boundary cs (bytes cs).length :=
  ⟨cs, [], (List.append_nil cs).symm, rfl⟩

theorem Boundary.le (h : Boundary cs n) : n ≤ (bytes cs).length := by
  obtain ⟨before, after, rfl, rfl⟩ := h
  rw [bytes_append, List.length_append]
  omega

/-- The positions behind a first character are those of the rest. -/
theorem Boundary.cons (c : Char) (h : Boundary cs n) :
    Boundary (c :: cs) ((String.utf8EncodeChar c).length + n) := by
  obtain ⟨before, after, rfl, rfl⟩ := h
  exact ⟨c :: before, after, rfl, List.length_append⟩

theorem dropBytes_append (cs ds : List Char) : dropBytes (cs ++ ds) (bytes cs).length = some ds := by
  induction cs with
  | nil => cases ds <;> rfl
  | cons c cs ih =>
      rw [bytes_cons, List.length_append, String.length_utf8EncodeChar, List.cons_append]
      obtain ⟨k, hk⟩ := Nat.exists_eq_succ_of_ne_zero c.utf8Size_pos.ne'
      have hsum : c.utf8Size + (bytes cs).length = k + (bytes cs).length + 1 := by omega
      have hrest : k + (bytes cs).length + 1 - c.utf8Size = (bytes cs).length := by omega
      rw [hsum, dropBytes, if_pos (by omega), hrest, ih]

theorem takeBytes_append (cs ds : List Char) : takeBytes (cs ++ ds) (bytes cs).length = some cs := by
  induction cs with
  | nil => cases ds <;> rfl
  | cons c cs ih =>
      rw [bytes_cons, List.length_append, String.length_utf8EncodeChar, List.cons_append]
      obtain ⟨k, hk⟩ := Nat.exists_eq_succ_of_ne_zero c.utf8Size_pos.ne'
      have hsum : c.utf8Size + (bytes cs).length = k + (bytes cs).length + 1 := by omega
      have hrest : k + (bytes cs).length + 1 - c.utf8Size = (bytes cs).length := by omega
      rw [hsum, takeBytes, if_pos (by omega), hrest, ih]
      rfl

/-- There is a slice between any two boundaries. -/
theorem Boundary.slice (hstart : Boundary cs start) (hstop : Boundary cs stop)
    (hle : start ≤ stop) : ∃ t, slice cs start stop = some t := by
  obtain ⟨before, rest, rfl, rfl⟩ := hstart
  obtain ⟨upto, after, hsplit, rfl⟩ := hstop
  rw [Utf8.slice, if_pos hle, dropBytes_append, Option.bind_some]
  -- the longer of two beginnings of the text starts with the other
  obtain ⟨t, rfl⟩ : before <+: upto := by
    rcases List.prefix_or_prefix_of_prefix ⟨rest, rfl⟩ ⟨after, hsplit.symm⟩ with h | h
    · exact h
    · obtain ⟨t, rfl⟩ := h
      rw [bytes_append, List.length_append] at hle
      have hnil : t = [] := by
        cases t with
        | nil => rfl
        | cons c t =>
            rw [bytes_cons, List.length_append, String.length_utf8EncodeChar] at hle
            have hpos := c.utf8Size_pos
            omega
      rw [hnil, List.append_nil]
  rw [List.append_assoc, List.append_cancel_left_eq] at hsplit
  rw [bytes_append, List.length_append, Nat.add_sub_cancel_left, hsplit, takeBytes_append]
  exact ⟨t, rfl⟩

/-- A byte that begins a character stands at a boundary. -/
theorem boundary_of_first {b : UInt8} (h : (bytes cs)[n]? = some b) (hb : b.IsUTF8FirstByte) :
    Boundary cs n := by
  induction cs generalizing n with
  | nil => cases h
  | cons c cs ih =>
      by_cases hn : n < (String.utf8EncodeChar c).length
      · rw [bytes_cons, List.getElem?_append_left hn, List.getElem?_eq_getElem hn,
          Option.some.injEq] at h
        rw [← h, UInt8.isUTF8FirstByte_getElem_utf8EncodeChar] at hb
        rw [hb]
        exact boundary_zero (c :: cs)
      · rw [bytes_cons, List.getElem?_append_right (by omega)] at h
        have hrest := (ih h).cons c
        rwa [Nat.add_sub_cancel' (by omega)] at hrest

theorem first_of_ascii {b : UInt8} (h : b.toNat < 128) : b.IsUTF8FirstByte := by
  have hand : b &&& 0x80 = 0 := by
    rw [← UInt8.toNat_inj, UInt8.toNat_and, show (0x80 : UInt8).toNat = 2 ^ 7 from rfl,
      Nat.and_two_pow, Nat.testBit_lt_two_pow h]
    rfl
  exact .inl hand

/-- A byte below 128 is a character, so the next position is a boundary too. -/
theorem boundary_succ {b : UInt8} (h : (bytes cs)[n]? = some b) (hb : b.toNat < 128) :
    Boundary cs (n + 1) := by
  obtain ⟨before, after, rfl, rfl⟩ := boundary_of_first h (first_of_ascii hb)
  rw [bytes_append, List.getElem?_append_right le_rfl, Nat.sub_self] at h
  cases after with
  | nil => cases h
  | cons c after =>
      have hmem : b ∈ String.utf8EncodeChar c := by
        rw [bytes_cons, List.getElem?_append_left (by simp [c.utf8Size_pos])] at h
        exact List.mem_of_getElem? h
      refine ⟨before ++ [c], after, by simp, ?_⟩
      rw [bytes_append, List.length_append, bytes_cons,
        encode_ascii (by rw [val_of_mem hmem hb]; exact hb)]
      rfl

/-- A byte from E0 to EF begins a character of three bytes. -/
theorem boundary_three {b : UInt8} (h : (bytes cs)[0]? = some b) (hlow : 0xE0 ≤ b.toNat)
    (hhigh : b.toNat < 0xF0) : Boundary cs 3 := by
  cases cs with
  | nil => cases h
  | cons c cs =>
      have hsize : (String.utf8EncodeChar c).length = 3 := by
        rw [bytes_cons, List.getElem?_append_left (by simp [c.utf8Size_pos])] at h
        unfold String.utf8EncodeChar at h ⊢
        dsimp only at h ⊢
        split_ifs at h ⊢ with h₁ h₂ h₃
        · rw [List.getElem?_cons_zero, Option.some.injEq] at h
          subst h
          rw [UInt8.toNat_ofNat'] at hlow hhigh
          omega
        · rw [List.getElem?_cons_zero, Option.some.injEq] at h
          subst h
          rw [UInt8.toNat_ofNat'] at hlow hhigh
          omega
        · rfl
        · rw [List.getElem?_cons_zero, Option.some.injEq] at h
          subst h
          rw [UInt8.toNat_ofNat'] at hlow hhigh
          omega
      have hrest := (boundary_zero cs).cons c
      rwa [hsize] at hrest

end Utf8
