import Cja.Lib.Utf8
import Cja.Testing.Reaper

/-!
# Test databases of different prefixes

A generated name ends in 32 hex digits behind an underscore, and what stands before them
is the prefix, which ends in an underscore, and digits. So the name tells its prefix,
however prefixes overlap, and the reaper of another prefix passes it by.
-/
namespace Cja.Testing

/-! ## Generation -/

/-- A clock reading, in nanoseconds since the Unix epoch. -/
structure SystemTime where
  nanos : ℤ
  bounded : nanos / second ≤ lastSecond

/-- The whole seconds since the Unix epoch. -/
def SystemTime.epochSecond (now : SystemTime) : ℕ := (now.nanos / second).toNat

structure Uuid where
  bytes : Fin 16 → UInt8

def hexByte (byte : UInt8) : Name :=
  [Nat.digitChar (byte.toNat / 16), Nat.digitChar (byte.toNat % 16)]

/-- The simple form: lowercase, without hyphens. -/
def Uuid.simple (uuid : Uuid) : Name := (List.ofFn uuid.bytes).flatMap hexByte

def validateGeneratedName (name : Name) : Except String Unit :=
  if name.isEmpty || 63 < name.length || !name.all isIdentifier then
    .error "invalid generated test database name"
  else .ok ()

/-- `generate_database_name`, with the UUID that `new_v4` returns. -/
def generateDatabaseName (pfx : Name) (now : SystemTime) (uuid : Uuid) : Except String Name := do
  validatePrefix pfx
  if now.nanos < 0 then .error "system clock is before the Unix epoch"
  else
    let name := pfx ++ Nat.toDigits 10 now.epochSecond ++ '_' :: uuid.simple
    validateGeneratedName name
    pure name

/-! ## The parts of a name -/

variable {pfx other name digits digits' : Name} {now : SystemTime} {uuid : Uuid} {epoch : ℕ}

theorem digitChar_hex {n : ℕ} (h : n < 16) :
    isHexDigit (Nat.digitChar n) = true ∧ (Nat.digitChar n).toLower = Nat.digitChar n := by
  revert n
  decide

theorem mem_hexByte {byte : UInt8} {c : Char} (h : c ∈ hexByte byte) :
    isHexDigit c = true ∧ c.toLower = c := by
  have hhigh : byte.toNat / 16 < 16 := by
    have := byte.toNat_lt
    omega
  have hlow : byte.toNat % 16 < 16 := Nat.mod_lt _ (by decide)
  unfold hexByte at h
  rw [List.mem_cons, List.mem_singleton] at h
  obtain rfl | rfl := h
  · exact digitChar_hex hhigh
  · exact digitChar_hex hlow

theorem mem_simple {c : Char} (h : c ∈ uuid.simple) : isHexDigit c = true ∧ c.toLower = c := by
  obtain ⟨byte, -, hc⟩ := List.mem_flatMap.mp h
  exact mem_hexByte hc

theorem simple_length (uuid : Uuid) : uuid.simple.length = 32 := by
  simp [Uuid.simple, hexByte]

theorem simple_simple (uuid : Uuid) : simple uuid.simple = uuid.simple := by
  unfold simple
  conv_rhs => rw [← List.map_id uuid.simple]
  exact List.map_congr_left fun c hc => (mem_simple hc).2

theorem toDigits_digits (n : ℕ) : (Nat.toDigits 10 n).all isDigit = true := by
  rw [List.all_eq_true]
  intro c hc
  have hdigit := Nat.isDigit_of_mem_toDigits (by decide) (by decide) hc
  unfold Char.isDigit at hdigit
  simp only [Bool.and_eq_true, decide_eq_true_eq] at hdigit
  unfold isDigit
  rw [Bool.and_eq_true, decide_eq_true_eq, decide_eq_true_eq]
  exact hdigit

theorem decimal_eq (digits : Name) : decimal digits = Nat.ofDigitChars 10 digits 0 := by
  unfold decimal Nat.ofDigitChars
  simp only [Nat.mul_comm]

theorem decimal_toDigits (n : ℕ) : decimal (Nat.toDigits 10 n) = n := by
  rw [decimal_eq, Nat.ofDigitChars_ten_toDigits]

/-- A valid prefix ends in an underscore. -/
theorem getLast_of_valid (h : validatePrefix pfx = .ok ()) : pfx.getLast? = some '_' := by
  unfold validatePrefix at h
  split at h
  · cases h
  · rename_i hform
    simp only [Bool.or_eq_true, not_or, bne_iff_ne, ne_eq, not_not] at hform
    exact hform.1.2

/-! ## One name, one prefix -/

/-- Digits do not reach over the underscore a prefix ends in. -/
theorem prefix_eq_of_append (hother : other.getLast? = some '_')
    (hdigits : digits.all isDigit = true) {extra : Name} (h : other = pfx ++ extra)
    (hextra : digits = extra ++ digits') : other = pfx := by
  cases hlast : extra.getLast? with
  | none =>
      rw [List.getLast?_eq_none_iff] at hlast
      rw [h, hlast, List.append_nil]
  | some c =>
      have hc : c = '_' := by
        rw [h, List.getLast?_append, hlast] at hother
        exact Option.some.inj hother
      have hmem : c ∈ digits := by
        rw [hextra]
        exact List.mem_append_left _ (List.mem_of_getLast? hlast)
      exact absurd hc (isDigit_ne_underscore (List.all_eq_true.1 hdigits c hmem))

theorem prefix_unique (hpfx : pfx.getLast? = some '_') (hother : other.getLast? = some '_')
    (hdigits : digits.all isDigit = true) (hdigits' : digits'.all isDigit = true)
    (h : pfx ++ digits = other ++ digits') : other = pfx := by
  rw [List.append_eq_append_iff] at h
  cases h with
  | inl h =>
      obtain ⟨extra, hsplit, hextra⟩ := h
      exact prefix_eq_of_append hother hdigits hsplit hextra
  | inr h =>
      obtain ⟨extra, hsplit, hextra⟩ := h
      exact (prefix_eq_of_append hpfx hdigits' hsplit hextra).symm

/-- A name has the generated form for one prefix only. -/
theorem Generated.prefix_eq {epoch' : ℕ} (h : Generated pfx name epoch)
    (h' : Generated other name epoch') : other = pfx := by
  obtain ⟨digits, uuid, hname, -, hdigits, -, hlength, -, -⟩ := h.form
  obtain ⟨digits', uuid', hname', -, hdigits', -, hlength', -, -⟩ := h'.form
  have hsame : pfx ++ digits ++ '_' :: uuid = other ++ digits' ++ '_' :: uuid' := by
    rw [← hname, ← hname']
  have hends : ('_' :: uuid).length = ('_' :: uuid').length := by
    rw [List.length_cons, List.length_cons, hlength, hlength']
  have hfront := (List.append_inj' hsame hends).1
  exact prefix_unique (getLast_of_valid h.valid) (getLast_of_valid h'.valid) hdigits hdigits' hfront

/-! ## What is generated -/

theorem validateGeneratedName_ok (h : validateGeneratedName name = .ok ()) :
    name.length ≤ 63 ∧ name.all isIdentifier = true := by
  unfold validateGeneratedName at h
  split at h
  · cases h
  · rename_i hform
    simp only [Bool.or_eq_true, decide_eq_true_eq, not_or, Bool.not_eq_true, Nat.not_lt,
      Bool.not_eq_false'] at hform
    exact ⟨hform.1.2, hform.2⟩

theorem generateDatabaseName_ok (h : generateDatabaseName pfx now uuid = .ok name) :
    validatePrefix pfx = .ok () ∧ validateGeneratedName name = .ok () ∧ 0 ≤ now.nanos ∧
      name = pfx ++ Nat.toDigits 10 now.epochSecond ++ '_' :: uuid.simple := by
  unfold generateDatabaseName at h
  cases hvalid : validatePrefix pfx with
  | error text => rw [hvalid] at h; cases h
  | ok _ =>
      rw [hvalid] at h
      change (if now.nanos < 0 then _ else _) = _ at h
      split at h
      · cases h
      · rename_i hclock
        cases hname : validateGeneratedName
            (pfx ++ Nat.toDigits 10 now.epochSecond ++ '_' :: uuid.simple) with
        | error text => rw [hname] at h; cases h
        | ok _ =>
            rw [hname] at h
            cases h
            exact ⟨rfl, hname, by omega, rfl⟩

theorem generated_of_generate (h : generateDatabaseName pfx now uuid = .ok name) :
    Generated pfx name now.epochSecond := by
  obtain ⟨hvalid, -, hclock, rfl⟩ := generateDatabaseName_ok h
  refine ⟨hvalid, ⟨_, uuid.simple, rfl, Nat.toDigits_ne_nil, toDigits_digits _,
    decimal_toDigits _, simple_length uuid, ?_, simple_simple uuid⟩, ?_⟩
  · rw [List.all_eq_true]
    intro c hc
    exact (mem_simple hc).1
  · have hbounded := now.bounded
    unfold lastSecond at hbounded
    unfold SystemTime.epochSecond
    omega

theorem isIdentifier_ascii {c : Char} (h : isIdentifier c = true) : c.val.toNat < 128 := by
  unfold isIdentifier isLower isDigit at h
  simp only [Bool.or_eq_true, Bool.and_eq_true, decide_eq_true_eq, beq_iff_eq] at h
  obtain (⟨-, hle⟩ | ⟨-, hle⟩) | rfl := h
  · change c.toNat ≤ 122 at hle
    change c.toNat < 128
    omega
  · change c.toNat ≤ 57 at hle
    change c.toNat < 128
    omega
  · decide

theorem bytes_length (h : name.all isIdentifier = true) :
    (Utf8.bytes name).length = name.length := by
  induction name with
  | nil => rfl
  | cons c cs ih =>
      rw [List.all_cons, Bool.and_eq_true] at h
      rw [Utf8.bytes_cons, List.length_append, ih h.2, Utf8.encode_ascii (isIdentifier_ascii h.1),
        List.length_singleton, List.length_cons, Nat.add_comm]

/-- A listed database that is not of the prefix of a call is passed by. -/
theorem Call.next_passes {call : Call} {names rest : List Name}
    (h : isStaleDatabaseName name call.pfx call.now call.maxAge = false) :
    (call.next names).phase ≠ .inspecting name rest := by
  intro hphase
  induction names with
  | nil => cases hphase
  | cons n names ih =>
      unfold Call.next at hphase
      split at hphase
      · rename_i hstale
        cases hphase
        rw [h] at hstale
        cases hstale
      · exact ih hphase

/-- A name of `pfx` for the second `epoch`, which no other prefix takes for its own. -/
structure Separate (pfx name : Name) (epoch : ℕ) : Prop where
  bytes : (Utf8.bytes name).length ≤ 63
  identifier : name.all isIdentifier = true
  listed : like (escapeLike pfx ++ ['%']) name = true
  epoch : parseDatabaseEpoch name pfx = some epoch
  others : ∀ q, q ≠ pfx → parseDatabaseEpoch name q = none
  passed : ∀ call : Call, call.pfx ≠ pfx → ∀ names rest,
    (call.next names).phase ≠ .inspecting name rest

theorem generated_separate (h : generateDatabaseName pfx now uuid = .ok name) :
    Separate pfx name now.epochSecond := by
  obtain ⟨-, hname, -, hform⟩ := generateDatabaseName_ok h
  obtain ⟨hlength, hidentifier⟩ := validateGeneratedName_ok hname
  have hgenerated := generated_of_generate h
  have hothers : ∀ q, q ≠ pfx → parseDatabaseEpoch name q = none := by
    intro q hq
    cases hparse : parseDatabaseEpoch name q with
    | none => rfl
    | some epoch => exact absurd (hgenerated.prefix_eq (parseDatabaseEpoch_eq_some.1 hparse)) hq
  constructor
  · rw [bytes_length hidentifier]
    exact hlength
  · exact hidentifier
  · rw [like_escapeLike]
    exact ⟨_, hform.trans (List.append_assoc ..), like_percent _⟩
  · exact parseDatabaseEpoch_eq_some.2 hgenerated
  · exact hothers
  · intro call hcall names rest
    apply Call.next_passes
    unfold isStaleDatabaseName
    rw [hothers call.pfx hcall]

/-- The name of the second 200 whose UUID is all zeros. -/
theorem generated_separate_nil : ∃ name,
    generateDatabaseName "cja_test_".toList ⟨200 * second, by decide⟩ ⟨fun _ => 0⟩ = .ok name ∧
      Separate "cja_test_".toList name 200 := by
  have hepoch : (⟨200 * second, by decide⟩ : SystemTime).epochSecond = 200 := by decide
  refine ⟨_, rfl, ?_⟩
  rw [← hepoch]
  exact @generated_separate _ _ _ ⟨fun _ => 0⟩ rfl

end Cja.Testing
