import Cja.Lib.Text

/-!
# Names of test databases

A test database is named by its prefix, the second of its creation and a UUID in
its simple form. The reaper reads the second back and asks how old the name is;
`Generated` is the form it accepts.
-/
namespace Cja.Testing

/-- The characters of a name. -/
abbrev Name := List Char

def isLower (c : Char) : Bool := 'a'.toNat ≤ c.toNat && c.toNat ≤ 'z'.toNat

def isDigit (c : Char) : Bool := '0'.toNat ≤ c.toNat && c.toNat ≤ '9'.toNat

/-- `is_ascii_hexdigit` -/
def isHexDigit (c : Char) : Bool :=
  isDigit c || ('a'.toNat ≤ c.toNat && c.toNat ≤ 'f'.toNat) ||
    ('A'.toNat ≤ c.toNat && c.toNat ≤ 'F'.toNat)

def isIdentifier (c : Char) : Bool := isLower c || isDigit c || c == '_'

def validatePrefix (pfx : Name) : Except String Unit :=
  if pfx.isEmpty || pfx.getLast? != some '_' || !pfx.all isIdentifier then
    .error "test database prefix must be a nonempty lowercase ASCII identifier fragment ending in '_'"
  else if 63 < pfx.length + 43 then .error "test database prefix is too long for PostgreSQL"
  else .ok ()

/-- `split_once('_')` -/
def splitOnce : Name → Option (Name × Name)
  | [] => none
  | c :: cs => if c == '_' then some ([], cs) else (splitOnce cs).map fun r => (c :: r.1, r.2)

/-- The value of decimal digits. -/
def decimal (digits : Name) : ℕ :=
  digits.foldl (fun value c => value * 10 + (c.toNat - '0'.toNat)) 0

def parseU64 (digits : Name) : Option ℕ :=
  if decimal digits < 2 ^ 64 then some (decimal digits) else none

/-- What 32 hex digits print as once `Uuid::parse_str` has read them: lowercase. -/
def simple (uuid : Name) : Name := uuid.map Char.toLower

def parseDatabaseEpoch (name pfx : Name) : Option ℕ :=
  match validatePrefix pfx with
  | .error _ => none
  | .ok _ =>
      (Text.stripPrefix pfx name).bind fun suffix =>
        (splitOnce suffix).bind fun (epoch, uuid) =>
          if epoch.isEmpty || !epoch.all isDigit || uuid.length != 32 || !uuid.all isHexDigit ||
              simple uuid != uuid then none
          else parseU64 epoch

/-- Nanoseconds of a second. -/
def second : ℕ := 1000000000

/-- The last second that `SystemTime` holds. -/
def lastSecond : ℕ := 2 ^ 63 - 1

/-- Instants are nanoseconds since the Unix epoch. -/
def isStaleDatabaseName (name pfx : Name) (now : ℤ) (maxAge : ℕ) : Bool :=
  match parseDatabaseEpoch name pfx with
  | none => false
  | some epoch =>
      if lastSecond < epoch then false
      else
        let created : ℤ := epoch * second
        decide (created ≤ now) && decide ((maxAge : ℤ) ≤ now - created)

/-! ## The form of a generated name -/

/-- A name with the generated form for exactly this prefix, of this second. -/
structure Generated (pfx name : Name) (epoch : ℕ) : Prop where
  valid : validatePrefix pfx = .ok ()
  form : ∃ digits uuid, name = pfx ++ digits ++ '_' :: uuid ∧ digits ≠ [] ∧
    digits.all isDigit = true ∧ decimal digits = epoch ∧ uuid.length = 32 ∧
    uuid.all isHexDigit = true ∧ simple uuid = uuid
  bounded : epoch < 2 ^ 64

/-- A generated name of a second at least `maxAge` before `now`. -/
structure Stale (pfx name : Name) (now : ℤ) (maxAge : ℕ) : Prop where
  generated : ∃ epoch, Generated pfx name epoch ∧ (epoch : ℤ) * second + maxAge ≤ now

section

variable {pfx name suffix digits uuid : Name} {epoch maxAge : ℕ} {now : ℤ}

theorem splitOnce_eq_some : splitOnce name = some (digits, uuid) →
    name = digits ++ '_' :: uuid := by
  intro h
  induction name generalizing digits with
  | nil => cases h
  | cons c cs ih =>
      simp only [splitOnce] at h
      split at h
      · rename_i hc
        cases h
        rw [beq_iff_eq.1 hc]
        rfl
      · obtain ⟨r, hr, heq⟩ := Option.map_eq_some_iff.1 h
        cases heq
        rw [ih hr]
        rfl

/-- A part without underscores is split off whole. -/
theorem splitOnce_append (h : ∀ c ∈ digits, c ≠ '_') :
    splitOnce (digits ++ '_' :: uuid) = some (digits, uuid) := by
  induction digits with
  | nil => rfl
  | cons c cs ih =>
      have hc : (c == '_') = false := beq_eq_false_iff_ne.2 (h c (List.mem_cons_self ..))
      have hrest := ih fun c' hc' => h c' (List.mem_cons_of_mem c hc')
      simp [splitOnce, hc, hrest]

theorem isDigit_ne_underscore {c : Char} (h : isDigit c = true) : c ≠ '_' := by
  rintro rfl
  revert h
  decide

/-- The names whose second is read back are those of the generated form. -/
theorem parseDatabaseEpoch_eq_some :
    parseDatabaseEpoch name pfx = some epoch ↔ Generated pfx name epoch := by
  unfold parseDatabaseEpoch
  constructor
  · intro h
    split at h
    · cases h
    · rename_i hvalid
      obtain ⟨suffix, hsuffix, h⟩ := Option.bind_eq_some_iff.1 h
      obtain ⟨⟨digits, uuid⟩, hsplit, h⟩ := Option.bind_eq_some_iff.1 h
      dsimp only at h
      split at h
      · cases h
      · rename_i hform
        simp only [Bool.or_eq_true, not_or, Bool.not_eq_true, List.isEmpty_eq_false_iff,
          Bool.not_eq_false', bne_eq_false_iff_eq] at hform
        obtain ⟨⟨⟨⟨hne, hdigits⟩, hlength⟩, hhex⟩, hsimple⟩ := hform
        unfold parseU64 at h
        split at h
        · rename_i hbounded
          cases h
          refine ⟨hvalid, ⟨digits, uuid, ?_, hne, hdigits, rfl, hlength, hhex, hsimple⟩, hbounded⟩
          rw [Text.stripPrefix_eq_some.1 hsuffix, splitOnce_eq_some hsplit, List.append_assoc]
        · cases h
  · intro h
    obtain ⟨digits, uuid, rfl, hne, hdigits, hepoch, hlength, hhex, hsimple⟩ := h.form
    have hsuffix : Text.stripPrefix pfx (pfx ++ digits ++ '_' :: uuid) = some (digits ++ '_' :: uuid) :=
      Text.stripPrefix_eq_some.2 (List.append_assoc ..)
    have hsplit : splitOnce (digits ++ '_' :: uuid) = some (digits, uuid) :=
      splitOnce_append fun c hc => isDigit_ne_underscore (List.all_eq_true.1 hdigits c hc)
    have hpart : (digits.isEmpty || !digits.all isDigit || uuid.length != 32 ||
        !uuid.all isHexDigit || simple uuid != uuid) = false := by
      simp only [List.isEmpty_eq_false_iff.2 hne, hdigits, hlength, hhex, hsimple, bne_self_eq_false,
        Bool.not_true, Bool.or_self]
    have hread : parseU64 digits = some epoch := by
      rw [parseU64, hepoch, if_pos h.bounded]
    rw [h.valid]
    dsimp only
    rw [hsuffix, Option.bind_some, hsplit, Option.bind_some]
    dsimp only
    rw [if_neg (by rw [hpart]; exact Bool.false_ne_true), hread]

theorem stale_of_isStaleDatabaseName (h : isStaleDatabaseName name pfx now maxAge = true) :
    Stale pfx name now maxAge := by
  unfold isStaleDatabaseName at h
  split at h
  · cases h
  · rename_i epoch hepoch
    split at h
    · cases h
    · rw [Bool.and_eq_true, decide_eq_true_eq, decide_eq_true_eq] at h
      exact ⟨epoch, parseDatabaseEpoch_eq_some.1 hepoch, by omega⟩

end

end Cja.Testing
