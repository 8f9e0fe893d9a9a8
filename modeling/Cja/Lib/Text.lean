import Mathlib

/-!
# Text

A text is the list of its characters, and these are functions that the standard library
has of it.
-/

abbrev Text := List Char

namespace Text

/-- `str::len` -/
def byteLength (text : Text) : ℕ := (text.map Char.utf8Size).sum

/-- `char::is_whitespace`: the code points with the property `White_Space`. -/
def isWhitespace (c : Char) : Bool :=
  let n := c.toNat
  (9 ≤ n && n ≤ 13) || n == 0x20 || n == 0x85 || n == 0xA0 || n == 0x1680 ||
    (0x2000 ≤ n && n ≤ 0x200A) || n == 0x2028 || n == 0x2029 || n == 0x202F || n == 0x205F ||
    n == 0x3000

/-- `str::trim` -/
def trim (text : Text) : Text := (text.dropWhile isWhitespace).rdropWhile isWhitespace

/-- `str::strip_prefix` -/
def stripPrefix (pfx text : Text) : Option Text :=
  if pfx.isPrefixOf text then some (text.drop pfx.length) else none

/-- `str::lines`: the end of a line is `\n` or `\r\n`. -/
def lines (text : Text) : List Text :=
  let all := text.splitOn '\n'
  let ended := all.dropLast.map fun line =>
    if line.getLast? = some '\r' then line.dropLast else line
  ended ++ all.getLast?.toList.filter (· ≠ [])

variable {pfx text suffix : Text}

theorem byteLength_eq_zero : byteLength text = 0 ↔ text = [] := by
  cases text with
  | nil => simp [byteLength]
  | cons c text =>
      have hpos := c.utf8Size_pos
      constructor
      · intro h
        simp only [byteLength, List.map_cons, List.sum_cons] at h
        omega
      · intro h
        cases h

theorem stripPrefix_eq_some : stripPrefix pfx text = some suffix ↔ text = pfx ++ suffix := by
  unfold stripPrefix
  constructor
  · intro h
    split at h
    · rename_i hpfx
      obtain ⟨rest, rfl⟩ := List.isPrefixOf_iff_prefix.1 hpfx
      simpa using h
    · cases h
  · rintro rfl
    simp

end Text
