import Cja.Assets.Directives

/-!
# The visible text

A CSS text is a sequence of comments, strings and escapes, delimited as the scanner
delimits them, and of visible bytes. What is said here about at-rules, calls of
`source`, custom property values and brackets is said about this sequence alone.
-/
namespace Cja.Tailwind
open Cja.Assets FileSystem

inductive Piece where
  | comment (text : Bytes)
  | string (text : Bytes)
  | escape (text : Bytes)
  | visible (b : UInt8)
deriving Repr, DecidableEq

def Piece.text : Piece → Bytes
  | .comment text | .string text | .escape text => text
  | .visible b => [b]

def Piece.isComment : Piece → Bool
  | .comment _ => true
  | _ => false

def between (bytes : Bytes) (start stop : ℕ) : Bytes := (bytes.drop start).take (stop - start)

/-- The piece at a position, and where it ends. -/
def pieceAt (css : Text) (file : Path) (pos : ℕ) : Scan (Piece × ℕ) := do
  let bytes := Utf8.bytes css
  if ← startsWith bytes pos "/*" then
    let stop ← skipComment bytes pos file
    pure (.comment (between bytes pos stop), stop)
  else
    let b ← byteAt bytes pos
    if isQuote b then
      let stop ← skipString bytes pos file
      pure (.string (between bytes pos stop), stop)
    else if b == '\\'.toUInt8 then
      let stop ← skipEscape css pos file
      pure (.escape (between bytes pos stop), stop)
    else pure (.visible b, pos + 1)

variable {css : Text} {file : Path} {pos stop : ℕ} {p : Piece} {ps : List Piece}

theorem pieceAt_advances (h : pieceAt css file pos = .ok (p, stop)) :
    pos < (Utf8.bytes css).length ∧ pos < stop := by
  unfold pieceAt at h
  dsimp only at h
  replace h := bind_ok h
  obtain ⟨comment, hcomment, h⟩ := h
  split at h
  · case _ hc =>
    subst hc
    replace h := bind_ok h
    obtain ⟨stop, hstop, h⟩ := h
    cases h
    exact ⟨lt_of_startsWith (by decide) hcomment, skipComment_advances hstop⟩
  · replace h := bind_ok h
    obtain ⟨b, hb, h⟩ := h
    have hlt := lt_of_byteAt hb
    split at h
    · replace h := bind_ok h
      obtain ⟨stop, hstop, h⟩ := h
      cases h
      exact ⟨hlt, skipString_advances hstop⟩
    · split at h
      · replace h := bind_ok h
        obtain ⟨stop, hstop, h⟩ := h
        cases h
        have hmin := skipEscape_ok hstop
        exact ⟨hlt, by omega⟩
      · cases h
        exact ⟨hlt, Nat.lt_succ_self _⟩

/-- The pieces from a position to the end of the text. -/
def pieces (css : Text) (file : Path) (pos : ℕ) : Scan (List Piece) :=
  if pos < (Utf8.bytes css).length then
    match _ : pieceAt css file pos with
    | .error e => .error e
    | .ok (p, next) => (pieces css file next).map (p :: ·)
  else .ok []
termination_by (Utf8.bytes css).length - pos
decreasing_by
  have hadvance := pieceAt_advances ‹_›
  omega

theorem pieces_end (h : (Utf8.bytes css).length ≤ pos) : pieces css file pos = .ok [] := by
  rw [pieces, if_neg (by omega)]

theorem pieces_cons (h : pieceAt css file pos = .ok (p, stop))
    (hps : pieces css file stop = .ok ps) : pieces css file pos = .ok (p :: ps) := by
  rw [pieces, if_pos (pieceAt_advances h).1]
  split
  · case _ e he => rw [h] at he; cases he
  · case _ q stop hq =>
    rw [h] at hq
    cases hq
    rw [hps]
    rfl

theorem pieces_uncons (h : pieces css file pos = .ok (p :: ps)) :
    ∃ stop, pieceAt css file pos = .ok (p, stop) ∧ pieces css file stop = .ok ps := by
  rw [pieces] at h
  split at h
  · split at h
    · cases h
    · case _ q stop hq =>
      cases hrest : pieces css file stop with
      | error e => rw [hrest] at h; cases h
      | ok rest =>
          rw [hrest] at h
          cases h
          exact ⟨stop, hq, hrest⟩
  · cases h

/-! ## Where a piece stands -/

/-- The open parentheses, whether the statement has begun, and the closers that a
custom property value waits for. -/
structure Place where
  parens : ℕ
  content : Bool
  custom : Option (List UInt8)
deriving Repr, DecidableEq

def Place.start : Place := ⟨0, false, none⟩

/-- A blank byte, before the pieces `rest`: a carriage return only before a newline. -/
def isBlankPiece (b : UInt8) (rest : List Piece) : Bool :=
  b == ' '.toUInt8 || b == '\t'.toUInt8 || b == '\n'.toUInt8 ||
    (b == '\r'.toUInt8 && rest.head? == some (.visible '\n'.toUInt8))

/-- Within a custom property value: brackets nest, and the value ends at a
semicolon or a closing brace outside them. -/
def Place.inCustom (m : Place) (closers : List UInt8) (b : UInt8) : Place :=
  match closerOf b with
  | some closer => { m with custom := some (closer :: closers) }
  | none =>
      match closers with
      | closer :: rest => if closer == b then { m with custom := some rest } else m
      | [] =>
          if b == ';'.toUInt8 || b == '\x7d'.toUInt8 then { m with content := false, custom := none }
          else m

/-- Outside: two dashes at the start of a statement open a custom property, braces
and semicolons end statements, a semicolon inside parentheses does not. -/
def Place.outsideCustom (m : Place) (b : UInt8) (rest : List Piece) : Place :=
  if !m.content && b == '-'.toUInt8 && rest.head? == some (.visible '-'.toUInt8) then
    { m with content := true, custom := some [] }
  else if b == '('.toUInt8 then { m with parens := m.parens + 1, content := true }
  else if b == ')'.toUInt8 then { m with parens := m.parens - 1, content := true }
  else if isBrace b then { m with content := false }
  else if b == ';'.toUInt8 && m.parens = 0 then { m with content := false }
  else if isBlankPiece b rest then m
  else { m with content := true }

/-- The place behind a piece, with `rest` ahead. -/
def Place.next (m : Place) (p : Piece) (rest : List Piece) : Place :=
  match p with
  | .comment _ => m
  | .string _ | .escape _ => { m with content := true }
  | .visible b =>
      match m.custom with
      | some closers => m.inCustom closers b
      | none => m.outsideCustom b rest

/-- The place behind some pieces, with `rest` ahead. -/
def Place.after (m : Place) : List Piece → List Piece → Place
  | [], _ => m
  | p :: ps, rest => (m.next p (ps ++ rest)).after ps rest

/-- `C` holds of every piece, the place it stands at and the pieces after it. -/
def Everywhere (C : Place → Piece → List Piece → Prop) (m : Place) (ps : List Piece) : Prop :=
  ∀ before p after, ps = before ++ p :: after → C (m.after before (p :: after)) p after

theorem everywhere_nil (C : Place → Piece → List Piece → Prop) (m : Place) : Everywhere C m [] := by
  intro before p after h
  cases before <;> cases h

theorem everywhere_cons {C : Place → Piece → List Piece → Prop} {m : Place} (hp : C m p ps)
    (hps : Everywhere C (m.next p ps) ps) : Everywhere C m (p :: ps) := by
  intro before q after h
  cases before with
  | nil =>
      cases h
      exact hp
  | cons r before =>
      cases h
      exact hps before q after rfl

/-! ## At-rules -/

def visibles (bytes : Bytes) : List Piece := bytes.map .visible

def nameBytes : List Piece → Bytes
  | .visible b :: ps => if isNameByte b then b :: nameBytes ps else []
  | _ => []

/-- The text before the first visible semicolon. -/
def argumentBytes : List Piece → Bytes
  | [] => []
  | p :: ps => if p = .visible ';'.toUInt8 then [] else p.text ++ argumentBytes ps

def isBlankByte (b : UInt8) : Bool :=
  b == ' '.toUInt8 || b == '\t'.toUInt8 || b == '\n'.toUInt8 || b == '\r'.toUInt8 || b == 12

def trimBytes (bytes : Bytes) : Bytes := (bytes.dropWhile isBlankByte).rdropWhile isBlankByte

structure AtRule where
  name : Bytes
  argument : Bytes
deriving Repr, DecidableEq

/-- The rules of all visible `@`, each with the trimmed text before its semicolon. -/
def atRules : List Piece → List AtRule
  | [] => []
  | p :: ps =>
      if p = .visible '@'.toUInt8 then
        ⟨nameBytes ps, trimBytes (argumentBytes (ps.drop (nameBytes ps).length))⟩ :: atRules ps
      else atRules ps

/-- The rules that name other files. -/
def AtRule.isGraph (r : AtRule) : Bool :=
  r.name == Utf8.bytes "import".toList || r.name == Utf8.bytes "source".toList

/-- A name ends where no comment, letter, hyphen, digit or underscore follows. -/
def Piece.continuesName : Piece → Bool
  | .comment _ => true
  | .visible b => isNameByte b || isDigit b || b == '_'.toUInt8
  | _ => false

/-- A visible `@` stands outside custom property values and has an allowed name; an
`@import` and an `@source` start a statement. -/
def AtSign (m : Place) (p : Piece) (after : List Piece) : Prop :=
  p = .visible '@'.toUInt8 → m.custom = none ∧
    ∃ name ∈ allowedRules, ∃ rest, after = visibles (Utf8.bytes name.toList) ++ rest ∧
      (∀ q ∈ rest.head?, q.continuesName = false) ∧
      ((name = "import" ∨ name = "source") → m.content = false)

/-- What an `@import` or an `@source` says. -/
inductive Edge where
  | root (quote : UInt8)
  | import (quote : UInt8) (path : String)
  | source (quote : UInt8) (path : String)
deriving Repr, DecidableEq

def Edge.quote : Edge → UInt8
  | .root quote | .import quote _ | .source quote _ => quote

def quoted (quote : UInt8) (path : String) : Bytes :=
  quote :: (Utf8.bytes path.toList ++ [quote])

/-- The rule that says it. -/
def Edge.rule : Edge → AtRule
  | .root quote =>
      ⟨Utf8.bytes "import".toList, quoted quote "tailwindcss" ++ Utf8.bytes " source(none)".toList⟩
  | .import quote path => ⟨Utf8.bytes "import".toList, quoted quote path⟩
  | .source quote path => ⟨Utf8.bytes "source".toList, quoted quote path⟩

/-- What it adds to a result. -/
def Directives.add (d : Directives) : Edge → Directives
  | .root _ => { d with tailwindImports := d.tailwindImports + 1 }
  | .import _ path => { d with imports := d.imports ++ [path] }
  | .source _ path => { d with sources := d.sources ++ [path] }

/-! ## Calls of `source` -/

/-- The pieces with the comments elided. -/
def elide (ps : List Piece) : List Piece := ps.filter fun p => !p.isComment

/-- The pieces start with `source(`, in any case. -/
def CallsSource (ps : List Piece) : Prop :=
  ∃ call rest, ps = visibles call ++ rest ∧ call.map lower = sourceCall

/-- The pieces `before` and `after` are cut at the `source(` of a root import. -/
def InRootImport (before after : List Piece) : Prop :=
  ∃ left quote blanks blanks' right, isQuote quote = true ∧
    (∀ b ∈ blanks, isBlankByte b = true) ∧ (∀ b ∈ blanks', isBlankByte b = true) ∧
    before = left ++ visibles ('@'.toUInt8 :: Utf8.bytes "import".toList ++ blanks) ++
      [.string (quoted quote "tailwindcss"), .visible ' '.toUInt8] ∧
    after = visibles (Utf8.bytes "source(none)".toList ++ blanks' ++ [';'.toUInt8]) ++ right

/-! ## Brackets -/

def isBracket (b : UInt8) : Bool := b == '('.toUInt8 || b == ')'.toUInt8 || isBrace b

/-- A byte outside custom property values; the brace that ends a value is outside. -/
def Place.outside (m : Place) (b : UInt8) : Bool :=
  m.custom == none || (m.custom == some [] && b == '\x7d'.toUInt8)

def Place.bracket (m : Place) : Piece → Bytes
  | .visible b => if isBracket b && m.outside b then [b] else []
  | _ => []

/-- The visible parentheses and braces outside custom property values. -/
def brackets (m : Place) : List Piece → Bytes
  | [] => []
  | p :: ps => m.bracket p ++ brackets (m.next p ps) ps

/-- Parentheses and braces are balanced and no brace stands inside parentheses. -/
structure Balanced (w : Bytes) : Prop where
  parens : w.count '('.toUInt8 = w.count ')'.toUInt8
  braces : w.count '\x7b'.toUInt8 = w.count '\x7d'.toUInt8
  parensOpen : ∀ before, before <+: w → before.count ')'.toUInt8 ≤ before.count '('.toUInt8
  bracesOpen : ∀ before, before <+: w → before.count '\x7d'.toUInt8 ≤ before.count '\x7b'.toUInt8
  apart : ∀ before b after, w = before ++ b :: after → isBrace b = true →
    before.count '('.toUInt8 = before.count ')'.toUInt8

end Cja.Tailwind
