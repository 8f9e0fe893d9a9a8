import Cja.Assets.Builder
import Cja.Lib.Text
import Cja.Lib.Utf8
import Cja.Lib.While

/-!
# The scanner of Tailwind inputs

`directives` reads a CSS text byte by byte and records its `@import` and `@source`
rules. A position counts bytes of the text. An index out of bounds, and a slice
that does not start and end between two characters, is a `panic`; the lemmas here
say how far each part of the scanner moves.

`Vec<u8>` of the closers in a custom property value is a list with the last one
first. Which characters `{:?}` prints as they are is a parameter.
-/
namespace Cja.Tailwind
open Cja.Assets FileSystem

/-- How a scan stops without a result. -/
inductive Stop where
  | error (e : BuildError)
  | panic
deriving Repr, DecidableEq

abbrev Scan (α : Type) := Except Stop α

def error (message : String) : BuildError := .frontend message

def fail {α : Type} (message : String) : Scan α := .error (.error (error message))

structure Directives where
  imports : List String := []
  sources : List String := []
  tailwindImports : ℕ := 0
deriving Repr, DecidableEq

def allowedRules : List String :=
  ["import", "source", "media", "supports", "layer", "keyframes", "font-face", "theme", "utility",
    "variant", "custom-variant", "apply", "container", "property", "starting-style", "page",
    "charset"]

def excludedRules : List String := ["plugin", "config", "reference", "tailwind"]

/-! ## Bytes -/

def byteAt (bytes : Bytes) (pos : ℕ) : Scan UInt8 :=
  match bytes[pos]? with
  | some b => .ok b
  | none => .error .panic

/-- `bytes[pos..].starts_with(lit)` -/
def startsWith (bytes : Bytes) (pos : ℕ) (lit : String) : Scan Bool :=
  if pos ≤ bytes.length then .ok ((Utf8.bytes lit.toList).isPrefixOf (bytes.drop pos))
  else .error .panic

/-- `&css[start..stop]` -/
def slice (css : Text) (start stop : ℕ) : Scan Text :=
  match Utf8.slice css start stop with
  | some t => .ok t
  | none => .error .panic

def isAscii (b : UInt8) : Bool := b < 128

def isQuote (b : UInt8) : Bool := b == '\''.toUInt8 || b == '"'.toUInt8

def isDigit (b : UInt8) : Bool := '0'.toUInt8 ≤ b && b ≤ '9'.toUInt8

def isUpper (b : UInt8) : Bool := 'A'.toUInt8 ≤ b && b ≤ 'Z'.toUInt8

def isAlphabetic (b : UInt8) : Bool := isUpper b || ('a'.toUInt8 ≤ b && b ≤ 'z'.toUInt8)

def isNameByte (b : UInt8) : Bool := isAlphabetic b || b == '-'.toUInt8

def lower (b : UInt8) : UInt8 := if isUpper b then b + 32 else b

def eqIgnoreCase (a b : UInt8) : Bool := lower a == lower b

/-- A space, a tab, a newline, or a carriage return before a newline. -/
def isBlank (bytes : Bytes) (pos : ℕ) : Bool :=
  bytes[pos]? == some ' '.toUInt8 || bytes[pos]? == some '\t'.toUInt8 ||
    bytes[pos]? == some '\n'.toUInt8 ||
    (bytes[pos]? == some '\r'.toUInt8 && bytes[pos + 1]? == some '\n'.toUInt8)

/-! ## Texts of errors -/

def hexDigits (width n : ℕ) : String :=
  let digits := (Nat.toDigits 16 n).map Char.toUpper
  String.ofList (List.replicate (width - digits.length) '0' ++ digits)

def byteText (b : UInt8) : String := String.singleton (Char.ofNat b.toNat)

def lineNumber (css : Text) (pos : ℕ) : Scan ℕ := do
  let before ← slice css 0 pos
  pure (before.count '\n' + 1)

def readableByte : Option UInt8 → String
  | none => "<EOF>"
  | some b => if 32 ≤ b && b ≤ 126 then byteText b else "\\x" ++ hexDigits 2 b.toNat

def nonAscii (css : Text) (pos : ℕ) (file : Path) : Scan BuildError := do
  let token ←
    match Utf8.dropBytes css pos with
    | some (c :: _) => pure ("U+" ++ hexDigits 4 c.toNat)
    | _ => do
        let b ← byteAt (Utf8.bytes css) pos
        pure ("0x" ++ hexDigits 2 b.toNat)
  pure (error ("non-ASCII " ++ token ++ " outside CSS string/comment in " ++ Path.display file))

def failNonAscii {α : Type} (css : Text) (pos : ℕ) (file : Path) : Scan α := do
  let e ← nonAscii css pos file
  .error (.error e)

def debugChar (printable : Char → Bool) (c : Char) : List Char :=
  if c = '"' || c = '\\' then ['\\', c]
  else if c = '\n' then ['\\', 'n']
  else if c = '\r' then ['\\', 'r']
  else if c = '\t' then ['\\', 't']
  else if c = Char.ofNat 0 then ['\\', '0']
  else if printable c then [c]
  else "\\u\x7b".toList ++ Nat.toDigits 16 c.toNat ++ "\x7d".toList

/-- `{:?}` of a string. -/
def debugText (printable : Char → Bool) (text : Text) : String :=
  "\"" ++ String.ofList (text.flatMap (debugChar printable)) ++ "\""

/-! ## Comments, strings and escapes -/

def commentEnd (bytes : Bytes) (pos : ℕ) (file : Path) : Scan ℕ :=
  if _ : pos < bytes.length then
    if bytes[pos] == '\\'.toUInt8 then commentEnd bytes (min (pos + 2) bytes.length) file
    else if (Utf8.bytes "*/".toList).isPrefixOf (bytes.drop pos) then .ok (pos + 2)
    else commentEnd bytes (pos + 1) file
  else fail ("unterminated CSS comment in " ++ Path.display file)
termination_by bytes.length - pos

def skipComment (bytes : Bytes) (pos : ℕ) (file : Path) : Scan ℕ := commentEnd bytes (pos + 2) file

def stringEnd (bytes : Bytes) (quote : UInt8) (pos : ℕ) (file : Path) : Scan ℕ :=
  if _ : pos < bytes.length then
    if bytes[pos] == '\\'.toUInt8 then stringEnd bytes quote (pos + 2) file
    else if bytes[pos] == quote then .ok (pos + 1)
    else stringEnd bytes quote (pos + 1) file
  else fail ("unterminated CSS string in " ++ Path.display file)
termination_by bytes.length - pos

def skipString (bytes : Bytes) (pos : ℕ) (file : Path) : Scan ℕ := do
  let quote ← byteAt bytes pos
  stringEnd bytes quote (pos + 1) file

def skipEscape (css : Text) (pos : ℕ) (file : Path) : Scan ℕ :=
  let bytes := Utf8.bytes css
  if bytes[pos + 1]?.any fun b => !isAscii b then failNonAscii css (pos + 1) file
  else .ok (min (pos + 2) bytes.length)

variable {bytes : Bytes} {css : Text} {file : Path} {pos stop : ℕ}

theorem ok_bind {α β : Type} (a : α) (f : α → Scan β) : (Except.ok a : Scan α) >>= f = f a := rfl

theorem bind_ok {α β : Type} {x : Scan α} {f : α → Scan β} {b : β} (h : x >>= f = .ok b) :
    ∃ a, x = .ok a ∧ f a = .ok b := While.bind_ok h

theorem commentEnd_advances (h : commentEnd bytes pos file = .ok stop) : pos + 2 ≤ stop := by
  induction pos using commentEnd.induct bytes with
  | case1 pos hlt hb ih =>
      rw [commentEnd, dif_pos hlt, if_pos hb] at h
      have hle := ih h
      omega
  | case2 pos hlt hb hclose =>
      rw [commentEnd, dif_pos hlt, if_neg hb, if_pos hclose] at h
      cases h
      omega
  | case3 pos hlt hb hclose ih =>
      rw [commentEnd, dif_pos hlt, if_neg hb, if_neg hclose] at h
      have hle := ih h
      omega
  | case4 pos hlt =>
      rw [commentEnd, dif_neg hlt] at h
      cases h

theorem skipComment_advances (h : skipComment bytes pos file = .ok stop) : pos < stop := by
  have hle := commentEnd_advances h
  omega

theorem stringEnd_advances {quote : UInt8} (h : stringEnd bytes quote pos file = .ok stop) :
    pos < stop := by
  induction pos using stringEnd.induct bytes quote with
  | case1 pos hlt hb ih =>
      rw [stringEnd, dif_pos hlt, if_pos hb] at h
      have hle := ih h
      omega
  | case2 pos hlt hb hquote =>
      rw [stringEnd, dif_pos hlt, if_neg hb, if_pos hquote] at h
      cases h
      omega
  | case3 pos hlt hb hquote ih =>
      rw [stringEnd, dif_pos hlt, if_neg hb, if_neg hquote] at h
      have hle := ih h
      omega
  | case4 pos hlt =>
      rw [stringEnd, dif_neg hlt] at h
      cases h

theorem skipString_advances (h : skipString bytes pos file = .ok stop) : pos < stop := by
  obtain ⟨quote, -, h⟩ := bind_ok h
  have hlt := stringEnd_advances h
  omega

theorem skipEscape_ok (h : skipEscape css pos file = .ok stop) :
    stop = min (pos + 2) (Utf8.bytes css).length := by
  unfold skipEscape at h
  dsimp only at h
  split_ifs at h with hnext
  · obtain ⟨e, -, h⟩ := bind_ok h
    cases h
  · cases h
    rfl

theorem byteAt_ok {b : UInt8} (h : byteAt bytes pos = .ok b) : bytes[pos]? = some b := by
  unfold byteAt at h
  split at h
  · case _ c hc => cases h; exact hc
  · cases h

theorem lt_of_byteAt {b : UInt8} (h : byteAt bytes pos = .ok b) : pos < bytes.length :=
  (List.getElem?_eq_some_iff.mp (byteAt_ok h)).1

theorem startsWith_true {lit : String} (h : startsWith bytes pos lit = .ok true) :
    Utf8.bytes lit.toList <+: bytes.drop pos := by
  unfold startsWith at h
  split_ifs at h
  rw [Except.ok.injEq] at h
  exact List.isPrefixOf_iff_prefix.mp h

theorem lt_of_startsWith {lit : String} (hlit : Utf8.bytes lit.toList ≠ [])
    (h : startsWith bytes pos lit = .ok true) : pos < bytes.length := by
  have hpos := List.length_pos_iff.mpr hlit
  have hle := (startsWith_true h).length_le
  rw [List.length_drop] at hle
  omega

/-! ## `source(` -/

/-- `while bytes[cursor..].starts_with("/*")` -/
def commentsLoop (bytes : Bytes) (file : Path) : While.Loop ℕ Stop where
  cond cursor := startsWith bytes cursor "/*"
  body cursor := skipComment bytes cursor file
  measure cursor := bytes.length - cursor
  lowers cursor next hc hb := by
    have hlt := lt_of_startsWith (by decide) hc
    have hadvance := skipComment_advances hb
    omega

def sourceLetters (bytes : Bytes) (file : Path) : List UInt8 → ℕ → Scan Bool
  | [], _ => .ok true
  | letter :: letters, cursor => do
      let cursor ← (commentsLoop bytes file).run cursor
      if bytes[cursor]?.any fun b => eqIgnoreCase b letter then
        sourceLetters bytes file letters (cursor + 1)
      else pure false

def sourceCall : List UInt8 := Utf8.bytes "source(".toList

def sourceToken (bytes : Bytes) (pos : ℕ) (file : Path) : Scan Bool := do
  let b ← byteAt bytes pos
  if !eqIgnoreCase b 's'.toUInt8 then pure false else sourceLetters bytes file sourceCall pos

def rejectSourceToken (bytes : Bytes) (pos : ℕ) (file : Path) : Scan Unit := do
  if ← sourceToken bytes pos file then
    fail ("unsupported source( in " ++ Path.display file ++
      ": only the root Tailwind import may use source(none)")
  else pure ()

theorem rejectSourceToken_ok {u : Unit} (h : rejectSourceToken bytes pos file = .ok u) :
    sourceToken bytes pos file = .ok false := by
  obtain ⟨token, htoken, h⟩ := bind_ok h
  cases token with
  | true => cases h
  | false => exact htoken

def statementStep (bytes : Bytes) (stop : ℕ) (file : Path) (pos : ℕ) : Scan ℕ := do
  if ← startsWith bytes pos "/*" then skipComment bytes pos file
  else
    let b ← byteAt bytes pos
    if isQuote b then skipString bytes pos file
    else if b == '\\'.toUInt8 then pure (min (pos + 2) stop)
    else
      rejectSourceToken bytes pos file
      pure (pos + 1)

theorem statementStep_advances {next : ℕ} (hlt : pos < stop)
    (h : statementStep bytes stop file pos = .ok next) : pos < next := by
  obtain ⟨comment, -, h⟩ := bind_ok h
  split_ifs at h
  · exact skipComment_advances h
  · obtain ⟨b, -, h⟩ := bind_ok h
    split_ifs at h
    · exact skipString_advances h
    · cases h; omega
    · obtain ⟨u, -, h⟩ := bind_ok h
      cases h; omega

def rejectSourceInStatement (bytes : Bytes) (pos stop : ℕ) (file : Path) : Scan Unit := do
  let _ ← While.Loop.run (ε := Stop)
    { cond := fun pos => .ok (decide (pos < stop))
      body := statementStep bytes stop file
      measure := fun pos => stop - pos
      lowers := fun pos next hc hb => by
        rw [Except.ok.injEq, decide_eq_true_eq] at hc
        have hadvance := statementStep_advances hc hb
        omega } pos
  pure ()

/-! ## Arguments -/

/-- `trim_matches` with the five blanks of CSS. -/
def isTrimmed (c : Char) : Bool :=
  c = ' ' || c = '\t' || c = '\n' || c = '\r' || c = Char.ofNat 12

def asciiTrim (text : Text) : Text := (text.dropWhile isTrimmed).rdropWhile isTrimmed

def relative (path : Text) : Bool :=
  "./".toList.isPrefixOf path || "../".toList.isPrefixOf path

/-- `Path::extension`: of the last component, where it is a name. -/
def pathExtension (path : Text) : Option String :=
  match ((components (String.ofList path)).filter fun part => part ≠ "" && part ≠ ".").getLast? with
  | some name => if name = ".." then none else extension name
  | none => none

def relativeCss (path : Text) : Bool := relative path && pathExtension path == some "css"

def quotedOnly (text : Text) : Scan (Option Text) :=
  let bytes := Utf8.bytes text
  match bytes.head? with
  | none => .ok none
  | some first =>
      if !isQuote first || bytes.getLast? ≠ some first || bytes.length < 3 then .ok none
      else do
        let path ← slice text 1 (bytes.length - 1)
        if path.any fun c => "'\"\\\n\r".toList.contains c then pure none else pure (some path)

def rootImports : List Text :=
  ["\"tailwindcss\" source(none)".toList, "'tailwindcss' source(none)".toList]

def rejectNearMissRootImport (printable : Char → Bool) (argument : Text) (file : Path) : Scan Unit :=
  if "\"tailwindcss\"".toList.isPrefixOf argument || "'tailwindcss'".toList.isPrefixOf argument then
    fail ("unsupported @import " ++ debugText printable argument ++ " in " ++ Path.display file ++
      ": root import must be exactly @import \"tailwindcss\" source(none);")
  else .ok ()

def unsupportedSource (argument : Text) (file : Path) (reason : String) : String :=
  "unsupported @source " ++ String.ofList argument ++ " in " ++ Path.display file ++ ": " ++ reason

def noGlobs : String := "directory must start with ./ or ../ and contain no globs"

def sourcePath (argument : Text) (file : Path) : Scan Text :=
  if argument.any fun c => "*?[]\x7b\x7d,!()\\".toList.contains c then
    fail (unsupportedSource argument file noGlobs)
  else do
    match ← quotedOnly argument with
    | none => fail (unsupportedSource argument file "use a quoted positive directory")
    | some path =>
        if relative path then pure path else fail (unsupportedSource argument file noGlobs)

end Cja.Tailwind
