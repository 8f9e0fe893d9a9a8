import Cja.Assets.Tailwind

/-!
# `directives`

One pass of the scan reads a comment, a string, an escape, a byte, or a whole
`@import` or `@source`. `Passed` lists what a pass can do, one constructor for each
outcome; a proof about the scan is a case analysis over these constructors.
-/
namespace Cja.Tailwind
open Cja.Assets FileSystem

variable {bytes : Bytes} {css : Text} {file : Path} {pos stop : ℕ}

/-! ## The scan -/

structure Scanner where
  pos : ℕ
  depth : ℕ := 0
  parenDepth : ℕ := 0
  statementHasContent : Bool := false
  customClosers : Option (List UInt8) := none
  result : Directives := {}
deriving Repr, DecidableEq

def closerOf (b : UInt8) : Option UInt8 :=
  if b == '('.toUInt8 then some ')'.toUInt8
  else if b == '['.toUInt8 then some ']'.toUInt8
  else if b == '\x7b'.toUInt8 then some '\x7d'.toUInt8
  else none

def isBrace (b : UInt8) : Bool := b == '\x7b'.toUInt8 || b == '\x7d'.toUInt8

def isCloser (b : UInt8) : Bool := b == ')'.toUInt8 || b == ']'.toUInt8 || b == '\x7d'.toUInt8

def place (css : Text) (pos : ℕ) (file : Path) : Scan String := do
  let line ← lineNumber css pos
  pure (Path.display file ++ ":" ++ toString line)

/-- A byte of a custom property value. -/
def customByte (css : Text) (file : Path) (s : Scanner) (closers : List UInt8) (b : UInt8) :
    Scan Scanner := do
  if b == '@'.toUInt8 then
    fail ("at-rule inside custom property value in " ++ (← place css s.pos file) ++ ": @")
  else match closerOf b with
  | some closer => pure { s with pos := s.pos + 1, customClosers := some (closer :: closers) }
  | none =>
      if isCloser b then
        match closers with
        | closer :: rest =>
            if closer == b then pure { s with pos := s.pos + 1, customClosers := some rest }
            else
              fail ("mismatched " ++ byteText b ++ " inside custom property value in " ++
                (← place css s.pos file))
        | [] =>
            -- a closing brace ends the value and is read again outside it
            if b == '\x7d'.toUInt8 then pure { s with customClosers := none }
            else pure { s with pos := s.pos + 1 }
      else if b == ';'.toUInt8 && closers.isEmpty then
        pure { s with pos := s.pos + 1, customClosers := none, statementHasContent := false }
      else pure { s with pos := s.pos + 1 }

def argumentStep (css : Text) (file : Path) (name : String) (cursor : ℕ) : Scan ℕ := do
  let bytes := Utf8.bytes css
  if ← startsWith bytes cursor "/*" then skipComment bytes cursor file
  else
    let b ← byteAt bytes cursor
    if isQuote b then skipString bytes cursor file
    else if b == '\\'.toUInt8 then skipEscape css cursor file
    else if !isAscii b then failNonAscii css cursor file
    else if isBrace b then
      fail ("unsupported " ++ byteText b ++ " in @" ++ name ++ " in " ++ Path.display file ++
        ": expected semicolon before brace")
    else pure (cursor + 1)

theorem argumentStep_advances {name : String} {cursor next : ℕ}
    (h : argumentStep css file name cursor = .ok next) : cursor < next := by
  obtain ⟨comment, -, h⟩ := bind_ok h
  split_ifs at h
  · exact skipComment_advances h
  · obtain ⟨b, hb, h⟩ := bind_ok h
    have hlt := lt_of_byteAt hb
    split_ifs at h
    · exact skipString_advances h
    · have hnext := skipEscape_ok h
      omega
    · obtain ⟨e, -, h⟩ := bind_ok h
      cases h
    · cases h
    · cases h
      omega

/-- `while cursor < bytes.len() && bytes[cursor] != b';'` -/
def argumentLoop (css : Text) (file : Path) (name : String) : While.Loop ℕ Stop where
  cond cursor := .ok ((Utf8.bytes css)[cursor]?.any fun b => b != ';'.toUInt8)
  body cursor := argumentStep css file name cursor
  measure cursor := (Utf8.bytes css).length - cursor
  lowers cursor next hc hb := by
    have hadvance := argumentStep_advances hb
    have hlt : cursor < (Utf8.bytes css).length := by
      rw [Except.ok.injEq, Option.any_eq_true] at hc
      obtain ⟨b, hb, -⟩ := hc
      exact (List.getElem?_eq_some_iff.mp hb).1
    omega

/-- What an `@import` adds to the result. -/
def recordImport (printable : Char → Bool) (css : Text) (file : Path) (s : Scanner)
    (stop cursor : ℕ) (argument : Text) : Scan Directives := do
  if rootImports.contains argument then
    if s.depth ≠ 0 || s.parenDepth ≠ 0 then
      fail ("@import \"tailwindcss\" source(none) must be at depth 0 in " ++ Path.display file)
    else pure { s.result with tailwindImports := s.result.tailwindImports + 1 }
  else
    rejectNearMissRootImport printable argument file
    rejectSourceInStatement (Utf8.bytes css) stop cursor file
    match ← quotedOnly argument with
    | none =>
        fail ("unsupported @import " ++ debugText printable argument ++ " in " ++
          Path.display file ++ ": use a local quoted .css path")
    | some path =>
        if relativeCss path then
          pure { s.result with imports := s.result.imports ++ [String.ofList path] }
        else
          fail ("unsupported @import " ++ debugText printable argument ++ " in " ++
            Path.display file ++ ": use ./ or ../ and a .css file without qualifiers")

/-- What an `@source` adds to the result. -/
def recordSource (css : Text) (file : Path) (s : Scanner) (stop cursor : ℕ) (argument : Text) :
    Scan Directives := do
  rejectSourceInStatement (Utf8.bytes css) stop cursor file
  if s.depth ≠ 0 then fail ("@source must be at depth 0 in " ++ Path.display file)
  else
    let path ← sourcePath argument file
    pure { s.result with sources := s.result.sources ++ [String.ofList path] }

def record (printable : Char → Bool) (css : Text) (file : Path) (s : Scanner) (name : String)
    (stop cursor : ℕ) (argument : Text) : Scan Directives :=
  if name = "import" then recordImport printable css file s stop cursor argument
  else recordSource css file s stop cursor argument

def sameIgnoringCase (a b : String) : Bool :=
  (Utf8.bytes a.toList).map lower == (Utf8.bytes b.toList).map lower

def checkRuleCase (name : String) (file : Path) : Scan Unit :=
  if (allowedRules ++ excludedRules).any fun known => sameIgnoringCase name known && name ≠ known then
    fail ("at-rule names must be lowercase in " ++ Path.display file ++ ": Tailwind ignores @" ++ name)
  else .ok ()

/-- The end of a rule name that starts at `start`. -/
def nameEnd (bytes : Bytes) (start : ℕ) : ℕ :=
  start + ((bytes.drop start).takeWhile isNameByte).length

/-- The name of the at-rule at `pos` and where it ends. -/
def ruleName (css : Text) (pos : ℕ) (file : Path) : Scan (String × ℕ) := do
  let bytes := Utf8.bytes css
  let start := pos + 1
  let stop := nameEnd bytes start
  if ← startsWith bytes stop "/*" then
    fail ("comment inside or directly after an at-rule name is unsupported in " ++
      Path.display file ++ ": @" ++ String.ofList (← slice css start stop) ++ "/*")
  else if bytes[start]?.any fun b => !isAscii b then failNonAscii css start file
  else
    let name := String.ofList (← slice css start stop)
    checkRuleCase name file
    if name = "" || bytes[stop]?.any fun b => isDigit b || b == '_'.toUInt8 then
      fail ("malformed at-rule @" ++ ((Utf8.slice css start (stop + 1)).map String.ofList).getD name ++
        " in " ++ Path.display file ++ ": expected ASCII letters or hyphens")
    else if !allowedRules.contains name then
      fail ("unsupported @" ++ name ++ " in " ++ Path.display file ++
        ": at-rule is not in cja-build's Tailwind allow-list")
    else pure (name, stop)

/-- An `@import` or an `@source`, through its semicolon. -/
def graphRule (printable : Char → Bool) (css : Text) (file : Path) (s : Scanner) (name : String)
    (stop : ℕ) : Scan Scanner := do
  let bytes := Utf8.bytes css
  if s.statementHasContent then
    fail ("@" ++ name ++ " must start a statement in " ++ (← place css s.pos file) ++
      " (missing ; before it?)")
  else if !isBlank bytes stop then
    fail ("@" ++ name ++ " must be followed by a space, tab or newline in " ++
      (← place css s.pos file) ++ ": @" ++ name ++ readableByte bytes[stop]?)
  else
    let cursor ← (argumentLoop css file name).run stop
    if cursor = bytes.length then
      fail ("unterminated @" ++ name ++ " in " ++ Path.display file)
    else
      let argument := asciiTrim (← slice css stop cursor)
      let result ← record printable css file s name stop cursor argument
      pure { s with pos := cursor + 1, statementHasContent := false, result := result }

def atRule (printable : Char → Bool) (css : Text) (file : Path) (s : Scanner) : Scan Scanner := do
  let (name, stop) ← ruleName css s.pos file
  if name = "import" || name = "source" then graphRule printable css file s name stop
  else pure { s with pos := stop, statementHasContent := true }

/-- A byte outside a custom property value. -/
def plainByte (printable : Char → Bool) (css : Text) (file : Path) (s : Scanner) (b : UInt8) :
    Scan Scanner := do
  let bytes := Utf8.bytes css
  if !s.statementHasContent && (← startsWith bytes s.pos "--") then
    pure { s with pos := s.pos + 2, customClosers := some [], statementHasContent := true }
  else if b == '('.toUInt8 then
    pure { s with pos := s.pos + 1, parenDepth := s.parenDepth + 1, statementHasContent := true }
  else if b == ')'.toUInt8 then
    if s.parenDepth = 0 then fail ("unmatched ) in " ++ Path.display file)
    else
      pure { s with pos := s.pos + 1, parenDepth := s.parenDepth - 1, statementHasContent := true }
  else if s.parenDepth ≠ 0 && isBrace b then
    fail ("unsupported " ++ byteText b ++ " inside parentheses in " ++ Path.display file)
  else if b == '\x7b'.toUInt8 then
    pure { s with pos := s.pos + 1, depth := s.depth + 1, statementHasContent := false }
  else if b == '\x7d'.toUInt8 then
    if s.depth = 0 then fail ("unmatched \x7d in " ++ Path.display file)
    else pure { s with pos := s.pos + 1, depth := s.depth - 1, statementHasContent := false }
  else if b == '@'.toUInt8 then atRule printable css file s
  else if b == ';'.toUInt8 && s.parenDepth = 0 then
    pure { s with pos := s.pos + 1, statementHasContent := false }
  else if isBlank bytes s.pos then pure { s with pos := s.pos + 1 }
  else pure { s with pos := s.pos + 1, statementHasContent := true }

/-- One pass of the scan. -/
def step (printable : Char → Bool) (css : Text) (file : Path) (s : Scanner) : Scan Scanner := do
  let bytes := Utf8.bytes css
  if ← startsWith bytes s.pos "/*" then
    let pos ← skipComment bytes s.pos file
    pure { s with pos := pos }
  else
    let b ← byteAt bytes s.pos
    if isQuote b then
      let pos ← skipString bytes s.pos file
      pure { s with pos := pos, statementHasContent := true }
    else if b == '\\'.toUInt8 then
      let pos ← skipEscape css s.pos file
      pure { s with pos := pos, statementHasContent := true }
    else if !isAscii b then failNonAscii css s.pos file
    else
      rejectSourceToken bytes s.pos file
      match s.customClosers with
      | some closers => customByte css file s closers b
      | none => plainByte printable css file s b

/-! ## What one pass can do -/

/-- The byte at a position is outside comments, strings and escapes, and no call of
`source` starts there. -/
structure Visible (css : Text) (file : Path) (pos : ℕ) (b : UInt8) : Prop where
  comment : startsWith (Utf8.bytes css) pos "/*" = .ok false
  byte : (Utf8.bytes css)[pos]? = some b
  quote : isQuote b = false
  escape : (b == '\\'.toUInt8) = false
  ascii : isAscii b = true
  source : sourceToken (Utf8.bytes css) pos file = .ok false

/-- A pass over an `@import` or an `@source`. -/
structure Recorded (printable : Char → Bool) (css : Text) (file : Path) (s s' : Scanner)
    (name : String) (stop cursor : ℕ) (text : Text) (result : Directives) : Prop where
  rule : ruleName css s.pos file = .ok (name, stop)
  graph : name = "import" ∨ name = "source"
  starts : s.statementHasContent = false
  blank : isBlank (Utf8.bytes css) stop = true
  scanned : (argumentLoop css file name).run stop = .ok cursor
  terminated : cursor ≠ (Utf8.bytes css).length
  sliced : slice css stop cursor = .ok text
  recorded : record printable css file s name stop cursor (asciiTrim text) = .ok result
  next : s' = { s with pos := cursor + 1, statementHasContent := false, result := result }

inductive Passed (printable : Char → Bool) (css : Text) (file : Path) (s : Scanner) :
    Scanner → Prop
  | comment {pos : ℕ} (h : startsWith (Utf8.bytes css) s.pos "/*" = .ok true)
      (hskip : skipComment (Utf8.bytes css) s.pos file = .ok pos) :
      Passed printable css file s { s with pos := pos }
  | string {pos : ℕ} {b : UInt8} (h : startsWith (Utf8.bytes css) s.pos "/*" = .ok false)
      (hb : (Utf8.bytes css)[s.pos]? = some b) (hq : isQuote b = true)
      (hskip : skipString (Utf8.bytes css) s.pos file = .ok pos) :
      Passed printable css file s { s with pos := pos, statementHasContent := true }
  | escape {pos : ℕ} (h : startsWith (Utf8.bytes css) s.pos "/*" = .ok false)
      (hb : (Utf8.bytes css)[s.pos]? = some '\\'.toUInt8)
      (hskip : skipEscape css s.pos file = .ok pos) :
      Passed printable css file s { s with pos := pos, statementHasContent := true }
  /-- In a custom property value: an opening bracket. -/
  | opens {b closer : UInt8} {closers : List UInt8} (hv : Visible css file s.pos b)
      (hc : s.customClosers = some closers) (hcloser : closerOf b = some closer) :
      Passed printable css file s
        { s with pos := s.pos + 1, customClosers := some (closer :: closers) }
  | closes {b : UInt8} {closers : List UInt8} (hv : Visible css file s.pos b)
      (hc : s.customClosers = some (b :: closers)) (hcloser : closerOf b = none)
      (hb : isCloser b = true) :
      Passed printable css file s { s with pos := s.pos + 1, customClosers := some closers }
  /-- The brace after the value is read again outside it. -/
  | leaves (hv : Visible css file s.pos '\x7d'.toUInt8) (hc : s.customClosers = some []) :
      Passed printable css file s { s with customClosers := none }
  | ends (hv : Visible css file s.pos ';'.toUInt8) (hc : s.customClosers = some []) :
      Passed printable css file s
        { s with pos := s.pos + 1, customClosers := none, statementHasContent := false }
  | inside {b : UInt8} {closers : List UInt8} (hv : Visible css file s.pos b)
      (hc : s.customClosers = some closers) (hat : b ≠ '@'.toUInt8) (hcloser : closerOf b = none)
      (hb : isCloser b = true → closers = [] ∧ b ≠ '\x7d'.toUInt8)
      (hend : b = ';'.toUInt8 → closers ≠ []) :
      Passed printable css file s { s with pos := s.pos + 1 }
  /-- Outside: a custom property. -/
  | dashes {b : UInt8} (hv : Visible css file s.pos b) (hc : s.customClosers = none)
      (hs : s.statementHasContent = false)
      (h : startsWith (Utf8.bytes css) s.pos "--" = .ok true) :
      Passed printable css file s
        { s with pos := s.pos + 2, customClosers := some [], statementHasContent := true }
  | parenOpens (hv : Visible css file s.pos '('.toUInt8) (hc : s.customClosers = none) :
      Passed printable css file s
        { s with pos := s.pos + 1, parenDepth := s.parenDepth + 1, statementHasContent := true }
  | parenCloses (hv : Visible css file s.pos ')'.toUInt8) (hc : s.customClosers = none)
      (hp : s.parenDepth ≠ 0) :
      Passed printable css file s
        { s with pos := s.pos + 1, parenDepth := s.parenDepth - 1, statementHasContent := true }
  | braceOpens (hv : Visible css file s.pos '\x7b'.toUInt8) (hc : s.customClosers = none)
      (hp : s.parenDepth = 0) :
      Passed printable css file s
        { s with pos := s.pos + 1, depth := s.depth + 1, statementHasContent := false }
  | braceCloses (hv : Visible css file s.pos '\x7d'.toUInt8) (hc : s.customClosers = none)
      (hp : s.parenDepth = 0) (hd : s.depth ≠ 0) :
      Passed printable css file s
        { s with pos := s.pos + 1, depth := s.depth - 1, statementHasContent := false }
  | rule {name : String} {stop : ℕ} (hv : Visible css file s.pos '@'.toUInt8)
      (hc : s.customClosers = none) (hname : ruleName css s.pos file = .ok (name, stop))
      (hgraph : name ≠ "import" ∧ name ≠ "source") :
      Passed printable css file s { s with pos := stop, statementHasContent := true }
  | graph {s' : Scanner} {name : String} {stop cursor : ℕ} {text : Text} {result : Directives}
      (hv : Visible css file s.pos '@'.toUInt8) (hc : s.customClosers = none)
      (h : Recorded printable css file s s' name stop cursor text result) :
      Passed printable css file s s'
  | terminates (hv : Visible css file s.pos ';'.toUInt8) (hc : s.customClosers = none)
      (hp : s.parenDepth = 0) :
      Passed printable css file s { s with pos := s.pos + 1, statementHasContent := false }
  | blank {b : UInt8} (hv : Visible css file s.pos b) (hc : s.customClosers = none)
      (hblank : isBlank (Utf8.bytes css) s.pos = true) :
      Passed printable css file s { s with pos := s.pos + 1 }
  | other {b : UInt8} (hv : Visible css file s.pos b) (hc : s.customClosers = none)
      (hdashes : s.statementHasContent = false →
        startsWith (Utf8.bytes css) s.pos "--" = .ok false)
      (hparens : b ≠ '('.toUInt8 ∧ b ≠ ')'.toUInt8) (hbrace : isBrace b = false)
      (hat : b ≠ '@'.toUInt8) (hend : b = ';'.toUInt8 → s.parenDepth ≠ 0)
      (hblank : isBlank (Utf8.bytes css) s.pos = false) :
      Passed printable css file s { s with pos := s.pos + 1, statementHasContent := true }

variable {printable : Char → Bool} {s s' : Scanner} {b : UInt8}

theorem le_nameEnd {start : ℕ} : start ≤ nameEnd bytes start := Nat.le_add_right ..

theorem graphRule_recorded {name : String} (hname : ruleName css s.pos file = .ok (name, stop))
    (hgraph : name = "import" ∨ name = "source")
    (h : graphRule printable css file s name stop = .ok s') :
    ∃ cursor text result, Recorded printable css file s s' name stop cursor text result := by
  unfold graphRule at h
  dsimp only at h
  split at h
  · obtain ⟨e, -, h⟩ := bind_ok h
    cases h
  · case _ hstarts =>
    split at h
    · obtain ⟨e, -, h⟩ := bind_ok h
      cases h
    · case _ hblank =>
      obtain ⟨cursor, hcursor, h⟩ := bind_ok h
      split at h
      · cases h
      · case _ hterminated =>
        obtain ⟨text, htext, h⟩ := bind_ok h
        obtain ⟨result, hresult, h⟩ := bind_ok h
        cases h
        exact ⟨cursor, text, result, hname, hgraph, by simpa using hstarts, by simpa using hblank,
          hcursor, hterminated, htext, hresult, rfl⟩

theorem customByte_passed {closers : List UInt8} (hv : Visible css file s.pos b)
    (hc : s.customClosers = some closers) (h : customByte css file s closers b = .ok s') :
    Passed printable css file s s' := by
  unfold customByte at h
  split at h
  · obtain ⟨e, -, h⟩ := bind_ok h
    cases h
  · case _ hat =>
    rw [beq_iff_eq] at hat
    split at h
    · case _ closer hcloser =>
      cases h
      exact .opens hv hc hcloser
    · case _ hcloser =>
      split at h
      · case _ hb =>
        split at h
        · case _ closer rest =>
          split at h
          · case _ heq =>
            rw [beq_iff_eq] at heq
            subst heq
            cases h
            exact .closes hv hc hcloser hb
          · obtain ⟨e, -, h⟩ := bind_ok h
            cases h
        · split at h
          · case _ heq =>
            rw [beq_iff_eq] at heq
            subst heq
            cases h
            exact .leaves hv hc
          · case _ hne =>
            rw [beq_iff_eq] at hne
            cases h
            refine .inside hv hc hat hcloser (fun _ => ⟨rfl, hne⟩) ?_
            rintro rfl
            cases hb
      · case _ hb =>
        split at h
        · case _ hend =>
          rw [Bool.and_eq_true, beq_iff_eq, List.isEmpty_iff] at hend
          obtain ⟨rfl, rfl⟩ := hend
          cases h
          exact .ends hv hc
        · case _ hend =>
          cases h
          refine .inside hv hc hat hcloser (fun hcl => absurd hcl hb) ?_
          rintro rfl hnil
          exact hend (by simp [hnil])

theorem atRule_passed (hv : Visible css file s.pos '@'.toUInt8) (hc : s.customClosers = none)
    (h : atRule printable css file s = .ok s') : Passed printable css file s s' := by
  obtain ⟨⟨name, stop⟩, hname, h⟩ := bind_ok h
  dsimp only at h
  split at h
  · case _ hgraph =>
    rw [Bool.or_eq_true, decide_eq_true_eq, decide_eq_true_eq] at hgraph
    obtain ⟨cursor, text, result, hrecorded⟩ := graphRule_recorded hname hgraph h
    exact .graph hv hc hrecorded
  · case _ hgraph =>
    rw [Bool.or_eq_true, decide_eq_true_eq, decide_eq_true_eq, not_or] at hgraph
    cases h
    exact .rule hv hc hname hgraph

theorem plainByte_passed (hv : Visible css file s.pos b) (hc : s.customClosers = none)
    (h : plainByte printable css file s b = .ok s') : Passed printable css file s s' := by
  unfold plainByte at h
  replace h := bind_ok h
  obtain ⟨dashes, hdashes, h⟩ := h
  split at h
  · case _ hd =>
    rw [Bool.and_eq_true, Bool.not_eq_true'] at hd
    cases h
    exact .dashes hv hc hd.1 (hd.2 ▸ hdashes)
  · case _ hd =>
    split at h
    · case _ hb =>
      rw [beq_iff_eq] at hb
      subst hb
      cases h
      exact .parenOpens hv hc
    · case _ hopen =>
      split at h
      · case _ hb =>
        rw [beq_iff_eq] at hb
        subst hb
        split at h
        · cases h
        · case _ hp =>
          cases h
          exact .parenCloses hv hc hp
      · case _ hclose =>
        split at h
        · cases h
        · case _ hparen =>
          have hp : isBrace b = true → s.parenDepth = 0 := by
            intro hb
            simpa [hb] using hparen
          split at h
          · case _ hb =>
            rw [beq_iff_eq] at hb
            subst hb
            cases h
            exact .braceOpens hv hc (hp rfl)
          · case _ hbraceOpen =>
            split at h
            · case _ hb =>
              rw [beq_iff_eq] at hb
              subst hb
              split at h
              · cases h
              · case _ hdepth =>
                cases h
                exact .braceCloses hv hc (hp rfl) hdepth
            · case _ hbraceClose =>
              split at h
              · case _ hb =>
                rw [beq_iff_eq] at hb
                subst hb
                exact atRule_passed hv hc h
              · case _ hat =>
                split at h
                · case _ hb =>
                  rw [Bool.and_eq_true, beq_iff_eq, decide_eq_true_eq] at hb
                  obtain ⟨rfl, hparens⟩ := hb
                  cases h
                  exact .terminates hv hc hparens
                · case _ hend =>
                  split at h
                  · case _ hblank =>
                    cases h
                    exact .blank hv hc hblank
                  · case _ hblank =>
                    cases h
                    simp only [beq_iff_eq] at hopen hclose hbraceOpen hbraceClose hat
                    simp only [Bool.and_eq_true, beq_iff_eq, decide_eq_true_eq, not_and] at hend
                    simp only [Bool.and_eq_true, Bool.not_eq_true', not_and,
                      Bool.not_eq_true] at hd
                    rw [Bool.not_eq_true] at hblank
                    refine .other hv hc ?_ ⟨hopen, hclose⟩ ?_ hat hend hblank
                    · intro hs
                      exact hd hs ▸ hdashes
                    · simp [isBrace, hbraceOpen, hbraceClose]

theorem step_passed (h : step printable css file s = .ok s') : Passed printable css file s s' := by
  obtain ⟨comment, hcomment, h⟩ := bind_ok h
  split at h
  · case _ hc =>
    subst hc
    obtain ⟨pos, hpos, h⟩ := bind_ok h
    cases h
    exact .comment hcomment hpos
  · case _ hc =>
    rw [Bool.not_eq_true] at hc
    subst hc
    obtain ⟨b, hb, h⟩ := bind_ok h
    have hbyte := byteAt_ok hb
    split at h
    · case _ hq =>
      obtain ⟨pos, hpos, h⟩ := bind_ok h
      cases h
      exact .string hcomment hbyte hq hpos
    · case _ hq =>
      split at h
      · case _ he =>
        rw [beq_iff_eq] at he
        subst he
        obtain ⟨pos, hpos, h⟩ := bind_ok h
        cases h
        exact .escape hcomment hbyte hpos
      · case _ he =>
        split at h
        · obtain ⟨e, -, h⟩ := bind_ok h
          cases h
        · case _ hascii =>
          obtain ⟨u, hsource, h⟩ := bind_ok h
          have hv : Visible css file s.pos b := by
            refine ⟨hcomment, hbyte, by simpa using hq, by simpa using he, by simpa using hascii, ?_⟩
            exact rejectSourceToken_ok hsource
          split at h
          · case _ closers hclosers => exact customByte_passed hv hclosers h
          · case _ hclosers => exact plainByte_passed hv hclosers h

/-- A rule name is on the list, and nothing of it is left behind its end. -/
theorem ruleName_ok {name : String} (h : ruleName css pos file = .ok (name, stop)) :
    stop = nameEnd (Utf8.bytes css) (pos + 1) ∧
      startsWith (Utf8.bytes css) stop "/*" = .ok false ∧
      slice css (pos + 1) stop = .ok name.toList ∧ name ∈ allowedRules ∧
      ((Utf8.bytes css)[stop]?.any fun b => isDigit b || b == '_'.toUInt8) = false := by
  unfold ruleName at h
  dsimp only at h
  replace h := bind_ok h
  obtain ⟨comment, hcomment, h⟩ := h
  split at h
  · obtain ⟨e, -, h⟩ := bind_ok h
    cases h
  · case _ hc =>
    rw [Bool.not_eq_true] at hc
    subst hc
    split at h
    · obtain ⟨e, -, h⟩ := bind_ok h
      cases h
    · replace h := bind_ok h
      obtain ⟨text, htext, h⟩ := h
      replace h := bind_ok h
      obtain ⟨u, hcase, h⟩ := h
      split at h
      · cases h
      · case _ hmalformed =>
        split at h
        · cases h
        · case _ hallowed =>
          cases h
          rw [Bool.or_eq_true, not_or, Bool.not_eq_true, Bool.not_eq_true] at hmalformed
          refine ⟨rfl, hcomment, ?_, by simpa using hallowed, hmalformed.2⟩
          rw [htext, String.toList_ofList]

theorem ruleName_advances {name : String} (h : ruleName css pos file = .ok (name, stop)) :
    pos < stop := by
  rw [(ruleName_ok h).1]
  exact Nat.lt_of_succ_le le_nameEnd

theorem argumentLoop_advances {name : String} {cursor : ℕ}
    (h : (argumentLoop css file name).run pos = .ok cursor) : pos ≤ cursor := by
  refine ((argumentLoop css file name).run_keeps (I := fun cursor => pos ≤ cursor) ?_ le_rfl h).1
  intro cursor next hle _ hb
  have hlt := argumentStep_advances hb
  omega

/-- Before the end of the text the loop stops at a semicolon. -/
theorem argumentLoop_semicolon {name : String} {cursor : ℕ}
    (h : (argumentLoop css file name).run pos = .ok cursor)
    (hlt : cursor < (Utf8.bytes css).length) :
    (Utf8.bytes css)[cursor]? = some ';'.toUInt8 := by
  have hcond := ((argumentLoop css file name).run_keeps (I := fun _ => True)
    (fun _ _ _ _ _ => trivial) trivial h).2
  rw [argumentLoop, Except.ok.injEq, List.getElem?_eq_getElem hlt, Option.any_some] at hcond
  rw [List.getElem?_eq_getElem hlt]
  simpa using hcond

theorem Visible.lt (h : Visible css file pos b) : pos < (Utf8.bytes css).length :=
  (List.getElem?_eq_some_iff.mp h.byte).1

/-- Every pass moves on, but the one that leaves a custom property value. -/
theorem Passed.advances (h : Passed printable css file s s') :
    s.pos < (Utf8.bytes css).length ∧
      (s.pos < s'.pos ∨ (s'.pos = s.pos ∧ s.customClosers.isSome = true ∧
        s'.customClosers = none)) := by
  cases h with
  | comment h hskip => exact ⟨lt_of_startsWith (by decide) h, .inl (skipComment_advances hskip)⟩
  | string h hb hq hskip =>
      exact ⟨(List.getElem?_eq_some_iff.mp hb).1, .inl (skipString_advances hskip)⟩
  | escape h hb hskip =>
      have hlt := (List.getElem?_eq_some_iff.mp hb).1
      have hmin := skipEscape_ok hskip
      exact ⟨hlt, .inl (by dsimp only; omega)⟩
  | leaves hv hc => exact ⟨hv.lt, .inr ⟨rfl, by rw [hc]; rfl, rfl⟩⟩
  | rule hv hc hname hgraph => exact ⟨hv.lt, .inl (ruleName_advances hname)⟩
  | graph hv hc h =>
      refine ⟨hv.lt, .inl ?_⟩
      have hstop := ruleName_advances h.rule
      have hcursor := argumentLoop_advances h.scanned
      rw [h.next]
      dsimp only
      omega
  | dashes hv => exact ⟨hv.lt, .inl (by dsimp only; omega)⟩
  | opens hv => exact ⟨hv.lt, .inl (Nat.lt_succ_self _)⟩
  | closes hv => exact ⟨hv.lt, .inl (Nat.lt_succ_self _)⟩
  | ends hv => exact ⟨hv.lt, .inl (Nat.lt_succ_self _)⟩
  | inside hv => exact ⟨hv.lt, .inl (Nat.lt_succ_self _)⟩
  | parenOpens hv => exact ⟨hv.lt, .inl (Nat.lt_succ_self _)⟩
  | parenCloses hv => exact ⟨hv.lt, .inl (Nat.lt_succ_self _)⟩
  | braceOpens hv => exact ⟨hv.lt, .inl (Nat.lt_succ_self _)⟩
  | braceCloses hv => exact ⟨hv.lt, .inl (Nat.lt_succ_self _)⟩
  | terminates hv => exact ⟨hv.lt, .inl (Nat.lt_succ_self _)⟩
  | blank hv => exact ⟨hv.lt, .inl (Nat.lt_succ_self _)⟩
  | other hv => exact ⟨hv.lt, .inl (Nat.lt_succ_self _)⟩

/-! ## The whole scan -/

/-- Twice the bytes ahead, and one inside a custom property value. -/
def Scanner.measure (bytes : Bytes) (s : Scanner) : ℕ :=
  2 * (bytes.length - s.pos) + if s.customClosers.isSome then 1 else 0

theorem step_lowers (h : step printable css file s = .ok s') :
    s'.measure (Utf8.bytes css) < s.measure (Utf8.bytes css) := by
  obtain ⟨hlt, hmoves⟩ := (step_passed h).advances
  unfold Scanner.measure
  rcases hmoves with hpos | ⟨hpos, hsome, hnone⟩
  · split_ifs <;> omega
  · rw [hpos, hsome, hnone]
    simp

def scanLoop (printable : Char → Bool) (css : Text) (file : Path) : While.Loop Scanner Stop where
  cond s := .ok (decide (s.pos < (Utf8.bytes css).length))
  body s := step printable css file s
  measure s := s.measure (Utf8.bytes css)
  lowers _ _ _ h := step_lowers h

/-- The checks after the last byte. -/
def finish (css : Text) (file : Path) (s : Scanner) : Scan Directives := do
  if s.depth ≠ 0 then fail ("unmatched \x7b in " ++ Path.display file)
  else if s.parenDepth ≠ 0 then fail ("unmatched ( in " ++ Path.display file)
  else match s.customClosers with
  | some (closer :: _) =>
      fail ("unclosed " ++ byteText closer ++ " inside custom property value in " ++
        (← place css (Utf8.bytes css).length file))
  | _ => pure s.result

def byteOrderMark : List UInt8 := [0xEF, 0xBB, 0xBF]

/-- Where the scan starts: after a byte order mark. -/
def textStart (bytes : Bytes) : ℕ := if byteOrderMark.isPrefixOf bytes then 3 else 0

def directives (printable : Char → Bool) (css : Text) (file : Path) : Scan Directives := do
  let s ← (scanLoop printable css file).run { pos := textStart (Utf8.bytes css) }
  finish css file s

end Cja.Tailwind
