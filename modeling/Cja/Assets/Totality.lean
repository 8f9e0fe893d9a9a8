import Cja.Assets.Directives

/-!
# The scanner never panics

Every position at which the scanner slices the text is a boundary between two
characters. An escape in a comment or a string may step into the middle of a
character; the loops there look at bytes only, and they end behind a byte below
128, which is a character of its own.
-/
namespace Cja.Tailwind
open Cja.Assets FileSystem Utf8 While

/-- The scan ends with a result in `Q` or with an error of the builder. -/
abbrev Safe {α : Type} (x : Scan α) (Q : α → Prop) : Prop := Lands x Q (· ≠ .panic)

variable {bytes : Bytes} {css : Text} {file : Path} {pos stop : ℕ} {b : UInt8}

theorem fail_safe {α : Type} {Q : α → Prop} (message : String) : Safe (fail message) Q :=
  .of_error (by simp)

theorem byteAt_safe (h : pos < bytes.length) :
    Safe (byteAt bytes pos) (fun b => bytes[pos]? = some b) := by
  rw [byteAt, List.getElem?_eq_getElem h]
  exact .of_ok rfl

theorem startsWith_safe (lit : String) (h : pos ≤ bytes.length) :
    Safe (startsWith bytes pos lit) (fun _ => True) := by
  rw [startsWith, if_pos h]
  exact .of_ok trivial

theorem slice_safe {start : ℕ} (hstart : Boundary css start) (hstop : Boundary css stop)
    (hle : start ≤ stop) : Safe (slice css start stop) (fun _ => True) := by
  obtain ⟨t, ht⟩ := hstart.slice hstop hle
  rw [slice, ht]
  exact .of_ok trivial

theorem lineNumber_safe (h : Boundary css pos) : Safe (lineNumber css pos) (fun _ => True) :=
  (slice_safe (boundary_zero css) h pos.zero_le).bind fun _ _ _ => .of_ok trivial

theorem place_safe (h : Boundary css pos) : Safe (place css pos file) (fun _ => True) :=
  (lineNumber_safe h).bind fun _ _ _ => .of_ok trivial

/-- The character at a position is not needed: its byte is there anyway. -/
theorem failNonAscii_safe {α : Type} {Q : α → Prop} (h : pos < (Utf8.bytes css).length) :
    Safe (failNonAscii css pos file) Q := by
  have hbyte := byteAt_safe h
  have htoken : Safe (nonAscii css pos file) (fun _ => True) := by
    unfold nonAscii
    dsimp only
    split
    · exact .of_ok trivial
    · exact hbyte.bind fun _ _ _ => .of_ok trivial
  exact htoken.bind fun _ _ _ => .of_error (by simp)

/-! ## Comments, strings and escapes -/

theorem ascii_toNat (h : isAscii b = true) : b.toNat < 128 := by
  rw [isAscii, decide_eq_true_eq, UInt8.lt_iff_toNat_lt] at h
  exact h

/-- The end of a comment is behind its slash, wherever its escapes stepped. -/
theorem commentEnd_safe : Safe (commentEnd (Utf8.bytes css) pos file) (Boundary css) := by
  induction pos using commentEnd.induct (Utf8.bytes css) with
  | case1 pos hlt hb ih =>
      rw [commentEnd, dif_pos hlt, if_pos hb]
      exact ih
  | case2 pos hlt hb hclose =>
      rw [commentEnd, dif_pos hlt, if_neg hb, if_pos hclose]
      obtain ⟨rest, hrest⟩ := List.isPrefixOf_iff_prefix.mp hclose
      have hslash : (Utf8.bytes css)[pos + 1]? = some '/'.toUInt8 := by
        rw [← List.getElem?_drop, ← hrest]
        rfl
      exact .of_ok (boundary_succ hslash (by decide))
  | case3 pos hlt hb hclose ih =>
      rw [commentEnd, dif_pos hlt, if_neg hb, if_neg hclose]
      exact ih
  | case4 pos hlt =>
      rw [commentEnd, dif_neg hlt]
      exact fail_safe _

theorem skipComment_safe : Safe (skipComment (Utf8.bytes css) pos file) (Boundary css) :=
  commentEnd_safe

theorem stringEnd_safe {quote : UInt8} (hquote : isAscii quote = true) :
    Safe (stringEnd (Utf8.bytes css) quote pos file) (Boundary css) := by
  induction pos using stringEnd.induct (Utf8.bytes css) quote with
  | case1 pos hlt hb ih =>
      rw [stringEnd, dif_pos hlt, if_pos hb]
      exact ih
  | case2 pos hlt hb hend =>
      rw [stringEnd, dif_pos hlt, if_neg hb, if_pos hend]
      rw [beq_iff_eq] at hend
      have hbyte : (Utf8.bytes css)[pos]? = some quote := by
        rw [List.getElem?_eq_getElem hlt, hend]
      exact .of_ok (boundary_succ hbyte (ascii_toNat hquote))
  | case3 pos hlt hb hend ih =>
      rw [stringEnd, dif_pos hlt, if_neg hb, if_neg hend]
      exact ih
  | case4 pos hlt =>
      rw [stringEnd, dif_neg hlt]
      exact fail_safe _

theorem quote_ascii (h : isQuote b = true) : isAscii b = true := by
  rw [isQuote, Bool.or_eq_true, beq_iff_eq, beq_iff_eq] at h
  rcases h with rfl | rfl <;> rfl

theorem skipString_safe (hb : (Utf8.bytes css)[pos]? = some b) (hquote : isQuote b = true) :
    Safe (skipString (Utf8.bytes css) pos file) (Boundary css) := by
  have hlt := (List.getElem?_eq_some_iff.mp hb).1
  refine (byteAt_safe hlt).bind fun quote _ hq => ?_
  rw [hb, Option.some.injEq] at hq
  subst hq
  exact stringEnd_safe (quote_ascii hquote)

/-- Outside comments and strings an escape passes over one ASCII character. -/
theorem skipEscape_safe (h : pos < (Utf8.bytes css).length) :
    Safe (skipEscape css pos file) (Boundary css) := by
  unfold skipEscape
  dsimp only
  cases hnext : (Utf8.bytes css)[pos + 1]? with
  | none =>
      have hend := List.getElem?_eq_none_iff.mp hnext
      rw [Option.any_none, if_neg (by simp), min_eq_right (by omega)]
      exact .of_ok (boundary_length css)
  | some b =>
      have hlt := (List.getElem?_eq_some_iff.mp hnext).1
      rw [Option.any_some]
      cases hascii : isAscii b with
      | true =>
          rw [if_neg (by simp), min_eq_left (by omega)]
          exact .of_ok (boundary_succ hnext (ascii_toNat hascii))
      | false =>
          rw [if_pos (by simp)]
          exact failNonAscii_safe hlt

/-! ## `source(` -/

theorem commentsLoop_safe (h : pos ≤ (Utf8.bytes css).length) :
    Safe ((commentsLoop (Utf8.bytes css) file).run pos) (· ≤ (Utf8.bytes css).length) := by
  refine ((commentsLoop (Utf8.bytes css) file).run_lands
    (I := (· ≤ (Utf8.bytes css).length)) ?_ ?_ h).weaken fun _ hcursor => hcursor.1
  · intro cursor hle
    exact startsWith_safe "/*" hle
  · intro cursor hle hcond
    exact skipComment_safe.weaken fun _ hcursor => hcursor.le

theorem sourceLetters_safe {letters : List UInt8} (h : pos ≤ (Utf8.bytes css).length) :
    Safe (sourceLetters (Utf8.bytes css) file letters pos) (fun _ => True) := by
  induction letters generalizing pos with
  | nil => exact .of_ok trivial
  | cons letter letters ih =>
      rw [sourceLetters]
      refine (commentsLoop_safe h).bind fun cursor _ hcursor => ?_
      split
      · case _ hany =>
        rw [Option.any_eq_true] at hany
        obtain ⟨c, hc, -⟩ := hany
        exact ih (List.getElem?_eq_some_iff.mp hc).1
      · exact .of_ok trivial

theorem rejectSourceToken_safe (h : pos < (Utf8.bytes css).length) :
    Safe (rejectSourceToken (Utf8.bytes css) pos file) (fun _ => True) := by
  have htoken : Safe (sourceToken (Utf8.bytes css) pos file) (fun _ => True) := by
    refine (byteAt_safe h).bind fun c _ _ => ?_
    split
    · exact .of_ok trivial
    · exact sourceLetters_safe h.le
  refine htoken.bind fun found _ _ => ?_
  split
  · exact fail_safe _
  · exact .of_ok trivial

theorem statementStep_safe (h : pos < (Utf8.bytes css).length) :
    Safe (statementStep (Utf8.bytes css) stop file pos) (fun _ => True) := by
  refine (startsWith_safe "/*" h.le).bind fun comment _ _ => ?_
  split
  · exact skipComment_safe.weaken fun _ _ => trivial
  · refine (byteAt_safe h).bind fun c _ hc => ?_
    split
    · case _ hquote => exact (skipString_safe hc hquote).weaken fun _ _ => trivial
    · split
      · exact .of_ok trivial
      · exact (rejectSourceToken_safe h).bind fun _ _ _ => .of_ok trivial

/-- The passes look at bytes before `stop` only, at boundaries or not. -/
theorem rejectSourceInStatement_safe (h : stop ≤ (Utf8.bytes css).length) :
    Safe (rejectSourceInStatement (Utf8.bytes css) pos stop file) (fun _ => True) := by
  refine Lands.bind (Q := fun _ => True) ?_ fun _ _ _ => .of_ok trivial
  refine (Loop.run_lands (I := fun _ => True) ?_ ?_ trivial).weaken fun _ _ => trivial
  · intro cursor _
    exact .of_ok trivial
  · intro cursor _ hcond
    rw [Except.ok.injEq, decide_eq_true_eq] at hcond
    exact statementStep_safe (by omega)

/-! ## Arguments -/

theorem first_last_boundaries {text : Text} (hfirst : (Utf8.bytes text).head? = some b)
    (hlast : (Utf8.bytes text).getLast? = some b) (hquote : isQuote b = true) :
    Boundary text 1 ∧ Boundary text ((Utf8.bytes text).length - 1) := by
  have hascii := ascii_toNat (quote_ascii hquote)
  constructor
  · rw [List.head?_eq_getElem?] at hfirst
    exact boundary_succ hfirst hascii
  · rw [List.getLast?_eq_getElem?] at hlast
    exact boundary_of_first hlast (first_of_ascii hascii)

theorem quotedOnly_safe (text : Text) : Safe (quotedOnly text) (fun _ => True) := by
  unfold quotedOnly
  dsimp only
  split
  · exact .of_ok trivial
  · case _ first hfirst =>
    split
    · exact .of_ok trivial
    · case _ hcond =>
      simp only [Bool.or_eq_true, Bool.not_eq_true', decide_eq_true_eq, not_or,
        Bool.not_eq_false, not_not, not_lt] at hcond
      obtain ⟨⟨hquote, hlast⟩, hlength⟩ := hcond
      obtain ⟨hone, hstop⟩ := first_last_boundaries hfirst hlast hquote
      refine (slice_safe hone hstop (by omega)).bind fun path _ _ => ?_
      split
      · exact .of_ok trivial
      · exact .of_ok trivial

theorem sourcePath_safe (argument : Text) : Safe (sourcePath argument file) (fun _ => True) := by
  unfold sourcePath
  split
  · exact fail_safe _
  · refine (quotedOnly_safe argument).bind fun path _ _ => ?_
    split
    · exact fail_safe _
    · split
      · exact .of_ok trivial
      · exact fail_safe _

theorem rejectNearMiss_safe {printable : Char → Bool} (argument : Text) :
    Safe (rejectNearMissRootImport printable argument file) (fun _ => True) := by
  unfold rejectNearMissRootImport
  split
  · exact fail_safe _
  · exact .of_ok trivial

variable {printable : Char → Bool} {s : Scanner}

theorem record_safe {name : String} {cursor : ℕ} {argument : Text}
    (h : cursor ≤ (Utf8.bytes css).length) :
    Safe (record printable css file s name stop cursor argument) (fun _ => True) := by
  have hsource : Safe (rejectSourceInStatement (Utf8.bytes css) stop cursor file)
      (fun _ => True) := rejectSourceInStatement_safe h
  unfold record
  split
  · unfold recordImport
    split
    · split
      · exact fail_safe _
      · exact .of_ok trivial
    · refine (rejectNearMiss_safe argument).bind fun _ _ _ => hsource.bind fun _ _ _ => ?_
      refine (quotedOnly_safe argument).bind fun path _ _ => ?_
      split
      · exact fail_safe _
      · split
        · exact .of_ok trivial
        · exact fail_safe _
  · refine hsource.bind fun _ _ _ => ?_
    split
    · exact fail_safe _
    · exact (sourcePath_safe argument).bind fun _ _ _ => .of_ok trivial

/-! ## One pass -/

theorem argumentLoop_safe {name : String} (h : Boundary css pos) :
    Safe ((argumentLoop css file name).run pos) (Boundary css) := by
  refine ((argumentLoop css file name).run_lands ?_ ?_ h).weaken fun _ hcursor => hcursor.1
  · intro cursor _
    exact .of_ok trivial
  · intro cursor hcursor hcond
    simp only [argumentLoop, Except.ok.injEq, Option.any_eq_true] at hcond
    obtain ⟨c, hc, -⟩ := hcond
    have hlt := (List.getElem?_eq_some_iff.mp hc).1
    refine (startsWith_safe "/*" hlt.le).bind fun comment _ _ => ?_
    split
    · exact skipComment_safe
    · refine (byteAt_safe hlt).bind fun d _ hd => ?_
      split
      · case _ hquote => exact skipString_safe hd hquote
      · split
        · exact skipEscape_safe hlt
        · split
          · exact failNonAscii_safe hlt
          · case _ hascii =>
            rw [Bool.not_eq_true', Bool.not_eq_false] at hascii
            split
            · exact fail_safe _
            · exact .of_ok (boundary_succ hd (ascii_toNat hascii))

theorem nameByte_ascii (h : isNameByte b = true) : b.toNat < 128 := by
  simp only [isNameByte, isAlphabetic, isUpper, Bool.or_eq_true, Bool.and_eq_true,
    decide_eq_true_eq, beq_iff_eq, UInt8.le_iff_toNat_le] at h
  rcases h with (⟨-, h⟩ | ⟨-, h⟩) | rfl
  · exact lt_of_le_of_lt h (by decide)
  · exact lt_of_le_of_lt h (by decide)
  · decide

/-- The bytes of a name are characters. -/
theorem nameEnd_boundary {start : ℕ} (h : Boundary css start) :
    Boundary css (nameEnd (Utf8.bytes css) start) := by
  unfold nameEnd
  set word := ((Utf8.bytes css).drop start).takeWhile isNameByte
  cases hlength : word.length with
  | zero => exact h
  | succ k =>
      have hk : k < word.length := by omega
      have hname : isNameByte word[k] = true := List.mem_takeWhile_imp (List.getElem_mem hk)
      obtain ⟨rest, hrest⟩ : word <+: (Utf8.bytes css).drop start := List.takeWhile_prefix isNameByte
      have hbyte : (Utf8.bytes css)[start + k]? = some word[k] := by
        rw [← List.getElem?_drop, ← hrest, List.getElem?_append_left hk,
          List.getElem?_eq_getElem hk]
      exact boundary_succ hbyte (nameByte_ascii hname)

theorem ruleName_safe (h : Boundary css (pos + 1)) :
    Safe (ruleName css pos file) (fun rule => Boundary css rule.2) := by
  have hstop := nameEnd_boundary h
  have hslice := slice_safe h hstop le_nameEnd
  refine (startsWith_safe "/*" hstop.le).bind fun comment _ _ => ?_
  split
  · exact hslice.bind fun _ _ _ => fail_safe _
  · split
    · case _ hany =>
      rw [Option.any_eq_true] at hany
      obtain ⟨c, hc, -⟩ := hany
      exact failNonAscii_safe (List.getElem?_eq_some_iff.mp hc).1
    · refine hslice.bind fun name _ _ => ?_
      have hcase : Safe (checkRuleCase (String.ofList name) file) (fun _ => True) := by
        unfold checkRuleCase
        split
        · exact fail_safe _
        · exact .of_ok trivial
      refine hcase.bind fun _ _ _ => ?_
      split
      · exact fail_safe _
      · split
        · exact fail_safe _
        · exact .of_ok hstop

theorem graphRule_safe {name : String} (hpos : Boundary css s.pos) (hstop : Boundary css stop) :
    Safe (graphRule printable css file s name stop) (fun s' => Boundary css s'.pos) := by
  unfold graphRule
  dsimp only
  split
  · exact (place_safe hpos).bind fun _ _ _ => fail_safe _
  · split
    · exact (place_safe hpos).bind fun _ _ _ => fail_safe _
    · refine (argumentLoop_safe hstop).bind fun cursor hrun hcursor => ?_
      have hle := argumentLoop_advances hrun
      split
      · exact fail_safe _
      · case _ hend =>
        refine (slice_safe hstop hcursor hle).bind fun text _ _ => ?_
        refine (record_safe hcursor.le).bind fun result _ _ => ?_
        -- the loop stopped before the end of the text: at a semicolon
        have hsemicolon := argumentLoop_semicolon hrun (lt_of_le_of_ne hcursor.le hend)
        exact .of_ok (boundary_succ hsemicolon (by decide))

theorem customByte_safe {closers : List UInt8} (hpos : Boundary css s.pos)
    (hnext : Boundary css (s.pos + 1)) :
    Safe (customByte css file s closers b) (fun s' => Boundary css s'.pos) := by
  unfold customByte
  split
  · exact (place_safe hpos).bind fun _ _ _ => fail_safe _
  · split
    · exact .of_ok hnext
    · split
      · split
        · split
          · exact .of_ok hnext
          · exact (place_safe hpos).bind fun _ _ _ => fail_safe _
        · split
          · exact .of_ok hpos
          · exact .of_ok hnext
      · split
        · exact .of_ok hnext
        · exact .of_ok hnext

theorem atRule_safe (hpos : Boundary css s.pos) (hnext : Boundary css (s.pos + 1)) :
    Safe (atRule printable css file s) (fun s' => Boundary css s'.pos) := by
  refine (ruleName_safe hnext).bind fun rule _ hrule => ?_
  dsimp only
  split
  · exact graphRule_safe hpos hrule
  · exact .of_ok hrule

theorem plainByte_safe (hpos : Boundary css s.pos) (hb : (Utf8.bytes css)[s.pos]? = some b)
    (hascii : b.toNat < 128) :
    Safe (plainByte printable css file s b) (fun s' => Boundary css s'.pos) := by
  have hnext := boundary_succ hb hascii
  unfold plainByte
  dsimp only
  refine (startsWith_safe "--" hpos.le).bind fun dashes hdashes _ => ?_
  split
  · case _ hd =>
    rw [Bool.and_eq_true] at hd
    obtain ⟨rest, hrest⟩ := startsWith_true (hd.2 ▸ hdashes)
    have hdash : (Utf8.bytes css)[s.pos + 1]? = some '-'.toUInt8 := by
      rw [← List.getElem?_drop, ← hrest]
      rfl
    exact .of_ok (boundary_succ hdash (by decide))
  · split
    · exact .of_ok hnext
    · split
      · split
        · exact fail_safe _
        · exact .of_ok hnext
      · split
        · exact fail_safe _
        · split
          · exact .of_ok hnext
          · split
            · split
              · exact fail_safe _
              · exact .of_ok hnext
            · split
              · exact atRule_safe hpos hnext
              · split
                · exact .of_ok hnext
                · split
                  · exact .of_ok hnext
                  · exact .of_ok hnext

/-- A pass from a boundary ends at a boundary. -/
theorem step_safe (hpos : Boundary css s.pos) (hlt : s.pos < (Utf8.bytes css).length) :
    Safe (step printable css file s) (fun s' => Boundary css s'.pos) := by
  refine (startsWith_safe "/*" hlt.le).bind fun comment _ _ => ?_
  split
  · exact skipComment_safe.bind fun pos _ hend => .of_ok hend
  · refine (byteAt_safe hlt).bind fun b _ hb => ?_
    split
    · case _ hquote => exact (skipString_safe hb hquote).bind fun pos _ hend => .of_ok hend
    · split
      · exact (skipEscape_safe hlt).bind fun pos _ hend => .of_ok hend
      · split
        · exact failNonAscii_safe hlt
        · case _ hascii =>
          rw [Bool.not_eq_true', Bool.not_eq_false] at hascii
          have hsmall := ascii_toNat hascii
          refine (rejectSourceToken_safe hlt).bind fun _ _ _ => ?_
          split
          · exact customByte_safe hpos (boundary_succ hb hsmall)
          · exact plainByte_safe hpos hb hsmall

/-! ## The whole scan -/

/-- The byte order mark is a character of three bytes. -/
theorem textStart_boundary (css : Text) : Boundary css (textStart (Utf8.bytes css)) := by
  unfold textStart
  split
  · case _ hmark =>
    obtain ⟨rest, hrest⟩ := List.isPrefixOf_iff_prefix.mp hmark
    have hfirst : (Utf8.bytes css)[0]? = some 0xEF := by
      rw [← hrest]
      rfl
    exact boundary_three hfirst (by decide) (by decide)
  · exact boundary_zero css

theorem finish_safe : Safe (finish css file s) (fun _ => True) := by
  unfold finish
  split
  · exact fail_safe _
  · split
    · exact fail_safe _
    · split
      · exact (place_safe (boundary_length css)).bind fun _ _ _ => fail_safe _
      · exact .of_ok trivial

theorem directives_safe (printable : Char → Bool) (css : Text) (file : Path) :
    Safe (directives printable css file) (fun _ => True) := by
  have hscan : Safe ((scanLoop printable css file).run { pos := textStart (Utf8.bytes css) })
      (fun _ => True) := by
    refine (Loop.run_lands (I := fun s => Boundary css s.pos) ?_ ?_
      (textStart_boundary css)).weaken fun _ _ => trivial
    · intro s _
      exact .of_ok trivial
    · intro s hpos hcond
      simp only [scanLoop, Except.ok.injEq, decide_eq_true_eq] at hcond
      exact step_safe hpos hcond
  exact hscan.bind fun _ _ _ => finish_safe

/-- For every text the scanner ends with directives or with an error of the builder:
it never indexes out of bounds or slices within a character. -/
theorem scanner_total (printable : Char → Bool) (css : Text) (file : Path) :
    (∃ d, directives printable css file = .ok d) ∨
      ∃ e, directives printable css file = .error (.error e) := by
  have hsafe := directives_safe printable css file
  cases h : directives printable css file with
  | ok d => exact .inl ⟨d, rfl⟩
  | error stop =>
      cases stop with
      | error e => exact .inr ⟨e, rfl⟩
      | panic => exact absurd rfl (hsafe.error .panic h)

end Cja.Tailwind
