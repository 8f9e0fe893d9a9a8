import Cja.Assets.Visible

/-!
# The scanner records the whole input graph

The pieces behind a position and the state of the scanner there say what the rest
of the scan finds. The argument runs from the end of the text back: a pass reads
the first pieces, and what holds of the pieces behind it carries over.
-/
namespace Cja.Tailwind
open Cja.Assets FileSystem

/-! ## Brackets -/

/-- The brackets that close `depth` open braces and, inside, `parens` parentheses. -/
inductive Closes : ℕ → ℕ → Bytes → Prop
  | done : Closes 0 0 []
  | parenOpens {depth parens : ℕ} {w : Bytes} (h : Closes depth (parens + 1) w) :
      Closes depth parens ('('.toUInt8 :: w)
  | parenCloses {depth parens : ℕ} {w : Bytes} (h : Closes depth parens w) :
      Closes depth (parens + 1) (')'.toUInt8 :: w)
  | braceOpens {depth : ℕ} {w : Bytes} (h : Closes (depth + 1) 0 w) :
      Closes depth 0 ('\x7b'.toUInt8 :: w)
  | braceCloses {depth : ℕ} {w : Bytes} (h : Closes depth 0 w) :
      Closes (depth + 1) 0 ('\x7d'.toUInt8 :: w)

namespace Closes

variable {depth parens : ℕ} {w before after : Bytes}

/-- What is open after some of the brackets. -/
theorem split (h : Closes depth parens (before ++ after)) :
    ∃ depth' parens', Closes depth' parens' after ∧
      parens + before.count '('.toUInt8 = parens' + before.count ')'.toUInt8 ∧
      depth + before.count '\x7b'.toUInt8 = depth' + before.count '\x7d'.toUInt8 := by
  induction before generalizing depth parens with
  | nil => exact ⟨depth, parens, h, rfl, rfl⟩
  | cons b before ih =>
      cases h with
      | parenOpens h =>
          obtain ⟨depth', parens', hafter, hparens, hdepth⟩ := ih h
          refine ⟨depth', parens', hafter, ?_, ?_⟩
          · rw [List.count_cons_self, List.count_cons_of_ne (by decide)]
            omega
          · rw [List.count_cons_of_ne (by decide), List.count_cons_of_ne (by decide), hdepth]
      | parenCloses h =>
          obtain ⟨depth', parens', hafter, hparens, hdepth⟩ := ih h
          refine ⟨depth', parens', hafter, ?_, ?_⟩
          · rw [List.count_cons_self, List.count_cons_of_ne (by decide)]
            omega
          · rw [List.count_cons_of_ne (by decide), List.count_cons_of_ne (by decide), hdepth]
      | braceOpens h =>
          obtain ⟨depth', parens', hafter, hparens, hdepth⟩ := ih h
          refine ⟨depth', parens', hafter, ?_, ?_⟩
          · rw [List.count_cons_of_ne (by decide), List.count_cons_of_ne (by decide), hparens]
          · rw [List.count_cons_self, List.count_cons_of_ne (by decide)]
            omega
      | braceCloses h =>
          obtain ⟨depth', parens', hafter, hparens, hdepth⟩ := ih h
          refine ⟨depth', parens', hafter, ?_, ?_⟩
          · rw [List.count_cons_of_ne (by decide), List.count_cons_of_ne (by decide), hparens]
          · rw [List.count_cons_self, List.count_cons_of_ne (by decide)]
            omega

theorem balanced (h : Closes 0 0 w) : Balanced w := by
  have hopen : ∀ before, before <+: w →
      before.count ')'.toUInt8 ≤ before.count '('.toUInt8 ∧
        before.count '\x7d'.toUInt8 ≤ before.count '\x7b'.toUInt8 := by
    rintro before ⟨after, rfl⟩
    obtain ⟨depth', parens', -, hparens, hdepth⟩ := h.split
    omega
  have hclosed : w.count '('.toUInt8 = w.count ')'.toUInt8 ∧
      w.count '\x7b'.toUInt8 = w.count '\x7d'.toUInt8 := by
    have hw : Closes 0 0 (w ++ []) := by rwa [List.append_nil]
    obtain ⟨depth', parens', hnil, hparens, hdepth⟩ := hw.split
    cases hnil
    omega
  refine ⟨hclosed.1, hclosed.2, fun before hb => (hopen before hb).1,
    fun before hb => (hopen before hb).2, ?_⟩
  rintro before b after rfl hbrace
  obtain ⟨depth', parens', hrest, hparens, -⟩ := h.split
  have hzero : parens' = 0 := by
    cases hrest with
    | parenOpens _ => cases hbrace
    | parenCloses _ => cases hbrace
    | braceOpens _ => rfl
    | braceCloses _ => rfl
  omega

end Closes

/-! ## Pieces -/

variable {css : Text} {file : Path} {pos stop : ℕ} {p : Piece} {ps qs : List Piece} {b : UInt8}

/-- What is known of the piece at a position. -/
theorem pieceAt_cases (h : pieceAt css file pos = .ok (p, stop)) :
    (p.isComment = true ∧ startsWith (Utf8.bytes css) pos "/*" = .ok true ∧
      skipComment (Utf8.bytes css) pos file = .ok stop) ∨
    (p.isComment = false ∧ startsWith (Utf8.bytes css) pos "/*" = .ok false ∧
      ∀ b, p = .visible b → (Utf8.bytes css)[pos]? = some b ∧ stop = pos + 1) := by
  unfold pieceAt at h
  dsimp only at h
  replace h := bind_ok h
  obtain ⟨comment, hcomment, h⟩ := h
  split at h
  · case _ hc =>
    subst hc
    replace h := bind_ok h
    obtain ⟨stop, hstop, h⟩ := h
    cases h
    exact .inl ⟨rfl, hcomment, hstop⟩
  · case _ hc =>
    rw [Bool.not_eq_true] at hc
    subst hc
    right
    replace h := bind_ok h
    obtain ⟨b, hb, h⟩ := h
    split at h
    · replace h := bind_ok h
      obtain ⟨stop, hstop, h⟩ := h
      cases h
      exact ⟨rfl, hcomment, by rintro c ⟨⟩⟩
    · split at h
      · replace h := bind_ok h
        obtain ⟨stop, hstop, h⟩ := h
        cases h
        exact ⟨rfl, hcomment, by rintro c ⟨⟩⟩
      · cases h
        refine ⟨rfl, hcomment, ?_⟩
        rintro c ⟨⟩
        exact ⟨byteAt_ok hb, rfl⟩

theorem byteAt_of_getElem? {bytes : Bytes} (h : bytes[pos]? = some b) : byteAt bytes pos = .ok b := by
  unfold byteAt
  rw [h]

theorem pieceAt_comment (h : startsWith (Utf8.bytes css) pos "/*" = .ok true)
    (hskip : skipComment (Utf8.bytes css) pos file = .ok stop) :
    pieceAt css file pos = .ok (.comment (between (Utf8.bytes css) pos stop), stop) := by
  unfold pieceAt
  dsimp only
  rw [h, ok_bind, if_pos rfl, hskip]
  rfl

theorem pieceAt_string (h : startsWith (Utf8.bytes css) pos "/*" = .ok false)
    (hb : (Utf8.bytes css)[pos]? = some b) (hq : isQuote b = true)
    (hskip : skipString (Utf8.bytes css) pos file = .ok stop) :
    pieceAt css file pos = .ok (.string (between (Utf8.bytes css) pos stop), stop) := by
  unfold pieceAt
  dsimp only
  rw [h, ok_bind, if_neg Bool.false_ne_true, byteAt_of_getElem? hb, ok_bind, if_pos hq, hskip]
  rfl

theorem pieceAt_escape (h : startsWith (Utf8.bytes css) pos "/*" = .ok false)
    (hb : (Utf8.bytes css)[pos]? = some '\\'.toUInt8)
    (hskip : skipEscape css pos file = .ok stop) :
    pieceAt css file pos = .ok (.escape (between (Utf8.bytes css) pos stop), stop) := by
  unfold pieceAt
  dsimp only
  rw [h, ok_bind, if_neg Bool.false_ne_true, byteAt_of_getElem? hb, ok_bind, if_neg (by decide),
    if_pos (beq_self_eq_true _), hskip]
  rfl

theorem pieceAt_visible (h : startsWith (Utf8.bytes css) pos "/*" = .ok false)
    (hb : (Utf8.bytes css)[pos]? = some b) (hq : isQuote b = false)
    (he : (b == '\\'.toUInt8) = false) :
    pieceAt css file pos = .ok (.visible b, pos + 1) := by
  unfold pieceAt
  dsimp only
  rw [h, ok_bind, if_neg Bool.false_ne_true, byteAt_of_getElem? hb, ok_bind,
    if_neg (by rw [hq]; exact Bool.false_ne_true), if_neg (by rw [he]; exact Bool.false_ne_true)]
  rfl

theorem Visible.piece (h : Visible css file pos b) :
    pieceAt css file pos = .ok (.visible b, pos + 1) :=
  pieceAt_visible h.comment h.byte h.quote h.escape

/-! ## Calls of `source` -/

theorem elide_comment (h : p.isComment = true) : elide (p :: ps) = elide ps := by
  simp [elide, h]

theorem elide_cons (h : p.isComment = false) : elide (p :: ps) = p :: elide ps := by
  simp [elide, h]

theorem elide_append (ps qs : List Piece) : elide (ps ++ qs) = elide ps ++ elide qs := by
  simp [elide]

theorem elide_visibles (bytes : Bytes) : elide (visibles bytes) = visibles bytes := by
  unfold elide visibles
  rw [List.filter_eq_self]
  intro p hp
  obtain ⟨b, -, rfl⟩ := List.mem_map.mp hp
  rfl

/-- The comments before a piece are skipped. -/
theorem commentsLoop_run (hps : pieces css file pos = .ok ps) (h : elide ps = p :: qs) :
    ∃ next stop rest, (commentsLoop (Utf8.bytes css) file).run pos = .ok next ∧
      pieceAt css file next = .ok (p, stop) ∧ pieces css file stop = .ok rest ∧ elide rest = qs := by
  induction ps generalizing pos with
  | nil => cases h
  | cons r ps ih =>
      obtain ⟨stop, hr, hrest⟩ := pieces_uncons hps
      rcases pieceAt_cases hr with ⟨hc, hstarts, hskip⟩ | ⟨hc, hstarts, -⟩
      · rw [elide_comment hc] at h
        obtain ⟨next, stop', rest, hrun, hnext⟩ := ih hrest h
        exact ⟨next, stop', rest, (While.Loop.run_next hstarts hskip).trans hrun, hnext⟩
      · rw [elide_cons hc] at h
        cases h
        exact ⟨pos, stop, ps, While.Loop.run_stop hstarts, hr, hrest, rfl⟩

theorem sourceLetters_true {letters call : Bytes} (hps : pieces css file pos = .ok ps)
    (h : elide ps = visibles call ++ qs) (hcall : call.map lower = letters.map lower) :
    sourceLetters (Utf8.bytes css) file letters pos = .ok true := by
  induction letters generalizing pos ps call with
  | nil => rfl
  | cons letter letters ih =>
      cases call with
      | nil => cases hcall
      | cons c call =>
          rw [List.map_cons, List.map_cons, List.cons.injEq] at hcall
          obtain ⟨next, stop, rest, hrun, hnext, hrest, helide⟩ :=
            commentsLoop_run hps h
          rcases pieceAt_cases hnext with ⟨hc, -⟩ | ⟨-, -, hvisible⟩
          · cases hc
          · obtain ⟨hb, rfl⟩ := hvisible c rfl
            unfold sourceLetters
            rw [hrun, ok_bind, hb, if_pos]
            · exact ih hrest helide hcall.2
            · simpa [eqIgnoreCase] using hcall.1

/-- No call of `source` starts at a visible byte that the scanner let pass. -/
theorem Visible.not_calls (hv : Visible css file pos b)
    (hps : pieces css file pos = .ok (.visible b :: ps)) :
    ¬CallsSource (.visible b :: elide ps) := by
  rintro ⟨call, rest, heq, hcall⟩
  have helide : elide (.visible b :: ps) = visibles call ++ rest := (elide_cons rfl).trans heq
  have hs : lower b = 's'.toUInt8 := by
    cases call with
    | nil => cases hcall
    | cons c call =>
        rw [List.map_cons] at hcall
        obtain ⟨hc, -⟩ := List.cons.inj heq
        cases hc
        exact (List.cons.inj hcall).1
  have htoken : sourceToken (Utf8.bytes css) pos file = .ok true := by
    unfold sourceToken
    rw [byteAt_of_getElem? hv.byte, ok_bind, if_neg]
    · exact sourceLetters_true hps helide (hcall.trans (by decide))
    · rw [eqIgnoreCase, hs]
      decide
  rw [hv.source] at htoken
  cases htoken

/-! ## Runs of bytes -/

variable {bytes run rest : Bytes}

theorem getElem?_of_drop (h : bytes.drop pos = b :: rest) :
    bytes[pos]? = some b ∧ bytes.drop (pos + 1) = rest := by
  constructor
  · have hzero : (bytes.drop pos)[0]? = some b := by rw [h]; rfl
    rwa [List.getElem?_drop, Nat.add_zero] at hzero
  · rw [← List.drop_drop, h]
    rfl

theorem startsWith_of_drop (h : bytes.drop pos = b :: rest) (hb : b ≠ '/'.toUInt8) :
    startsWith bytes pos "/*" = .ok false := by
  have hlt := (List.getElem?_eq_some_iff.mp (getElem?_of_drop h).1).1
  unfold startsWith
  rw [if_pos (Nat.le_of_lt hlt), h, Except.ok.injEq, Bool.eq_false_iff]
  intro hp
  rw [List.isPrefixOf_iff_prefix] at hp
  exact hb (List.cons_prefix_cons.1 hp).1.symm

/-- A byte that starts no comment, no string and no escape. -/
def isPlain (b : UInt8) : Bool := b != '/'.toUInt8 && !isQuote b && b != '\\'.toUInt8

theorem pieceAt_plain (h : (Utf8.bytes css)[pos]? = some b) (hb : isPlain b = true) :
    pieceAt css file pos = .ok (.visible b, pos + 1) := by
  obtain ⟨hlt, hget⟩ := List.getElem?_eq_some_iff.mp h
  have hdrop : (Utf8.bytes css).drop pos = b :: (Utf8.bytes css).drop (pos + 1) := by
    rw [List.drop_eq_getElem_cons hlt, hget]
  simp only [isPlain, Bool.and_eq_true, bne_iff_ne, ne_eq, Bool.not_eq_true'] at hb
  exact pieceAt_visible (startsWith_of_drop hdrop hb.1.1) h hb.1.2 (by simpa using hb.2)

theorem pieces_plain (h : (Utf8.bytes css).drop pos = run ++ rest)
    (hrun : ∀ b ∈ run, isPlain b = true) (hps : pieces css file (pos + run.length) = .ok ps) :
    pieces css file pos = .ok (visibles run ++ ps) := by
  induction run generalizing pos with
  | nil => exact hps
  | cons b run ih =>
      obtain ⟨hb, hdrop⟩ := getElem?_of_drop h
      refine pieces_cons (pieceAt_plain hb (hrun b List.mem_cons_self))
        (ih hdrop (fun c hc => hrun c (List.mem_cons_of_mem _ hc)) ?_)
      rw [List.length_cons] at hps
      rwa [Nat.add_assoc, Nat.add_comm 1]

theorem stringEnd_quoted {quote : UInt8} (h : bytes.drop pos = run ++ quote :: rest)
    (hrun : ∀ b ∈ run, b ≠ quote ∧ b ≠ '\\'.toUInt8) (hquote : quote ≠ '\\'.toUInt8) :
    stringEnd bytes quote pos file = .ok (pos + run.length + 1) := by
  induction run generalizing pos with
  | nil =>
      obtain ⟨hb, hlt⟩ := List.getElem?_eq_some_iff.mp (getElem?_of_drop h).1
      rw [stringEnd, dif_pos hb, if_neg (by rw [hlt]; simpa using hquote),
        if_pos (by rw [hlt]; exact beq_self_eq_true _)]
      rfl
  | cons c run ih =>
      obtain ⟨hget, hdrop⟩ := getElem?_of_drop h
      obtain ⟨hb, hlt⟩ := List.getElem?_eq_some_iff.mp hget
      have hc := hrun c List.mem_cons_self
      rw [stringEnd, dif_pos hb, if_neg (by rw [hlt]; simpa using hc.2),
        if_neg (by rw [hlt]; simpa using hc.1),
        ih hdrop fun d hd => hrun d (List.mem_cons_of_mem _ hd), List.length_cons]
      congr 1
      omega

/-- Bytes that a quoted path may have. -/
def isUnquoted (b : UInt8) : Bool := !isQuote b && b != '\\'.toUInt8

theorem isQuote_cases (h : isQuote b = true) : b = '\''.toUInt8 ∨ b = '"'.toUInt8 := by
  simpa [isQuote] using h

theorem pieceAt_quoted {quote : UInt8} {path : String}
    (h : (Utf8.bytes css).drop pos = quoted quote path ++ rest) (hq : isQuote quote = true)
    (hpath : ∀ b ∈ Utf8.bytes path.toList, isUnquoted b = true) :
    pieceAt css file pos =
      .ok (.string (quoted quote path), pos + (quoted quote path).length) := by
  have hdrop : (Utf8.bytes css).drop pos =
      quote :: (Utf8.bytes path.toList ++ quote :: rest) := by
    rw [h, quoted]
    simp
  obtain ⟨hb, hnext⟩ := getElem?_of_drop hdrop
  have hslash : quote ≠ '/'.toUInt8 ∧ quote ≠ '\\'.toUInt8 := by
    rcases isQuote_cases hq with rfl | rfl <;> decide
  have hend : skipString (Utf8.bytes css) pos file = .ok (pos + (quoted quote path).length) := by
    unfold skipString
    rw [byteAt_of_getElem? hb, ok_bind, stringEnd_quoted hnext _ hslash.2]
    · simp only [quoted, List.length_cons, List.length_append, List.length_nil]
      congr 1
      omega
    · intro c hc
      have hplain := hpath c hc
      simp only [isUnquoted, Bool.and_eq_true, Bool.not_eq_true', bne_iff_ne, ne_eq] at hplain
      refine ⟨?_, hplain.2⟩
      rintro rfl
      rw [hq] at hplain
      cases hplain.1
  rw [pieceAt_string (startsWith_of_drop hdrop hslash.1) hb hq hend]
  simp [between, h]

/-! ## Arguments -/

theorem trim_eq {α : Type} {p : α → Bool} {l r core : List α} {a z : α}
    (hl : ∀ x ∈ l, p x = true) (hr : ∀ x ∈ r, p x = true) (ha : core.head? = some a)
    (hpa : p a = false) (hz : core.getLast? = some z) (hpz : p z = false) :
    ((l ++ core ++ r).dropWhile p).rdropWhile p = core := by
  obtain ⟨mid, rfl⟩ := List.head?_eq_some_iff.mp ha
  obtain ⟨init, hinit⟩ := List.getLast?_eq_some_iff.mp hz
  have hleft : (l ++ (a :: mid) ++ r).dropWhile p = a :: mid ++ r := by
    rw [List.append_assoc, List.dropWhile_append_of_pos hl, List.cons_append,
      List.dropWhile_cons_of_neg (by rw [hpa]; exact Bool.false_ne_true)]
  rw [hleft, List.rdropWhile, List.reverse_append,
    List.dropWhile_append_of_pos fun x hx => hr x (List.mem_reverse.mp hx), hinit,
    List.reverse_append, List.reverse_singleton, List.singleton_append,
    List.dropWhile_cons_of_neg (by rw [hpz]; exact Bool.false_ne_true), List.reverse_cons,
    List.reverse_reverse]

/-- A trimmed text stands between blanks. -/
theorem asciiTrim_spec (text : Text) : ∃ l r, text = l ++ asciiTrim text ++ r ∧
    (∀ c ∈ l, isTrimmed c = true) ∧ ∀ c ∈ r, isTrimmed c = true := by
  refine ⟨text.takeWhile isTrimmed, (text.dropWhile isTrimmed).rtakeWhile isTrimmed, ?_,
    fun c => List.mem_takeWhile_imp, fun c => List.mem_rtakeWhile_imp⟩
  rw [asciiTrim, List.append_assoc, List.rdropWhile_append_rtakeWhile,
    List.takeWhile_append_dropWhile]

theorem blank_of_trimmed {text : Text} (h : ∀ c ∈ text, isTrimmed c = true) :
    ∀ b ∈ Utf8.bytes text, isBlankByte b = true := by
  intro b hb
  obtain ⟨c, hc, hb⟩ := List.mem_flatMap.mp hb
  have hcases : c = ' ' ∨ c = '\t' ∨ c = '\n' ∨ c = '\r' ∨ c = Char.ofNat 12 := by
    simpa [isTrimmed, or_assoc] using h c hc
  rcases hcases with rfl | rfl | rfl | rfl | rfl <;>
    (simp only [String.utf8EncodeChar] at hb; simp_all; decide)

theorem slice_ok {t : Text} {start : ℕ} (h : slice css start stop = .ok t) :
    Utf8.slice css start stop = some t := by
  unfold slice at h
  split at h
  · case _ u hu => cases h; exact hu
  · cases h

/-- A quoted argument is a quote, bytes that are neither quotes nor backslashes,
and the same quote. -/
theorem quotedOnly_ok {text path : Text} (h : quotedOnly text = .ok (some path)) :
    ∃ quote, isQuote quote = true ∧ Utf8.bytes text = quoted quote (String.ofList path) ∧
      ∀ b ∈ Utf8.bytes path, isUnquoted b = true := by
  unfold quotedOnly at h
  dsimp only at h
  split at h
  · cases h
  · case _ quote hhead =>
    split at h
    · cases h
    · case _ hcond =>
      replace h := bind_ok h
      obtain ⟨inner, hinner, h⟩ := h
      split at h
      · cases h
      · case _ hclean =>
        cases h
        simp only [Bool.or_eq_true, Bool.not_eq_true', decide_eq_true_eq, not_or,
          Bool.not_eq_false, Decidable.not_not, not_lt] at hcond
        obtain ⟨⟨hquote, hlast⟩, hlength⟩ := hcond
        refine ⟨quote, hquote, ?_, ?_⟩
        · obtain ⟨tail, htail⟩ := List.head?_eq_some_iff.mp hhead
          obtain ⟨init, hinit⟩ := List.getLast?_eq_some_iff.mp hlast
          have hdrop := Utf8.slice_drop (slice_ok hinner)
          have hend : (Utf8.bytes text).drop ((Utf8.bytes text).length - 1) = [quote] := by
            rw [hinit]
            simp
          rw [hend, htail, List.drop_one, List.tail_cons] at hdrop
          rw [htail, hdrop, quoted, String.toList_ofList]
        · intro b hb
          rw [isUnquoted, Bool.and_eq_true, Bool.not_eq_true', bne_iff_ne]
          have hmem : ∀ c : Char, c.val.toNat < 128 → c ∈ "'\"\\\n\r".toList →
              b ≠ c.toUInt8 := by
            rintro c hc hbad rfl
            have hnat : c.toUInt8.toNat = c.val.toNat := by
              simp only [Char.toUInt8, UInt32.toNat_toUInt8]
              omega
            obtain ⟨d, hd, hval⟩ := Utf8.mem_of_mem_bytes hb (by omega)
            have hdc : d = c := Char.ext (UInt32.toNat_inj.mp (by omega))
            subst hdc
            exact hclean (List.any_eq_true.mpr ⟨d, hd, by simpa using hbad⟩)
          refine ⟨?_, hmem '\\' (by decide) (by decide)⟩
          rw [Bool.eq_false_iff]
          intro hq
          rcases isQuote_cases hq with hq | hq
          · exact hmem '\'' (by decide) (by decide) hq
          · exact hmem '"' (by decide) (by decide) hq

/-- What a rule names, and what follows its quoted part. -/
def Edge.path : Edge → String
  | .root _ => "tailwindcss"
  | .import _ path | .source _ path => path

def Edge.tail : Edge → Bytes
  | .root _ => Utf8.bytes " source(none)".toList
  | _ => []

def Edge.ruleName : Edge → String
  | .root _ | .import _ _ => "import"
  | .source _ _ => "source"

theorem Edge.rule_eq (e : Edge) :
    e.rule = ⟨Utf8.bytes e.ruleName.toList, quoted e.quote e.path ++ e.tail⟩ := by
  cases e with
  | root quote => rfl
  | «import» quote path => exact congrArg _ (List.append_nil _).symm
  | source quote path => exact congrArg _ (List.append_nil _).symm

/-- The rule is one that a pass may have read: its quoted part is a string. -/
structure Edge.Sound (e : Edge) : Prop where
  quote : isQuote e.quote = true
  path : ∀ b ∈ Utf8.bytes e.path.toList, isUnquoted b = true

variable {printable : Char → Bool} {s s' : Scanner} {name : String} {cursor : ℕ}
  {argument : Text} {result : Directives}

/-- What a rule records is what its argument says. -/
theorem record_ok (hname : name = "import" ∨ name = "source")
    (h : record printable css file s name stop cursor argument = .ok result) :
    ∃ e : Edge, e.Sound ∧ e.ruleName = name ∧
      Utf8.bytes argument = quoted e.quote e.path ++ e.tail ∧ result = s.result.add e := by
  unfold record at h
  split at h
  · case _ himport =>
    unfold recordImport at h
    split at h
    · case _ hroot =>
      split at h
      · cases h
      · cases h
        simp only [rootImports, List.contains_iff_mem, List.mem_cons, List.not_mem_nil,
          or_false] at hroot
        rcases hroot with rfl | rfl
        · exact ⟨.root '"'.toUInt8, ⟨rfl, by decide +kernel⟩, himport.symm, rfl, rfl⟩
        · exact ⟨.root '\''.toUInt8, ⟨rfl, by decide +kernel⟩, himport.symm, rfl, rfl⟩
    · obtain ⟨u, -, h⟩ := bind_ok h
      obtain ⟨v, -, h⟩ := bind_ok h
      replace h := bind_ok h
      obtain ⟨path, hpath, h⟩ := h
      split at h
      · cases h
      · case _ text =>
        split at h
        · cases h
          obtain ⟨quote, hquote, hbytes, hclean⟩ := quotedOnly_ok hpath
          refine ⟨.import quote (String.ofList text), ⟨hquote, ?_⟩, himport.symm, ?_, rfl⟩
          · rwa [Edge.path, String.toList_ofList]
          · exact hbytes.trans (List.append_nil _).symm
        · cases h
  · case _ himport =>
    have hsource : name = "source" := hname.resolve_left himport
    unfold recordSource at h
    obtain ⟨u, -, h⟩ := bind_ok h
    split at h
    · cases h
    · replace h := bind_ok h
      obtain ⟨path, hpath, h⟩ := h
      cases h
      unfold sourcePath at hpath
      split at hpath
      · cases hpath
      · replace hpath := bind_ok hpath
        obtain ⟨inner, hinner, hpath⟩ := hpath
        split at hpath
        · cases hpath
        · split at hpath
          · cases hpath
            obtain ⟨quote, hquote, hbytes, hclean⟩ := quotedOnly_ok hinner
            refine ⟨.source quote (String.ofList path), ⟨hquote, ?_⟩, hsource.symm, ?_, rfl⟩
            · rwa [Edge.path, String.toList_ofList]
            · exact hbytes.trans (List.append_nil _).symm
          · cases hpath

/-! ## Calls of `source`, piece by piece -/

/-- Every call of `source` is that of a root import, whatever stands before. -/
def CallsOk (ps : List Piece) : Prop :=
  ∀ left before after, ps = before ++ after → CallsSource after → InRootImport (left ++ before) after

/-- The pieces at which a call can start. -/
def Piece.startsCall : Piece → Bool
  | .visible b => lower b == 's'.toUInt8
  | _ => false

theorem startsCall_of_calls (h : CallsSource (p :: ps)) : p.startsCall = true := by
  obtain ⟨call, rest, heq, hcall⟩ := h
  cases call with
  | nil => cases hcall
  | cons c call =>
      obtain ⟨rfl, -⟩ := List.cons.inj heq
      rw [List.map_cons] at hcall
      rw [Piece.startsCall, beq_iff_eq]
      exact (List.cons.inj hcall).1

theorem callsOk_nil : CallsOk [] := by
  intro left before after h hcall
  obtain ⟨rfl, rfl⟩ := List.append_eq_nil_iff.mp h.symm
  obtain ⟨call, rest, heq, hcall⟩ := hcall
  cases call with
  | nil => cases hcall
  | cons c call => cases heq

theorem CallsOk.cons (h : CallsOk ps) (hp : ¬CallsSource (p :: ps)) : CallsOk (p :: ps) := by
  intro left before after heq hcall
  cases before with
  | nil =>
      rw [List.nil_append] at heq
      rw [← heq] at hcall
      exact absurd hcall hp
  | cons q before =>
      obtain ⟨rfl, hrest⟩ := List.cons.inj heq
      have hin := h (left ++ [p]) before after hrest hcall
      rwa [List.append_assoc, List.singleton_append] at hin

theorem CallsOk.append (h : CallsOk ps) (hq : ∀ q ∈ qs, q.startsCall = false) :
    CallsOk (qs ++ ps) := by
  induction qs with
  | nil => exact h
  | cons q qs ih =>
      refine (ih fun r hr => hq r (List.mem_cons_of_mem _ hr)).cons ?_
      intro hcall
      have hstarts := startsCall_of_calls hcall
      rw [hq q List.mem_cons_self] at hstarts
      cases hstarts

/-- The one call of a root import. -/
theorem CallsOk.root (h : CallsOk ps) (hq : ∀ q ∈ qs, q.startsCall = false)
    (hroot : ∀ left, InRootImport (left ++ qs) (p :: ps)) : CallsOk (qs ++ p :: ps) := by
  intro left before after heq hcall
  have hhere : before = qs → after = p :: ps → InRootImport (left ++ before) after := by
    rintro rfl rfl
    exact hroot left
  rcases List.append_eq_append_iff.mp heq with ⟨middle, hbefore, hafter⟩ | ⟨middle, hqs, hafter⟩
  · cases middle with
    | nil => exact hhere (by rw [hbefore, List.append_nil]) hafter.symm
    | cons r middle =>
        obtain ⟨rfl, hps⟩ := List.cons.inj hafter
        have hin := h (left ++ qs ++ [p]) middle after hps hcall
        rw [hbefore]
        simpa using hin
  · cases middle with
    | nil => exact hhere (by rw [hqs, List.append_nil]) hafter
    | cons r middle =>
        rw [hafter] at hcall
        have hstarts := startsCall_of_calls hcall
        rw [hq r (by rw [hqs]; simp)] at hstarts
        cases hstarts

theorem isNameByte_of_lower (h : isAlphabetic (lower b) = true) : isNameByte b = true := by
  unfold isNameByte
  rw [Bool.or_eq_true]
  left
  unfold lower at h
  split at h
  · case _ hupper =>
    rw [isAlphabetic, Bool.or_eq_true]
    exact .inl hupper
  · exact h

theorem eq_paren_of_lower (h : lower b = '('.toUInt8) : b = '('.toUInt8 := by
  unfold lower at h
  split at h
  · case _ hupper =>
    rw [isUpper, Bool.and_eq_true, decide_eq_true_eq, decide_eq_true_eq, UInt8.le_iff_toNat_le,
      UInt8.le_iff_toNat_le] at hupper
    have hnat := congrArg UInt8.toNat h
    rw [UInt8.toNat_add] at hnat
    have hvals : 'A'.toUInt8.toNat = 65 ∧ 'Z'.toUInt8.toNat = 90 ∧ '('.toUInt8.toNat = 40 ∧
        (32 : UInt8).toNat = 32 := ⟨rfl, rfl, rfl, rfl⟩
    omega
  · exact h

/-- No call starts in a name that ends there, unless the name is `source` and a
parenthesis follows. -/
theorem not_calls_name {u : Bytes} (hu : ∀ c ∈ u, isNameByte c = true)
    (hend : ∀ q ∈ ps.head?, q.continuesName = false)
    (hsource : u.map lower = Utf8.bytes "source".toList →
      ps.head? ≠ some (.visible '('.toUInt8)) : ¬CallsSource (visibles u ++ ps) := by
  rintro ⟨call, rest, heq, hcall⟩
  have hparen : ¬∀ c ∈ call, isNameByte c = true := by
    intro hall
    have hmem : '('.toUInt8 ∈ call.map lower := by
      rw [hcall]
      decide
    obtain ⟨c, hc, hlower⟩ := List.mem_map.mp hmem
    have hname := hall c hc
    rw [eq_paren_of_lower hlower] at hname
    cases hname
  unfold visibles at heq
  rcases List.append_eq_append_iff.mp heq with ⟨middle, hleft, hright⟩ | ⟨middle, hleft, -⟩
  · -- the call goes on behind the name
    obtain ⟨u', v, rfl, hu', rfl⟩ := List.map_eq_append_iff.mp hleft
    obtain rfl : u' = u := List.map_injective_iff.mpr (fun a b h => by cases h; rfl) hu'
    cases v with
    | nil => exact hparen (by rwa [List.append_nil])
    | cons c v =>
        rw [hright] at hend hsource
        have hc := hend (.visible c) rfl
        rw [List.map_append, List.map_cons] at hcall
        rcases List.eq_nil_or_concat v with rfl | ⟨w, z, rfl⟩
        · have hsplit : u'.map lower ++ [lower c] = Utf8.bytes "source".toList ++ ['('.toUInt8] :=
            hcall
          obtain ⟨hname, hlower⟩ := List.append_inj' hsplit rfl
          rw [eq_paren_of_lower (List.cons.inj hlower).1] at hsource
          exact hsource hname rfl
        · have hsplit : (u'.map lower ++ lower c :: w.map lower) ++ [lower z] =
              Utf8.bytes "source".toList ++ ['('.toUInt8] := by
            rw [← show sourceCall = Utf8.bytes "source".toList ++ ['('.toUInt8] from rfl, ← hcall]
            simp
          have hmem : lower c ∈ Utf8.bytes "source".toList := by
            rw [← (List.append_inj' hsplit rfl).1]
            simp
          have hletters : ∀ x ∈ Utf8.bytes "source".toList, isAlphabetic x = true := by decide +kernel
          rw [Piece.continuesName, isNameByte_of_lower (hletters _ hmem)] at hc
          cases hc
  · obtain ⟨v, w, rfl, hv, -⟩ := List.map_eq_append_iff.mp hleft
    obtain rfl : v = call := List.map_injective_iff.mpr (fun a b h => by cases h; rfl) hv
    exact hparen fun c hc => hu c (List.mem_append_left _ hc)

/-- The pieces of a name, none of whose suffixes calls. -/
theorem CallsOk.named {u : Bytes} (h : CallsOk ps) (hu : ∀ c ∈ u, isNameByte c = true)
    (hend : ∀ q ∈ ps.head?, q.continuesName = false)
    (hsource : ∀ v, v <:+ u → v.map lower = Utf8.bytes "source".toList →
      ps.head? ≠ some (.visible '('.toUInt8)) : CallsOk (visibles u ++ ps) := by
  induction u with
  | nil => exact h
  | cons c u ih =>
      refine CallsOk.cons (ih (fun d hd => hu d (List.mem_cons_of_mem _ hd)) ?_) ?_
      · exact fun v hv => hsource v (hv.trans (List.suffix_cons c u))
      · exact not_calls_name hu hend (hsource _ List.suffix_rfl)

/-! ## What is accepted behind a place -/

structure Accepted (m : Place) (depth : ℕ) (ps : List Piece) (edges : List Edge) : Prop where
  atSigns : Everywhere AtSign m ps
  rules : (atRules ps).filter AtRule.isGraph = edges.map Edge.rule
  closes : Closes depth m.parens (brackets m ps)
  sound : ∀ e ∈ edges, e.Sound

namespace Accepted

variable {m m' : Place} {depth depth' : ℕ} {edges new : List Edge}

theorem nil (h : m.parens = 0) : Accepted m 0 [] [] := by
  refine ⟨everywhere_nil _ _, rfl, ?_, by simp⟩
  rw [h]
  exact .done

/-- One more piece in front. -/
theorem cons (h : Accepted (m.next p ps) depth' ps edges) (hp : p ≠ .visible '@'.toUInt8)
    (hb : ∀ w, Closes depth' (m.next p ps).parens w → Closes depth m.parens (m.bracket p ++ w)) :
    Accepted m depth (p :: ps) edges := by
  refine ⟨everywhere_cons (fun heq => absurd heq hp) h.atSigns, ?_, hb _ h.closes, h.sound⟩
  rw [atRules, if_neg hp]
  exact h.rules

/-- One more at-rule in front. -/
theorem atSign (h : Accepted (m.next (.visible '@'.toUInt8) ps) depth ps edges)
    (hm : AtSign m (.visible '@'.toUInt8) ps)
    (hparens : (m.next (.visible '@'.toUInt8) ps).parens = m.parens)
    (hrule : [(⟨nameBytes ps, trimBytes (argumentBytes (ps.drop (nameBytes ps).length))⟩ : AtRule)].filter
      AtRule.isGraph = new.map Edge.rule) (hnew : ∀ e ∈ new, e.Sound) :
    Accepted m depth (.visible '@'.toUInt8 :: ps) (new ++ edges) := by
  refine ⟨everywhere_cons hm h.atSigns, ?_, ?_, ?_⟩
  · rw [atRules, if_pos rfl, ← List.singleton_append, List.filter_append, hrule, h.rules,
      List.map_append]
  · have hcloses := h.closes
    rw [hparens] at hcloses
    exact hcloses
  · intro e he
    rcases List.mem_append.mp he with he | he
    · exact hnew e he
    · exact h.sound e he

/-- Two places that the first piece leads to the same place. -/
theorem congr (h : Accepted m' depth (p :: ps) edges) (hp : p ≠ .visible '@'.toUInt8)
    (hnext : m'.next p ps = m.next p ps) (hb : m'.bracket p = m.bracket p)
    (hparens : m'.parens = m.parens) : Accepted m depth (p :: ps) edges := by
  refine ⟨everywhere_cons (fun heq => absurd heq hp) ?_, h.rules, ?_, h.sound⟩
  · rw [← hnext]
    rintro before q after rfl
    exact h.atSigns (p :: before) q after rfl
  · have hcloses := h.closes
    unfold brackets at hcloses ⊢
    rwa [hnext, hb, hparens] at hcloses

end Accepted

/-- A piece that changes nothing inside a statement. -/
def Piece.inert : Piece → Bool
  | .visible b => !isBracket b && b != ';'.toUInt8 && b != '@'.toUInt8
  | _ => true

theorem Place.next_inert {m : Place} (hc : m.content = true) (hn : m.custom = none)
    (hp : p.inert = true) : m.next p ps = m := by
  obtain ⟨parens, content, custom⟩ := m
  obtain rfl : content = true := hc
  obtain rfl : custom = none := hn
  cases p with
  | visible b =>
      simp only [Piece.inert, isBracket, Bool.and_eq_true, Bool.not_eq_true', Bool.or_eq_false_iff,
        bne_iff_ne, ne_eq, beq_eq_false_iff_ne] at hp
      obtain ⟨⟨⟨⟨hopen, hclose⟩, hbrace⟩, hend⟩, -⟩ := hp
      simp [Place.next, outsideCustom, hopen, hclose, hbrace, hend]
  | _ => rfl

theorem Place.bracket_inert {m : Place} (hp : p.inert = true) : m.bracket p = [] := by
  cases p with
  | visible b =>
      simp only [Piece.inert, Bool.and_eq_true, Bool.not_eq_true'] at hp
      simp [bracket, hp.1.1]
  | _ => rfl

theorem Accepted.inert {m : Place} {depth : ℕ} {edges : List Edge}
    (h : Accepted m depth ps edges) (hc : m.content = true) (hn : m.custom = none)
    (hq : ∀ q ∈ qs, q.inert = true) : Accepted m depth (qs ++ ps) edges := by
  induction qs with
  | nil => exact h
  | cons q qs ih =>
      have hinert := hq q List.mem_cons_self
      have hnext : m.next q (qs ++ ps) = m := Place.next_inert hc hn hinert
      have hrest : Accepted (m.next q (qs ++ ps)) depth (qs ++ ps) edges := by
        rw [hnext]
        exact ih fun r hr => hq r (List.mem_cons_of_mem _ hr)
      refine hrest.cons ?_ ?_
      · rintro rfl
        cases hinert
      · intro w hw
        rw [hnext] at hw
        rwa [Place.bracket_inert hinert]

/-! ## One at-rule -/

theorem isPlain_of_name (h : isNameByte b = true) : isPlain b = true := by
  rw [isPlain, Bool.and_eq_true, Bool.and_eq_true, bne_iff_ne, bne_iff_ne, Bool.not_eq_true']
  refine ⟨⟨?_, ?_⟩, ?_⟩
  · rintro rfl
    cases h
  · rw [Bool.eq_false_iff]
    intro hq
    rcases isQuote_cases hq with rfl | rfl <;> cases h
  · rintro rfl
    cases h

theorem inert_of_name (h : isNameByte b = true) : (Piece.visible b).inert = true := by
  simp only [Piece.inert, isBracket, isBrace, Bool.and_eq_true, Bool.not_eq_true', bne_iff_ne, ne_eq,
    Bool.or_eq_false_iff, beq_eq_false_iff_ne]
  refine ⟨⟨⟨⟨?_, ?_⟩, ?_, ?_⟩, ?_⟩, ?_⟩ <;> (rintro rfl; cases h)

theorem isBlankByte_cases (h : isBlankByte b = true) : b = ' '.toUInt8 ∨ b = '\t'.toUInt8 ∨
    b = '\n'.toUInt8 ∨ b = '\r'.toUInt8 ∨ b = 12 := by
  simpa [isBlankByte, or_assoc] using h

theorem isPlain_of_blank (h : isBlankByte b = true) : isPlain b = true := by
  rcases isBlankByte_cases h with rfl | rfl | rfl | rfl | rfl <;> rfl

theorem inert_of_blank (h : isBlankByte b = true) : (Piece.visible b).inert = true := by
  rcases isBlankByte_cases h with rfl | rfl | rfl | rfl | rfl <;> rfl

theorem inert_visibles (h : ∀ b ∈ bytes, (Piece.visible b).inert = true) :
    ∀ q ∈ visibles bytes, q.inert = true := by
  intro q hq
  obtain ⟨b, hb, rfl⟩ := List.mem_map.mp hq
  exact h b hb

/-- The bytes of a rule's name. -/
theorem ruleName_bytes (h : ruleName css pos file = .ok (name, stop)) :
    (Utf8.bytes css).drop (pos + 1) = Utf8.bytes name.toList ++ (Utf8.bytes css).drop stop ∧
      pos + 1 + (Utf8.bytes name.toList).length = stop ∧
      ∀ c ∈ Utf8.bytes name.toList, isNameByte c = true := by
  obtain ⟨hstop, -, hslice, -⟩ := ruleName_ok h
  obtain ⟨before, after, -, -, hlength⟩ := Utf8.slice_spec (slice_ok hslice)
  have hdrop := Utf8.slice_drop (slice_ok hslice)
  have hname : Utf8.bytes name.toList = ((Utf8.bytes css).drop (pos + 1)).takeWhile isNameByte := by
    have hsplit : (Utf8.bytes css).drop (pos + 1) =
        ((Utf8.bytes css).drop (pos + 1)).takeWhile isNameByte ++
          ((Utf8.bytes css).drop (pos + 1)).dropWhile isNameByte :=
      List.takeWhile_append_dropWhile.symm
    unfold nameEnd at hstop
    refine (List.append_inj (hdrop.symm.trans hsplit) ?_).1
    omega
  refine ⟨hdrop, hlength, ?_⟩
  rw [hname]
  exact fun c => List.mem_takeWhile_imp

theorem takeWhile_stops {α : Type} {p : α → Bool} {l : List α} {a : α}
    (h : l[(l.takeWhile p).length]? = some a) : p a = false := by
  induction l with
  | nil => cases h
  | cons x l ih =>
      cases hx : p x with
      | true =>
          rw [List.takeWhile_cons_of_pos hx, List.length_cons, List.getElem?_cons_succ] at h
          exact ih h
      | false =>
          rw [List.takeWhile_cons_of_neg (by rw [hx]; exact Bool.false_ne_true), List.length_nil,
            List.getElem?_cons_zero, Option.some.injEq] at h
          rw [← h]
          exact hx

/-- What follows a rule's name does not go on with it. -/
theorem ruleName_ends (h : ruleName css pos file = .ok (name, stop))
    (hps : pieces css file stop = .ok ps) : ∀ q ∈ ps.head?, q.continuesName = false := by
  obtain ⟨hstop, hcomment, -, -, hmalformed⟩ := ruleName_ok h
  intro q hq
  cases ps with
  | nil => cases hq
  | cons r ps =>
      cases hq
      obtain ⟨next, hpiece, -⟩ := pieces_uncons hps
      rcases pieceAt_cases hpiece with ⟨-, hstarts, -⟩ | ⟨hc, -, hvisible⟩
      · rw [hcomment] at hstarts
        cases hstarts
      · cases q with
        | comment text => cases hc
        | visible c =>
            obtain ⟨hget, -⟩ := hvisible c rfl
            rw [hget, Option.any_some, Bool.or_eq_false_iff] at hmalformed
            rw [Piece.continuesName, Bool.or_eq_false_iff, Bool.or_eq_false_iff]
            refine ⟨⟨?_, hmalformed.1⟩, hmalformed.2⟩
            rw [hstop, nameEnd, ← List.getElem?_drop] at hget
            exact takeWhile_stops hget
        | _ => rfl

theorem head?_elide (h : ∀ q ∈ ps.head?, q.continuesName = false) : (elide ps).head? = ps.head? := by
  cases ps with
  | nil => rfl
  | cons q ps =>
      have hq := h q rfl
      cases q with
      | comment text => cases hq
      | _ => rfl

theorem nameBytes_run {n : Bytes} (hn : ∀ c ∈ n, isNameByte c = true)
    (h : ∀ q ∈ ps.head?, q.continuesName = false) : nameBytes (visibles n ++ ps) = n := by
  induction n with
  | nil =>
      cases ps with
      | nil => rfl
      | cons q ps =>
          have hq := h q rfl
          cases q with
          | visible c =>
              rw [Piece.continuesName, Bool.or_eq_false_iff, Bool.or_eq_false_iff] at hq
              simp [visibles, nameBytes, hq.1.1]
          | _ => rfl
  | cons c n ih =>
      have hrest := ih fun d hd => hn d (List.mem_cons_of_mem _ hd)
      change (if isNameByte c = true then c :: nameBytes (visibles n ++ ps) else []) = c :: n
      rw [if_pos (hn c List.mem_cons_self), hrest]

theorem Place.next_at {m : Place} (hc : m.custom = none) :
    m.next (.visible '@'.toUInt8) ps = { m with content := true } := by
  obtain ⟨parens, content, custom⟩ := m
  obtain rfl : custom = none := hc
  simp +decide [Place.next, outsideCustom, isBlankPiece]

/-- No allowed name but `source` ends in `source`. -/
theorem allowed_suffix : ∀ name ∈ allowedRules, name ≠ "source" →
    ∀ v ∈ (Utf8.bytes name.toList).tails, v.map lower ≠ Utf8.bytes "source".toList := by
  decide +kernel

theorem allowed_bytes : ∀ name ∈ allowedRules, ∀ other ∈ ["import", "source"],
    Utf8.bytes name.toList = Utf8.bytes other.toList → name = other := by
  decide +kernel

/-- A rule that names no file. -/
theorem rule_back {m : Place} {depth : ℕ} {edges : List Edge} (hc : m.custom = none)
    (h : ruleName css pos file = .ok (name, stop)) (hgraph : name ≠ "import" ∧ name ≠ "source")
    (hps : pieces css file stop = .ok ps) (hcalls : CallsOk (elide ps))
    (ha : Accepted { m with content := true } depth ps edges) :
    CallsOk (visibles (Utf8.bytes name.toList) ++ elide ps) ∧
      Accepted m depth (.visible '@'.toUInt8 :: (visibles (Utf8.bytes name.toList) ++ ps)) edges := by
  obtain ⟨-, -, hname⟩ := ruleName_bytes h
  obtain ⟨-, -, -, hallowed, -⟩ := ruleName_ok h
  have hends := ruleName_ends h hps
  constructor
  · refine hcalls.named hname (by rwa [head?_elide hends]) ?_
    intro v hv hsource
    exact absurd hsource (allowed_suffix name hallowed hgraph.2 v ((List.mem_tails _ _).mpr hv))
  · have hinert := ha.inert rfl hc (inert_visibles fun b hb => inert_of_name (hname b hb))
    have hnext : m.next (.visible '@'.toUInt8) (visibles (Utf8.bytes name.toList) ++ ps) =
        { m with content := true } := Place.next_at hc
    rw [← hnext] at hinert
    rw [← List.nil_append edges]
    refine hinert.atSign ?_ ?_ ?_ (by simp)
    · exact fun _ => ⟨hc, name, hallowed, ps, rfl, hends, fun hg => absurd hg (by simp [hgraph])⟩
    · rw [Place.next_at hc]
    · rw [nameBytes_run hname hends, List.filter_cons_of_neg, List.filter_nil, List.map_nil]
      rw [AtRule.isGraph, Bool.or_eq_true, beq_iff_eq, beq_iff_eq]
      rintro (himport | hsource)
      · exact hgraph.1 (allowed_bytes name hallowed "import" (by simp) himport)
      · exact hgraph.2 (allowed_bytes name hallowed "source" (by simp) hsource)

/-- The bytes behind the name of an `@import` or `@source`: blanks, what the rule
says, blanks, a semicolon. -/
structure GraphBytes (css : Text) (stop cursor : ℕ) (e : Edge) (l r : Bytes) : Prop where
  nonempty : l ≠ []
  left : ∀ b ∈ l, isBlankByte b = true
  right : ∀ b ∈ r, isBlankByte b = true
  bytes : (Utf8.bytes css).drop stop = l ++ (quoted e.quote e.path ++ (e.tail ++
    (r ++ ';'.toUInt8 :: (Utf8.bytes css).drop (cursor + 1))))
  cursor : cursor = stop + l.length + (quoted e.quote e.path).length + e.tail.length + r.length

theorem isBlank_cases (h : isBlank bytes pos = true) (hb : bytes[pos]? = some b) :
    isBlankByte b = true := by
  simp only [isBlank, hb, Bool.or_eq_true, beq_iff_eq, Option.some.injEq, Bool.and_eq_true] at h
  rcases h with ((rfl | rfl) | rfl) | ⟨rfl, -⟩ <;> rfl

theorem argumentLoop_stops (h : (argumentLoop css file name).run stop = .ok cursor)
    (hlt : cursor < (Utf8.bytes css).length) :
    (Utf8.bytes css).drop cursor = ';'.toUInt8 :: (Utf8.bytes css).drop (cursor + 1) := by
  have hsemicolon := argumentLoop_semicolon h hlt
  rw [List.getElem?_eq_getElem hlt, Option.some.injEq] at hsemicolon
  rw [List.drop_eq_getElem_cons hlt, hsemicolon]

theorem Recorded.graphBytes {text : Text}
    (h : Recorded printable css file s s' name stop cursor text result) :
    ∃ e l r, e.Sound ∧ e.ruleName = name ∧ result = s.result.add e ∧
      GraphBytes css stop cursor e l r := by
  obtain ⟨e, hsound, hname, hargument, hresult⟩ := record_ok h.graph h.recorded
  obtain ⟨l, r, htext, hl, hr⟩ := asciiTrim_spec text
  obtain ⟨before, after, hcss, hbefore, hlength⟩ := Utf8.slice_spec (slice_ok h.sliced)
  have hbytes : Utf8.bytes text =
      Utf8.bytes l ++ (quoted e.quote e.path ++ e.tail) ++ Utf8.bytes r := by
    rw [← hargument, ← Utf8.bytes_append, ← Utf8.bytes_append, ← htext]
  have hle : cursor ≤ (Utf8.bytes css).length := by
    rw [hcss, Utf8.bytes_append, Utf8.bytes_append, List.length_append, List.length_append]
    omega
  have hdrop : (Utf8.bytes css).drop stop = Utf8.bytes l ++ (quoted e.quote e.path ++ (e.tail ++
      (Utf8.bytes r ++ ';'.toUInt8 :: (Utf8.bytes css).drop (cursor + 1)))) := by
    rw [Utf8.slice_drop (slice_ok h.sliced), hbytes,
      argumentLoop_stops h.scanned (Nat.lt_of_le_of_ne hle h.terminated)]
    simp only [List.append_assoc]
  refine ⟨e, Utf8.bytes l, Utf8.bytes r, hsound, hname, hresult, ?_, blank_of_trimmed hl,
    blank_of_trimmed hr, hdrop, ?_⟩
  · intro hnil
    rw [hnil, List.nil_append] at hdrop
    have hquote := isBlank_cases h.blank (getElem?_of_drop hdrop).1
    rcases isQuote_cases hsound.quote with hq | hq <;> (rw [hq] at hquote; cases hquote)
  · rw [hbytes] at hlength
    simp only [List.length_append] at hlength
    omega

/-- The pieces behind the name of an `@import` or `@source`. -/
def graphPieces (e : Edge) (l r : Bytes) : List Piece :=
  visibles l ++ (.string (quoted e.quote e.path) :: (visibles e.tail ++ visibles r))

theorem tail_plain (e : Edge) : ∀ b ∈ e.tail, isPlain b = true := by
  cases e with
  | root quote =>
      change ∀ b ∈ Utf8.bytes " source(none)".toList, isPlain b = true
      decide +kernel
  | «import» quote path => simp [Edge.tail]
  | source quote path => simp [Edge.tail]

theorem GraphBytes.pieces {e : Edge} {l r : Bytes} (h : GraphBytes css stop cursor e l r)
    (he : e.Sound) (hps : pieces css file (cursor + 1) = .ok ps) :
    pieces css file stop = .ok (graphPieces e l r ++ .visible ';'.toUInt8 :: ps) := by
  have hl : (Utf8.bytes css).drop (stop + l.length) = quoted e.quote e.path ++ (e.tail ++
      (r ++ ';'.toUInt8 :: (Utf8.bytes css).drop (cursor + 1))) := by
    rw [← List.drop_drop, h.bytes, List.drop_left]
  have hquoted : (Utf8.bytes css).drop (stop + l.length + (quoted e.quote e.path).length) =
      e.tail ++ (r ++ ';'.toUInt8 :: (Utf8.bytes css).drop (cursor + 1)) := by
    rw [← List.drop_drop, hl, List.drop_left]
  have htail : (Utf8.bytes css).drop
      (stop + l.length + (quoted e.quote e.path).length + e.tail.length) =
      r ++ ';'.toUInt8 :: (Utf8.bytes css).drop (cursor + 1) := by
    rw [← List.drop_drop, hquoted, List.drop_left]
  have hright : (Utf8.bytes css).drop cursor =
      [';'.toUInt8] ++ (Utf8.bytes css).drop (cursor + 1) := by
    rw [h.cursor, ← List.drop_drop, htail, List.drop_left, h.cursor]
    rfl
  have hsemicolon : ∀ b ∈ [';'.toUInt8], isPlain b = true := by
    intro b hb
    rw [List.mem_singleton.mp hb]
    rfl
  have hend := pieces_plain hright hsemicolon hps
  rw [h.cursor] at hend
  have hblanks := pieces_plain htail (fun b hb => isPlain_of_blank (h.right b hb)) hend
  have hcall := pieces_plain hquoted (tail_plain e) hblanks
  have hstring := pieces_cons (pieceAt_quoted hl he.quote he.path) hcall
  have hall := pieces_plain h.bytes (fun b hb => isPlain_of_blank (h.left b hb)) hstring
  rw [hall, graphPieces]
  simp [visibles]

theorem inert_graph {e : Edge} {l : Bytes} (hl : ∀ b ∈ l, isBlankByte b = true) :
    ∀ q ∈ visibles l ++ [.string (quoted e.quote e.path)], q.inert = true := by
  intro q hq
  rcases List.mem_append.mp hq with hq | hq
  · exact inert_visibles (fun b hb => inert_of_blank (hl b hb)) q hq
  · rw [List.mem_singleton] at hq
    rw [hq]
    rfl

theorem argumentBytes_append (h : ∀ q ∈ qs, q ≠ .visible ';'.toUInt8) :
    argumentBytes (qs ++ .visible ';'.toUInt8 :: ps) = qs.flatMap Piece.text := by
  induction qs with
  | nil => rfl
  | cons q qs ih =>
      rw [List.cons_append, argumentBytes, if_neg (h q List.mem_cons_self),
        ih fun r hr => h r (List.mem_cons_of_mem _ hr), List.flatMap_cons]

theorem text_visibles (bytes : Bytes) : (visibles bytes).flatMap Piece.text = bytes := by
  induction bytes with
  | nil => rfl
  | cons b bytes ih => exact congrArg (b :: ·) ih

theorem isGraph_rule (e : Edge) : e.rule.isGraph = true := by
  cases e <;> rfl

theorem last_argument (e : Edge) : (quoted e.quote e.path ++ e.tail).getLast? = some e.quote ∨
    (quoted e.quote e.path ++ e.tail).getLast? = some ')'.toUInt8 := by
  simp only [List.getLast?_eq_some_iff]
  cases e with
  | root quote =>
      right
      refine ⟨quoted quote "tailwindcss" ++ Utf8.bytes " source(none".toList, ?_⟩
      rw [List.append_assoc]
      rfl
  | «import» quote path =>
      exact .inl ⟨quote :: Utf8.bytes path.toList, List.append_nil (quoted quote path)⟩
  | source quote path =>
      exact .inl ⟨quote :: Utf8.bytes path.toList, List.append_nil (quoted quote path)⟩

/-- The trimmed argument of a rule is what the rule says. -/
theorem argument_graph {e : Edge} {l r : Bytes} (he : e.Sound) (hl : ∀ b ∈ l, isBlankByte b = true)
    (hr : ∀ b ∈ r, isBlankByte b = true) :
    trimBytes (argumentBytes (graphPieces e l r ++ .visible ';'.toUInt8 :: ps)) =
      quoted e.quote e.path ++ e.tail := by
  have hquote : isBlankByte e.quote = false := by
    rcases isQuote_cases he.quote with hq | hq <;> (rw [hq]; rfl)
  have hblank : ∀ c, isBlankByte c = true → Piece.visible c ≠ .visible ';'.toUInt8 := by
    rintro c hc ⟨⟩
    cases hc
  have htext : argumentBytes (graphPieces e l r ++ .visible ';'.toUInt8 :: ps) =
      l ++ (quoted e.quote e.path ++ e.tail) ++ r := by
    rw [argumentBytes_append, graphPieces, List.flatMap_append, List.flatMap_cons,
      List.flatMap_append, text_visibles, text_visibles, text_visibles]
    · simp [Piece.text]
    · intro q hq
      simp only [graphPieces, visibles, List.mem_append, List.mem_cons, List.mem_map] at hq
      rcases hq with ⟨c, hc, rfl⟩ | rfl | ⟨c, hc, rfl⟩ | ⟨c, hc, rfl⟩
      · exact hblank c (hl c hc)
      · exact Piece.noConfusion
      · rintro ⟨⟩
        cases e with
        | root quote =>
            have hnot : ';'.toUInt8 ∉ Utf8.bytes " source(none)".toList := by decide +kernel
            exact hnot hc
        | «import» quote path => cases hc
        | source quote path => cases hc
      · exact hblank c (hr c hc)
  rw [trimBytes, htext]
  rcases last_argument e with hlast | hlast
  · exact trim_eq hl hr rfl hquote hlast hquote
  · exact trim_eq hl hr rfl hquote hlast rfl

namespace Accepted

variable {m : Place} {depth : ℕ} {edges : List Edge} {l r : Bytes} {e : Edge}

/-- The call of a root import opens and closes its parentheses. -/
theorem tail (h : Accepted m depth ps edges) (hc : m.content = true) (hn : m.custom = none) :
    Accepted m depth (visibles e.tail ++ ps) edges := by
  cases e with
  | root quote =>
      obtain ⟨parens, content, custom⟩ := m
      obtain rfl : content = true := hc
      obtain rfl : custom = none := hn
      have hnext : ∀ qs, Place.next ⟨parens, true, none⟩ (.visible '('.toUInt8) qs =
          ⟨parens + 1, true, none⟩ := by
        intro qs
        simp +decide [Place.next, Place.outsideCustom]
      have hback : Place.next ⟨parens + 1, true, none⟩ (.visible ')'.toUInt8) ps =
          ⟨parens, true, none⟩ := by
        simp +decide [Place.next, Place.outsideCustom]
      rw [← hback] at h
      have hclose : Accepted ⟨parens + 1, true, none⟩ depth (.visible ')'.toUInt8 :: ps) edges := by
        refine h.cons (by decide) ?_
        intro w hw
        rw [hback] at hw
        exact .parenCloses hw
      have hnone : Accepted ⟨parens + 1, true, none⟩ depth
          (visibles (Utf8.bytes "none".toList) ++ .visible ')'.toUInt8 :: ps) edges :=
        hclose.inert rfl rfl (inert_visibles (by decide +kernel))
      rw [← hnext (visibles (Utf8.bytes "none".toList) ++ .visible ')'.toUInt8 :: ps)] at hnone
      have hopen : Accepted ⟨parens, true, none⟩ depth (.visible '('.toUInt8 ::
          (visibles (Utf8.bytes "none".toList) ++ .visible ')'.toUInt8 :: ps)) edges := by
        refine hnone.cons (by decide) ?_
        intro w hw
        rw [hnext] at hw
        exact .parenOpens hw
      have hsource : Accepted ⟨parens, true, none⟩ depth (visibles (Utf8.bytes " source".toList) ++
          (.visible '('.toUInt8 ::
            (visibles (Utf8.bytes "none".toList) ++ .visible ')'.toUInt8 :: ps))) edges :=
        hopen.inert rfl rfl (inert_visibles (by decide +kernel))
      exact hsource
  | «import» quote path => exact h
  | source quote path => exact h

/-- A whole `@import` or `@source` in front. -/
theorem graph {name : String} (h : Accepted ⟨0, false, none⟩ depth ps edges) (he : e.Sound)
    (hallowed : name ∈ allowedRules) (hn : e.ruleName = name)
    (hname : ∀ c ∈ Utf8.bytes name.toList, isNameByte c = true) (hl : ∀ b ∈ l, isBlankByte b = true)
    (hr : ∀ b ∈ r, isBlankByte b = true) (hnonempty : l ≠ []) :
    Accepted ⟨0, false, none⟩ depth (.visible '@'.toUInt8 ::
      (visibles (Utf8.bytes name.toList) ++ (graphPieces e l r ++ .visible ';'.toUInt8 :: ps)))
      (e :: edges) := by
  have hend : Place.next ⟨0, true, none⟩ (.visible ';'.toUInt8) ps = ⟨0, false, none⟩ := by
    simp +decide [Place.next, Place.outsideCustom]
  rw [← hend] at h
  have hsemicolon : Accepted ⟨0, true, none⟩ depth (.visible ';'.toUInt8 :: ps) edges := by
    refine h.cons (by decide) ?_
    intro w hw
    rw [hend] at hw
    exact hw
  have hright : Accepted ⟨0, true, none⟩ depth (visibles r ++ .visible ';'.toUInt8 :: ps) edges :=
    hsemicolon.inert rfl rfl (inert_visibles fun b hb => inert_of_blank (hr b hb))
  have htail : Accepted ⟨0, true, none⟩ depth
      (visibles e.tail ++ (visibles r ++ .visible ';'.toUInt8 :: ps)) edges :=
    hright.tail rfl rfl
  have hpieces : Accepted ⟨0, true, none⟩ depth
      (graphPieces e l r ++ .visible ';'.toUInt8 :: ps) edges := by
    have hleft := htail.inert rfl rfl (inert_graph (e := e) hl)
    simpa [graphPieces] using hleft
  have hinert : Accepted ⟨0, true, none⟩ depth (visibles (Utf8.bytes name.toList) ++
      (graphPieces e l r ++ .visible ';'.toUInt8 :: ps)) edges :=
    hpieces.inert rfl rfl (inert_visibles fun b hb => inert_of_name (hname b hb))
  have hat : Place.next ⟨0, false, none⟩ (.visible '@'.toUInt8) (visibles (Utf8.bytes name.toList) ++
      (graphPieces e l r ++ .visible ';'.toUInt8 :: ps)) = ⟨0, true, none⟩ := Place.next_at rfl
  rw [← hat] at hinert
  have hends : ∀ q ∈ (graphPieces e l r ++ .visible ';'.toUInt8 :: ps).head?,
      q.continuesName = false := by
    cases l with
    | nil => exact absurd rfl hnonempty
    | cons b l =>
        intro q hq
        cases hq
        rcases isBlankByte_cases (hl b List.mem_cons_self) with rfl | rfl | rfl | rfl | rfl <;> rfl
  change Accepted _ depth _ ([e] ++ edges)
  refine hinert.atSign ?_ (by rw [hat]) ?_ ?_
  · exact fun _ => ⟨rfl, name, hallowed, _, rfl, hends, fun _ => rfl⟩
  · have hlength : (visibles (Utf8.bytes name.toList)).length = (Utf8.bytes name.toList).length :=
      List.length_map _
    rw [nameBytes_run hname hends, List.drop_left' hlength, argument_graph he hl hr, ← hn,
      ← Edge.rule_eq, List.filter_cons_of_pos (isGraph_rule e)]
    rfl
  · intro e' he'
    rw [List.mem_singleton.mp he']
    exact he

end Accepted

theorem startsCall_blank (h : ∀ b ∈ bytes, isBlankByte b = true) :
    ∀ q ∈ visibles bytes, q.startsCall = false := by
  intro q hq
  obtain ⟨b, hb, rfl⟩ := List.mem_map.mp hq
  rcases isBlankByte_cases (h b hb) with rfl | rfl | rfl | rfl | rfl <;> rfl

theorem startsCall_bytes (h : ∀ b ∈ bytes, lower b ≠ 's'.toUInt8) :
    ∀ q ∈ visibles bytes, q.startsCall = false := by
  intro q hq
  obtain ⟨b, hb, rfl⟩ := List.mem_map.mp hq
  simpa [Piece.startsCall] using h b hb

theorem CallsOk.plainGraph {e : Edge} {l r : Bytes}
    (h : CallsOk (visibles r ++ .visible ';'.toUInt8 :: ps))
    (hl : ∀ b ∈ l, isBlankByte b = true) (htail : e.tail = []) :
    CallsOk (graphPieces e l r ++ .visible ';'.toUInt8 :: ps) := by
  have hstring : CallsOk
      (.string (quoted e.quote e.path) :: (visibles r ++ .visible ';'.toUInt8 :: ps)) := by
    refine h.cons fun hcall => ?_
    cases startsCall_of_calls hcall
  have hall := hstring.append (startsCall_blank hl)
  simpa [graphPieces, htail, visibles] using hall

/-- The calls of `source` in a whole `@import` or `@source`, comments elided. -/
theorem CallsOk.graph {e : Edge} {l r : Bytes} (h : CallsOk ps) (he : e.Sound)
    (hl : ∀ b ∈ l, isBlankByte b = true) (hr : ∀ b ∈ r, isBlankByte b = true)
    (hnonempty : l ≠ []) :
    CallsOk (.visible '@'.toUInt8 :: (visibles (Utf8.bytes e.ruleName.toList) ++
      (graphPieces e l r ++ .visible ';'.toUInt8 :: ps))) := by
  have hend : CallsOk (.visible ';'.toUInt8 :: ps) := by
    refine h.cons fun hcall => ?_
    cases startsCall_of_calls hcall
  have hright : CallsOk (visibles r ++ .visible ';'.toUInt8 :: ps) :=
    hend.append (startsCall_blank hr)
  have hsign : ¬CallsSource (.visible '@'.toUInt8 :: (visibles (Utf8.bytes e.ruleName.toList) ++
      (graphPieces e l r ++ .visible ';'.toUInt8 :: ps))) := by
    intro hcall
    cases startsCall_of_calls hcall
  cases e with
  | root quote =>
      have hletters : CallsOk (visibles (Utf8.bytes "ource(none)".toList) ++
          (visibles r ++ .visible ';'.toUInt8 :: ps)) :=
        hright.append (startsCall_bytes (by decide +kernel))
      have hbefore : ∀ q ∈ visibles ('@'.toUInt8 :: Utf8.bytes "import".toList ++ l) ++
          [.string (quoted quote "tailwindcss"), .visible ' '.toUInt8], q.startsCall = false := by
        intro q hq
        rcases List.mem_append.mp hq with hq | hq
        · rw [visibles, List.map_append] at hq
          rcases List.mem_append.mp hq with hq | hq
          · exact startsCall_bytes (by decide +kernel) q hq
          · exact startsCall_blank hl q hq
        · simp only [List.mem_cons, List.not_mem_nil, or_false] at hq
          rcases hq with rfl | rfl <;> rfl
      have hcut : ∀ left, InRootImport
          (left ++ (visibles ('@'.toUInt8 :: Utf8.bytes "import".toList ++ l) ++
            [.string (quoted quote "tailwindcss"), .visible ' '.toUInt8]))
          (.visible 's'.toUInt8 :: (visibles (Utf8.bytes "ource(none)".toList) ++
            (visibles r ++ .visible ';'.toUInt8 :: ps))) := by
        intro left
        refine ⟨left, quote, l, r, ps, he.quote, hl, hr, by rw [List.append_assoc], ?_⟩
        simp only [visibles, List.map_append, List.map_cons, List.map_nil, List.append_assoc,
          List.cons_append, List.nil_append]
        rfl
      have hroot := hletters.root hbefore hcut
      have heq : visibles ('@'.toUInt8 :: Utf8.bytes "import".toList ++ l) ++
          [.string (quoted quote "tailwindcss"), .visible ' '.toUInt8] ++
          .visible 's'.toUInt8 :: (visibles (Utf8.bytes "ource(none)".toList) ++
            (visibles r ++ .visible ';'.toUInt8 :: ps)) =
          .visible '@'.toUInt8 :: (visibles (Utf8.bytes "import".toList) ++
            (graphPieces (.root quote) l r ++ .visible ';'.toUInt8 :: ps)) := by
        simp only [graphPieces, visibles, List.map_append, List.map_cons, List.append_assoc,
          List.cons_append, List.nil_append]
        rfl
      rw [heq] at hroot
      exact hroot
  | «import» quote path =>
      refine CallsOk.cons ?_ hsign
      have hstring : CallsOk (graphPieces (.import quote path) l r ++ .visible ';'.toUInt8 :: ps) :=
        hright.plainGraph hl rfl
      have hletters : ∀ b ∈ Utf8.bytes "import".toList, lower b ≠ 's'.toUInt8 := by decide +kernel
      exact hstring.append (startsCall_bytes hletters)
  | source quote path =>
      refine CallsOk.cons ?_ hsign
      have hstring : CallsOk (graphPieces (.source quote path) l r ++ .visible ';'.toUInt8 :: ps) :=
        hright.plainGraph hl rfl
      cases l with
      | nil => exact absurd rfl hnonempty
      | cons b l =>
          have hb : (Piece.visible b).continuesName = false ∧ b ≠ '('.toUInt8 := by
            rcases isBlankByte_cases (hl b List.mem_cons_self) with rfl | rfl | rfl | rfl | rfl <;>
              decide
          have hletters : ∀ c ∈ Utf8.bytes "source".toList, isNameByte c = true := by
            decide +kernel
          refine hstring.named hletters ?_ ?_
          · intro q hq
            cases hq
            exact hb.1
          · intro v _ _ hhead
            cases hhead
            exact hb.2 rfl

/-! ## One pass -/

def Scanner.place (s : Scanner) : Place := ⟨s.parenDepth, s.statementHasContent, s.customClosers⟩

/-- Open parentheses and custom properties are inside a statement, and a custom
property value waits for closing brackets only. -/
structure Scanner.Tidy (s : Scanner) : Prop where
  parens : s.parenDepth ≠ 0 → s.statementHasContent = true ∧ s.customClosers = none
  custom : ∀ closers, s.customClosers = some closers →
    s.statementHasContent = true ∧ ∀ c ∈ closers, isCloser c = true

/-- What the rest of the scan, which ends with `final`, finds behind a state. -/
def Behind (css : Text) (file : Path) (final s : Scanner) : Prop :=
  ∃ ps edges, pieces css file s.pos = .ok ps ∧ Accepted s.place s.depth ps edges ∧
    CallsOk (elide ps) ∧ final.result = edges.foldl Directives.add s.result

theorem isCloser_of_closerOf {closer : UInt8} (h : closerOf b = some closer) :
    isCloser closer = true := by
  unfold closerOf at h
  split_ifs at h <;> (cases h; rfl)

theorem Passed.tidy (h : Passed printable css file s s') (hs : s.Tidy) : s'.Tidy := by
  have hplain : s.customClosers = none → ∀ closers, s.customClosers = some closers →
      (true = true) ∧ ∀ c ∈ closers, isCloser c = true := by
    intro hn closers hc
    rw [hn] at hc
    cases hc
  cases h with
  | comment h hskip => exact ⟨hs.parens, hs.custom⟩
  | string h hb hq hskip =>
      exact ⟨fun hp => ⟨rfl, (hs.parens hp).2⟩, fun cl hc => ⟨rfl, (hs.custom cl hc).2⟩⟩
  | escape h hb hskip =>
      exact ⟨fun hp => ⟨rfl, (hs.parens hp).2⟩, fun cl hc => ⟨rfl, (hs.custom cl hc).2⟩⟩
  | opens hv hc hcloser =>
      refine ⟨fun hp => ?_, ?_⟩
      · have hnone := (hs.parens hp).2
        rw [hc] at hnone
        cases hnone
      · rintro cl ⟨⟩
        refine ⟨(hs.custom _ hc).1, ?_⟩
        intro c hmem
        rcases List.mem_cons.mp hmem with rfl | hmem
        · exact isCloser_of_closerOf hcloser
        · exact (hs.custom _ hc).2 c hmem
  | closes hv hc hcloser hb =>
      refine ⟨fun hp => ?_, ?_⟩
      · have hnone := (hs.parens hp).2
        rw [hc] at hnone
        cases hnone
      · rintro cl ⟨⟩
        exact ⟨(hs.custom _ hc).1, fun c hmem => (hs.custom _ hc).2 c (List.mem_cons_of_mem _ hmem)⟩
  | leaves hv hc =>
      refine ⟨fun hp => ⟨(hs.custom _ hc).1, rfl⟩, ?_⟩
      rintro cl ⟨⟩
  | ends hv hc =>
      refine ⟨fun hp => ?_, ?_⟩
      · have hnone := (hs.parens hp).2
        rw [hc] at hnone
        cases hnone
      · rintro cl ⟨⟩
  | inside hv hc hat hcloser hb hend => exact ⟨hs.parens, hs.custom⟩
  | dashes hv hc hcontent h =>
      refine ⟨fun hp => ?_, ?_⟩
      · rw [(hs.parens hp).1] at hcontent
        cases hcontent
      · rintro cl ⟨⟩
        exact ⟨rfl, by simp⟩
  | parenOpens hv hc => exact ⟨fun _ => ⟨rfl, hc⟩, hplain hc⟩
  | parenCloses hv hc hp => exact ⟨fun _ => ⟨rfl, hc⟩, hplain hc⟩
  | braceOpens hv hc hp =>
      refine ⟨fun hne => absurd hp hne, fun cl hcl => ?_⟩
      rw [hc] at hcl
      cases hcl
  | braceCloses hv hc hp hd =>
      refine ⟨fun hne => absurd hp hne, fun cl hcl => ?_⟩
      rw [hc] at hcl
      cases hcl
  | rule hv hc hname hgraph => exact ⟨fun _ => ⟨rfl, hc⟩, hplain hc⟩
  | graph hv hc h =>
      rw [h.next]
      refine ⟨fun hne => ?_, fun cl hcl => ?_⟩
      · have hcontent := (hs.parens hne).1
        rw [h.starts] at hcontent
        cases hcontent
      · rw [hc] at hcl
        cases hcl
  | terminates hv hc hp =>
      refine ⟨fun hne => absurd hp hne, fun cl hcl => ?_⟩
      rw [hc] at hcl
      cases hcl
  | blank hv hc hblank => exact ⟨hs.parens, hs.custom⟩
  | other hv hc hdashes hparens hbrace hat hend hblank => exact ⟨fun _ => ⟨rfl, hc⟩, hplain hc⟩

/-- A piece other than an at-rule is in front of what is behind it. -/
theorem Behind.piece {final : Scanner} (h : Behind css file final s')
    (hpiece : pieceAt css file s.pos = .ok (p, s'.pos)) (hp : p ≠ .visible '@'.toUInt8)
    (hresult : s'.result = s.result)
    (hplace : ∀ ps, pieces css file s'.pos = .ok ps → s.place.next p ps = s'.place)
    (hbracket : ∀ w, Closes s'.depth s'.parenDepth w →
      Closes s.depth s.parenDepth (s.place.bracket p ++ w))
    (hcalls : ∀ ps, pieces css file s.pos = .ok (p :: ps) → p.isComment = false →
      ¬CallsSource (p :: elide ps)) : Behind css file final s := by
  obtain ⟨ps, edges, hps, ha, hc, hfinal⟩ := h
  have hall := pieces_cons hpiece hps
  have hnext := hplace ps hps
  rw [← hnext] at ha
  refine ⟨p :: ps, edges, hall, ha.cons hp ?_, ?_, by rw [hfinal, hresult]⟩
  · intro w hw
    rw [hnext] at hw
    exact hbracket w hw
  · cases hcomment : p.isComment with
    | true => rwa [elide_comment hcomment]
    | false =>
        rw [elide_cons hcomment]
        exact hc.cons (hcalls ps hall hcomment)

/-- A visible byte other than `@`. -/
theorem Behind.visible {final : Scanner} (h : Behind css file final s')
    (hv : Visible css file s.pos b) (hb : b ≠ '@'.toUInt8) (hpos : s'.pos = s.pos + 1)
    (hresult : s'.result = s.result)
    (hplace : ∀ ps, pieces css file s'.pos = .ok ps → s.place.next (.visible b) ps = s'.place)
    (hbracket : ∀ w, Closes s'.depth s'.parenDepth w →
      Closes s.depth s.parenDepth (s.place.bracket (.visible b) ++ w)) :
    Behind css file final s := by
  refine h.piece (by rw [hpos]; exact hv.piece) ?_ hresult hplace hbracket ?_
  · intro heq
    cases heq
    exact hb rfl
  · exact fun ps hps _ => hv.not_calls hps

theorem pieces_nil (h : pos < (Utf8.bytes css).length) : pieces css file pos ≠ .ok [] := by
  intro hps
  rw [pieces, if_pos h] at hps
  split at hps
  · cases hps
  · case _ q stop hq =>
    cases hrest : pieces css file stop with
    | error e => rw [hrest] at hps; cases hps
    | ok rest => rw [hrest] at hps; cases hps

theorem getElem?_of_head (hps : pieces css file pos = .ok ps) (h : ps.head? = some (.visible b)) :
    (Utf8.bytes css)[pos]? = some b := by
  cases ps with
  | nil => cases h
  | cons q ps =>
      cases h
      obtain ⟨stop, hpiece, -⟩ := pieces_uncons hps
      rcases pieceAt_cases hpiece with ⟨hc, -⟩ | ⟨-, -, hvisible⟩
      · cases hc
      · exact (hvisible b rfl).1

theorem head_of_getElem? (hps : pieces css file pos = .ok ps)
    (h : (Utf8.bytes css)[pos]? = some b) (hb : isPlain b = true) :
    ps.head? = some (.visible b) := by
  have hlt := (List.getElem?_eq_some_iff.mp h).1
  cases ps with
  | nil => exact absurd hps (pieces_nil hlt)
  | cons q ps =>
      obtain ⟨stop, hq, -⟩ := pieces_uncons hps
      rw [pieceAt_plain h hb] at hq
      cases hq
      rfl

theorem isBlankPiece_iff (hps : pieces css file (pos + 1) = .ok ps)
    (hb : (Utf8.bytes css)[pos]? = some b) :
    isBlankPiece b ps = isBlank (Utf8.bytes css) pos := by
  have hnext : (ps.head? == some (.visible '\n'.toUInt8)) =
      ((Utf8.bytes css)[pos + 1]? == some '\n'.toUInt8) := by
    rw [Bool.eq_iff_iff, beq_iff_eq, beq_iff_eq]
    exact ⟨getElem?_of_head hps, fun h => head_of_getElem? hps h (by decide)⟩
  simp only [isBlankPiece, isBlank, hb, hnext, Option.some_beq_some]

theorem startsWith_dashes : startsWith bytes pos "--" = .ok true ↔
    bytes[pos]? = some '-'.toUInt8 ∧ bytes[pos + 1]? = some '-'.toUInt8 := by
  constructor
  · intro h
    obtain ⟨tail, htail⟩ := startsWith_true h
    have hdrop : bytes.drop pos = '-'.toUInt8 :: ('-'.toUInt8 :: tail) := htail.symm
    obtain ⟨hb, hrest⟩ := getElem?_of_drop hdrop
    exact ⟨hb, (getElem?_of_drop hrest).1⟩
  · rintro ⟨hb, hnext⟩
    obtain ⟨hlt, hget⟩ := List.getElem?_eq_some_iff.mp hb
    obtain ⟨hlt', hget'⟩ := List.getElem?_eq_some_iff.mp hnext
    unfold startsWith
    rw [if_pos (Nat.le_of_lt hlt), List.drop_eq_getElem_cons hlt, hget,
      List.drop_eq_getElem_cons hlt', hget']
    rfl

theorem bracket_inCustom {m : Place} {closers : List UInt8} (hc : m.custom = some closers)
    (h : closers ≠ [] ∨ b ≠ '\x7d'.toUInt8) : m.bracket (.visible b) = [] := by
  have houtside : m.outside b = false := by
    rw [Place.outside, hc]
    rcases h with h | h
    · cases closers with
      | nil => exact absurd rfl h
      | cons c closers => rfl
    · cases closers with
      | nil => simpa using h
      | cons c closers => rfl
  simp [Place.bracket, houtside]

theorem elide_graph (e : Edge) (l r : Bytes) : elide (graphPieces e l r) = graphPieces e l r := by
  rw [graphPieces, elide_append, elide_visibles, elide_cons rfl, elide_append, elide_visibles,
    elide_visibles]

/-! ### Within a custom property -/

/-- A byte of a custom property value is no bracket of the rules. -/
theorem Behind.inCustom {final : Scanner} {closers : List UInt8} (h : Behind css file final s')
    (hv : Visible css file s.pos b) (hc : s.customClosers = some closers) (hat : b ≠ '@'.toUInt8)
    (hbrace : closers ≠ [] ∨ b ≠ '\x7d'.toUInt8) (hpos : s'.pos = s.pos + 1)
    (hresult : s'.result = s.result) (hdepth : s'.depth = s.depth)
    (hparens : s'.parenDepth = s.parenDepth) (hplace : s.place.inCustom closers b = s'.place) :
    Behind css file final s := by
  refine h.visible hv hat hpos hresult ?_ ?_
  · intro ps _
    rw [← hplace]
    simp only [Place.next, Scanner.place, hc]
  · intro w hw
    rw [bracket_inCustom hc hbrace, List.nil_append, ← hdepth, ← hparens]
    exact hw

/-- The brace after a value is the next piece on both sides, and leads to the same place. -/
theorem Behind.leaves {final : Scanner}
    (h : Behind css file final { s with customClosers := none })
    (hv : Visible css file s.pos '\x7d'.toUInt8) (hc : s.customClosers = some []) :
    Behind css file final s := by
  obtain ⟨ps, edges, hps, ha, hcalls, hfinal⟩ := h
  cases ps with
  | nil => exact absurd hps (pieces_nil hv.lt)
  | cons p ps =>
      obtain ⟨stop, hpiece, -⟩ := pieces_uncons hps
      cases hv.piece.symm.trans hpiece
      refine ⟨_, edges, hps, ha.congr (by decide) ?_ ?_ rfl, hcalls, hfinal⟩
      · have hcloser : closerOf '\x7d'.toUInt8 = none := rfl
        simp +decide [Scanner.place, Place.next, hc, Place.inCustom, Place.outsideCustom, hcloser]
      · simp +decide [Scanner.place, Place.bracket, Place.outside, hc]

theorem inCustom_inside {m : Place} {closers : List UInt8} (hcloser : closerOf b = none)
    (hclosers : ∀ c ∈ closers, isCloser c = true)
    (hb : isCloser b = true → closers = [] ∧ b ≠ '\x7d'.toUInt8)
    (hend : b = ';'.toUInt8 → closers ≠ []) : m.inCustom closers b = m := by
  unfold Place.inCustom
  rw [hcloser]
  cases closers with
  | nil =>
      have hbrace : b ≠ '\x7d'.toUInt8 := by
        rintro rfl
        exact (hb rfl).2 rfl
      have hsemicolon : b ≠ ';'.toUInt8 := fun h => hend h rfl
      simp [hbrace, hsemicolon]
  | cons c closers =>
      have hne : c ≠ b := by
        rintro rfl
        cases (hb (hclosers c List.mem_cons_self)).1
      simp [hne]

/-! ### Outside custom properties -/

/-- Outside a custom property a bracket counts. -/
theorem Behind.bracket {final : Scanner} (h : Behind css file final s')
    (hv : Visible css file s.pos b) (hc : s.customClosers = none) (hb : isBracket b = true)
    (hpos : s'.pos = s.pos + 1) (hresult : s'.result = s.result)
    (hplace : ∀ ps, s.place.outsideCustom b ps = s'.place)
    (hcloses : ∀ w, Closes s'.depth s'.parenDepth w → Closes s.depth s.parenDepth (b :: w)) :
    Behind css file final s := by
  have hat : b ≠ '@'.toUInt8 := by
    rintro rfl
    cases hb
  refine h.visible hv hat hpos hresult ?_ ?_
  · intro ps _
    rw [← hplace ps]
    simp only [Place.next, Scanner.place, hc]
  · intro w hw
    have hbracket : s.place.bracket (.visible b) = [b] := by
      simp [Place.bracket, Place.outside, Scanner.place, hc, hb]
    rw [hbracket]
    exact hcloses w hw

/-- Any other byte does not. -/
theorem Behind.outside {final : Scanner} (h : Behind css file final s')
    (hv : Visible css file s.pos b) (hc : s.customClosers = none) (hat : b ≠ '@'.toUInt8)
    (hb : isBracket b = false) (hpos : s'.pos = s.pos + 1) (hresult : s'.result = s.result)
    (hdepth : s'.depth = s.depth) (hparens : s'.parenDepth = s.parenDepth)
    (hplace : ∀ ps, pieces css file s'.pos = .ok ps → s.place.outsideCustom b ps = s'.place) :
    Behind css file final s := by
  refine h.visible hv hat hpos hresult ?_ ?_
  · intro ps hps
    rw [← hplace ps hps]
    simp only [Place.next, Scanner.place, hc]
  · intro w hw
    have hbracket : s.place.bracket (.visible b) = [] := by
      simp [Place.bracket, hb]
    rw [hbracket, List.nil_append, ← hdepth, ← hparens]
    exact hw

/-- Two dashes are two pieces: the first opens the custom property, the second is in it. -/
theorem Behind.dashes {final : Scanner}
    (h : Behind css file final
      { s with pos := s.pos + 2, customClosers := some [], statementHasContent := true })
    (hv : Visible css file s.pos b) (hc : s.customClosers = none)
    (hcontent : s.statementHasContent = false)
    (hdashes : startsWith (Utf8.bytes css) s.pos "--" = .ok true) : Behind css file final s := by
  obtain ⟨hfirst, hsecond⟩ := startsWith_dashes.mp hdashes
  obtain rfl : b = '-'.toUInt8 := Option.some.inj (hv.byte.symm.trans hfirst)
  have hpiece : pieceAt css file (s.pos + 1) = .ok (.visible '-'.toUInt8, s.pos + 2) :=
    pieceAt_plain hsecond rfl
  have hmiddle : Behind css file final
      { s with pos := s.pos + 1, customClosers := some [], statementHasContent := true } := by
    refine h.piece hpiece (by decide) rfl ?_ ?_ ?_
    · intro ps _
      have hcloser : closerOf '-'.toUInt8 = none := rfl
      simp +decide [Scanner.place, Place.next, Place.inCustom, hcloser]
    · intro w hw
      rwa [bracket_inCustom rfl (.inr (by decide))]
    · intro ps _ _ hcall
      cases startsCall_of_calls hcall
  refine hmiddle.outside hv hc (by decide) rfl rfl rfl rfl rfl ?_
  intro ps hps
  have hhead := head_of_getElem? hps hsecond (by decide)
  simp [Scanner.place, hc, Place.outsideCustom, hcontent, hhead]

theorem Behind.blank {final : Scanner} (h : Behind css file final { s with pos := s.pos + 1 })
    (hv : Visible css file s.pos b) (hc : s.customClosers = none)
    (hblank : isBlank (Utf8.bytes css) s.pos = true) : Behind css file final s := by
  have hne : b ≠ '@'.toUInt8 ∧ b ≠ '-'.toUInt8 ∧ b ≠ '('.toUInt8 ∧ b ≠ ')'.toUInt8 ∧
      isBrace b = false ∧ b ≠ ';'.toUInt8 ∧ isBracket b = false := by
    rcases isBlankByte_cases (isBlank_cases hblank hv.byte) with rfl | rfl | rfl | rfl | rfl <;>
      decide
  obtain ⟨hat, hdash, hopen, hclose, hbrace, hend, hbracket⟩ := hne
  refine h.outside hv hc hat hbracket rfl rfl rfl rfl ?_
  intro ps hps
  have hpiece := (isBlankPiece_iff hps hv.byte).trans hblank
  simp [Scanner.place, Place.outsideCustom, hdash, hopen, hclose, hbrace, hend, hpiece]

theorem Behind.other {final : Scanner}
    (h : Behind css file final { s with pos := s.pos + 1, statementHasContent := true })
    (hv : Visible css file s.pos b) (hc : s.customClosers = none)
    (hdashes : s.statementHasContent = false →
      startsWith (Utf8.bytes css) s.pos "--" = .ok false)
    (hparens : b ≠ '('.toUInt8 ∧ b ≠ ')'.toUInt8) (hbrace : isBrace b = false)
    (hat : b ≠ '@'.toUInt8) (hend : b = ';'.toUInt8 → s.parenDepth ≠ 0)
    (hblank : isBlank (Utf8.bytes css) s.pos = false) : Behind css file final s := by
  have hbracket : isBracket b = false := by
    simp [isBracket, hparens.1, hparens.2, hbrace]
  refine h.outside hv hc hat hbracket rfl rfl rfl rfl ?_
  intro ps hps
  have hpiece := (isBlankPiece_iff hps hv.byte).trans hblank
  have hdash : (!s.statementHasContent && b == '-'.toUInt8 &&
      ps.head? == some (.visible '-'.toUInt8)) = false := by
    rw [Bool.eq_false_iff]
    intro h
    simp only [Bool.and_eq_true, Bool.not_eq_true', beq_iff_eq] at h
    obtain ⟨⟨hcontent, rfl⟩, hhead⟩ := h
    have htrue := startsWith_dashes.mpr ⟨hv.byte, getElem?_of_head hps hhead⟩
    rw [hdashes hcontent] at htrue
    cases htrue
  simp only [Scanner.place, Place.outsideCustom, hdash, hbrace, hpiece,
    beq_eq_false_iff_ne.mpr hparens.1, beq_eq_false_iff_ne.mpr hparens.2, Bool.false_eq_true,
    if_false]
  refine if_neg fun hsemicolon => ?_
  rw [Bool.and_eq_true, beq_iff_eq] at hsemicolon
  exact hend hsemicolon.1 (of_decide_eq_true hsemicolon.2)

/-! ### At-rules -/

theorem Behind.rule {final : Scanner} {name : String} {stop : ℕ}
    (h : Behind css file final { s with pos := stop, statementHasContent := true })
    (hv : Visible css file s.pos '@'.toUInt8) (hc : s.customClosers = none)
    (hname : ruleName css s.pos file = .ok (name, stop))
    (hgraph : name ≠ "import" ∧ name ≠ "source") : Behind css file final s := by
  obtain ⟨ps, edges, hps, ha, hcalls, hfinal⟩ := h
  obtain ⟨hdrop, hstop, hletters⟩ := ruleName_bytes hname
  have hrun := pieces_plain hdrop (fun b hb => isPlain_of_name (hletters b hb))
    (by rw [hstop]; exact hps)
  have hall := pieces_cons hv.piece hrun
  have ha' : Accepted { s.place with content := true } s.depth ps edges := ha
  obtain ⟨hcallsName, haccepted⟩ := rule_back hc hname hgraph hps hcalls ha'
  refine ⟨_, edges, hall, haccepted, ?_, hfinal⟩
  rw [elide_cons rfl, elide_append, elide_visibles]
  refine hcallsName.cons fun hcall => ?_
  cases startsCall_of_calls hcall

/-- A rule of the graph is the edge it records. -/
theorem Behind.graph {final : Scanner} {name : String} {stop cursor : ℕ} {text : Text}
    {result : Directives} (hb : Behind css file final s')
    (hs : s.Tidy) (hv : Visible css file s.pos '@'.toUInt8) (hc : s.customClosers = none)
    (h : Recorded printable css file s s' name stop cursor text result) :
    Behind css file final s := by
  obtain ⟨ps, edges, hps, ha, hcalls, hfinal⟩ := hb
  obtain ⟨e, l, r, he, hn, hresult, hbytes⟩ := h.graphBytes
  obtain ⟨hdrop, hstop, hletters⟩ := ruleName_bytes h.rule
  obtain ⟨-, -, -, hallowed, -⟩ := ruleName_ok h.rule
  have hparens : s.parenDepth = 0 := by
    by_contra hne
    have hcontent := (hs.parens hne).1
    rw [h.starts] at hcontent
    cases hcontent
  have hplace : s.place = ⟨0, false, none⟩ := by
    rw [Scanner.place, hparens, h.starts, hc]
  rw [h.next] at hps ha hfinal
  have hbehind := hbytes.pieces he hps
  have hrun := pieces_plain hdrop (fun b hb => isPlain_of_name (hletters b hb))
    (by rw [hstop]; exact hbehind)
  have hall := pieces_cons hv.piece hrun
  have ha' : Accepted ⟨0, false, none⟩ s.depth ps edges := by
    simpa [Scanner.place, hparens, hc] using ha
  refine ⟨_, e :: edges, hall, ?_, ?_, ?_⟩
  · rw [hplace]
    exact ha'.graph he hallowed hn hletters hbytes.left hbytes.right hbytes.nonempty
  · have hgraph := hcalls.graph he hbytes.left hbytes.right hbytes.nonempty
    rw [hn] at hgraph
    rw [elide_cons rfl, elide_append, elide_visibles, elide_append, elide_graph, elide_cons rfl]
    exact hgraph
  · rw [hfinal, hresult]
    rfl

/-! ### The pass -/

theorem Passed.behind {final : Scanner} (h : Passed printable css file s s') (hs : s.Tidy)
    (hb : Behind css file final s') : Behind css file final s := by
  cases h with
  | comment h hskip =>
      exact hb.piece (pieceAt_comment h hskip) (by rintro ⟨⟩) rfl (fun _ _ => rfl) (fun _ => id)
        (by rintro ps - ⟨⟩)
  | string h hbyte hq hskip =>
      refine hb.piece (pieceAt_string h hbyte hq hskip) (by rintro ⟨⟩) rfl (fun _ _ => rfl)
        (fun _ => id) ?_
      intro ps _ _ hcall
      cases startsCall_of_calls hcall
  | escape h hbyte hskip =>
      refine hb.piece (pieceAt_escape h hbyte hskip) (by rintro ⟨⟩) rfl (fun _ _ => rfl)
        (fun _ => id) ?_
      intro ps _ _ hcall
      cases startsCall_of_calls hcall
  | @opens b closer closers hv hc hcloser =>
      have hne : b ≠ '@'.toUInt8 ∧ b ≠ '\x7d'.toUInt8 := by
        constructor <;> (rintro rfl; cases hcloser)
      refine hb.inCustom hv hc hne.1 (.inr hne.2) rfl rfl rfl rfl ?_
      simp [Scanner.place, Place.inCustom, hcloser]
  | @closes b closers hv hc hcloser hbyte =>
      refine hb.inCustom hv hc (by rintro rfl; cases hbyte) (.inl (List.cons_ne_nil b closers))
        rfl rfl rfl rfl ?_
      simp [Scanner.place, Place.inCustom, hcloser]
  | leaves hv hc => exact hb.leaves hv hc
  | ends hv hc =>
      refine hb.inCustom hv hc (by decide) (.inr (by decide)) rfl rfl rfl rfl ?_
      have hcloser : closerOf ';'.toUInt8 = none := rfl
      simp [Scanner.place, Place.inCustom, hcloser]
  | @inside b closers hv hc hat hcloser hbyte hend =>
      have hbrace : closers ≠ [] ∨ b ≠ '\x7d'.toUInt8 := by
        refine .inr ?_
        rintro rfl
        exact (hbyte rfl).2 rfl
      exact hb.inCustom hv hc hat hbrace rfl rfl rfl rfl
        (inCustom_inside hcloser (hs.custom _ hc).2 hbyte hend)
  | dashes hv hc hcontent h => exact hb.dashes hv hc hcontent h
  | parenOpens hv hc =>
      refine hb.bracket hv hc rfl rfl rfl (fun ps => ?_) (fun w hw => .parenOpens hw)
      simp +decide [Scanner.place, hc, Place.outsideCustom]
  | parenCloses hv hc hp =>
      refine hb.bracket hv hc rfl rfl rfl (fun ps => ?_) (fun w hw => ?_)
      · simp +decide [Scanner.place, hc, Place.outsideCustom]
      · obtain ⟨parens, hparens⟩ := Nat.exists_eq_succ_of_ne_zero hp
        rw [hparens] at hw ⊢
        exact .parenCloses hw
  | braceOpens hv hc hp =>
      refine hb.bracket hv hc rfl rfl rfl (fun ps => ?_) (fun w hw => ?_)
      · simp +decide [Scanner.place, hc, Place.outsideCustom]
      · rw [hp] at hw ⊢
        exact .braceOpens hw
  | braceCloses hv hc hp hd =>
      refine hb.bracket hv hc rfl rfl rfl (fun ps => ?_) (fun w hw => ?_)
      · simp +decide [Scanner.place, hc, Place.outsideCustom]
      · obtain ⟨depth, hdepth⟩ := Nat.exists_eq_succ_of_ne_zero hd
        rw [hp, hdepth] at hw ⊢
        exact .braceCloses hw
  | rule hv hc hname hgraph => exact hb.rule hv hc hname hgraph
  | graph hv hc h => exact hb.graph hs hv hc h
  | terminates hv hc hp =>
      refine hb.outside hv hc (by decide) rfl rfl rfl rfl rfl fun ps _ => ?_
      simp +decide [Scanner.place, hc, Place.outsideCustom, hp]
  | blank hv hc hblank => exact hb.blank hv hc hblank
  | other hv hc hdashes hparens hbrace hat hend hblank =>
      exact hb.other hv hc hdashes hparens hbrace hat hend hblank

/-- An accepted text has no edge that the scanner did not record: every visible `@`
has an allowed name, the result lists what the `@import` and `@source` rules say, no
other call of `source` is visible, and the brackets are balanced. -/
theorem directives_complete (h : directives printable css file = .ok result) :
    ∃ ps, pieces css file (textStart (Utf8.bytes css)) = .ok ps ∧
      Everywhere AtSign .start ps ∧
      (∃ edges : List Edge, (∀ e ∈ edges, isQuote e.quote = true) ∧
        (atRules ps).filter AtRule.isGraph = edges.map Edge.rule ∧
        result = edges.foldl Directives.add {}) ∧
      (∀ before after, elide ps = before ++ after → CallsSource after →
        InRootImport before after) ∧
      Balanced (brackets .start ps) := by
  unfold directives at h
  replace h := bind_ok h
  obtain ⟨final, hrun, h⟩ := h
  have hfinal : final.depth = 0 ∧ final.parenDepth = 0 ∧ result = final.result := by
    unfold finish at h
    split at h
    · cases h
    · case _ hdepth =>
      split at h
      · cases h
      · case _ hparens =>
        split at h
        · obtain ⟨line, -, h⟩ := bind_ok h
          cases h
        · cases h
          exact ⟨by simpa using hdepth, by simpa using hparens, rfl⟩
  obtain ⟨hdepth, hparens, rfl⟩ := hfinal
  have hbehind : Behind css file final { pos := textStart (Utf8.bytes css) } := by
    refine (scanLoop printable css file).run_induct (I := Scanner.Tidy)
      (P := Behind css file final) ?_ ?_ ?_ hrun
    · intro s s' hs _ hstep
      have hpassed := step_passed hstep
      exact ⟨hpassed.tidy hs, hpassed.behind hs⟩
    · intro _ hcond
      have hlt : ¬final.pos < (Utf8.bytes css).length := by simpa [scanLoop] using hcond
      refine ⟨[], [], pieces_end (by omega), ?_, callsOk_nil, rfl⟩
      rw [hdepth]
      exact .nil hparens
    · exact ⟨fun hne => absurd rfl hne, fun cl hcl => by cases hcl⟩
  obtain ⟨ps, edges, hps, ha, hcalls, hresult⟩ := hbehind
  refine ⟨ps, hps, ha.atSigns, ⟨edges, fun e he => (ha.sound e he).quote, ha.rules, hresult⟩, ?_,
    ha.closes.balanced⟩
  exact fun before after heq hcall => hcalls [] before after heq hcall

/-- A root with one source, one import, a custom property and a media query. -/
def sampleCss : Text :=
  "@import \"tailwindcss\" source(none);@source './a';@media (x)\x7b--y:[;]\x7d@import './b.css';".toList

theorem directives_complete_sample :
    ∃ ps, pieces sampleCss ["app.css"] 0 = .ok ps ∧
      ∃ edges : List Edge, (atRules ps).filter AtRule.isGraph = edges.map Edge.rule ∧
        (⟨["./b.css"], ["./a"], 1⟩ : Directives) = edges.foldl Directives.add {} := by
  obtain ⟨ps, hps, -, ⟨edges, -, hrules, hresult⟩, -⟩ := directives_complete
    (show directives (fun _ => true) sampleCss ["app.css"] = .ok ⟨["./b.css"], ["./a"], 1⟩ by
      decide +kernel)
  exact ⟨ps, hps, edges, hrules, hresult⟩

end Cja.Tailwind
