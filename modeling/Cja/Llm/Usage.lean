import Cja.Llm.Transport

/-!
# Usage in a streamed reply

The scanner reads the lines of a streamed body as they come and keeps the usage of the
last line that reports one, and whether the stream said that it is done. A line that is
not at its end waits in the buffer, so the cuts between chunks do not show, as long as the
buffer is not reset: past 64 KiB it is.
-/
namespace Cja.Llm

/-! ## Text and JSON -/

/-- A character of which some bytes are missing, and what the next byte may be. -/
structure Partway where
  value : ℕ
  missing : ℕ
  low : ℕ
  high : ℕ

def replacement : Char := Char.ofNat 0xFFFD

/-- What a byte at the start of a character gives. -/
def leadByte (b : ℕ) : Text × Option Partway :=
  if b < 0x80 then ([Char.ofNat b], none)
  else if 0xC2 ≤ b ∧ b ≤ 0xDF then ([], some ⟨b - 0xC0, 1, 0x80, 0xBF⟩)
  else if b = 0xE0 then ([], some ⟨0, 2, 0xA0, 0xBF⟩)
  else if b = 0xED then ([], some ⟨0xD, 2, 0x80, 0x9F⟩)
  else if 0xE1 ≤ b ∧ b ≤ 0xEF then ([], some ⟨b - 0xE0, 2, 0x80, 0xBF⟩)
  else if b = 0xF0 then ([], some ⟨0, 3, 0x90, 0xBF⟩)
  else if b = 0xF4 then ([], some ⟨4, 3, 0x80, 0x8F⟩)
  else if 0xF1 ≤ b ∧ b ≤ 0xF3 then ([], some ⟨b - 0xF0, 3, 0x80, 0xBF⟩)
  else ([replacement], none)

def fromUtf8LossyAt : Option Partway → List UInt8 → Text
  | none, [] => []
  | some _, [] => [replacement]
  | none, b :: bytes => (leadByte b.toNat).1 ++ fromUtf8LossyAt (leadByte b.toNat).2 bytes
  | some p, b :: bytes =>
      if p.low ≤ b.toNat ∧ b.toNat ≤ p.high then
        let value := p.value * 64 + (b.toNat - 0x80)
        if p.missing = 1 then Char.ofNat value :: fromUtf8LossyAt none bytes
        else fromUtf8LossyAt (some ⟨value, p.missing - 1, 0x80, 0xBF⟩) bytes
      else replacement :: (leadByte b.toNat).1 ++ fromUtf8LossyAt (leadByte b.toNat).2 bytes

/-- `String::from_utf8_lossy` -/
def fromUtf8Lossy (bytes : List UInt8) : Text := fromUtf8LossyAt none bytes

example : fromUtf8Lossy [0xE2, 0x82, 0xAC, 0xE2, 0x82, 0x41] = ['€', replacement, 'A'] := by decide

/-- A value of `serde_json`, as far as it is looked into. -/
inductive Json
  | object (fields : List (String × Json))
  /-- A number that is a `u64`. -/
  | unsigned (n : ℕ)
  | other

def Json.get (key : String) : Json → Option Json
  | .object fields => (fields.find? fun field => field.1 == key).map fun field => field.2
  | .unsigned _ | .other => none

def Json.asU64 : Json → Option ℕ
  | .unsigned n => some n
  | .object _ | .other => none

abbrev Tokens := ℕ × ℕ

def usageFrom (usage : Json) : Option Tokens := do
  let input ← (← usage.get "prompt_tokens").asU64
  let output ← (← usage.get "completion_tokens").asU64
  pure (input, output)

/-! ## The scanner -/

def maxErrorBody : ℕ := 64 * 1024

def newline : UInt8 := 10

structure UsageScanner where
  buf : List UInt8 := []
  last : Option Tokens := none
  done : Bool := false

/-- The bytes through the first newline, and those behind it. -/
def takeLine : List UInt8 → Option (List UInt8 × List UInt8)
  | [] => none
  | b :: bytes =>
      if b = newline then some ([b], bytes)
      else (takeLine bytes).map fun r => (b :: r.1, r.2)

variable (json : Text → Option Json)

/-- What follows `data: ` in a line. -/
def payload (line : List UInt8) : Option Text :=
  Text.stripPrefix "data: ".toList (Text.trim (fromUtf8Lossy line))

def isDone (line : List UInt8) : Bool := payload line == some "[DONE]".toList

/-- The usage that a line reports. -/
def lineUsage (line : List UInt8) : Option Tokens :=
  (payload line).bind fun text =>
    if text = "[DONE]".toList then none
    else (json text).bind fun value => (value.get "usage").bind usageFrom

/-- The loop over the lines in the buffer, with the usage found in them. -/
structure Scan where
  buf : List UInt8
  usage : Option Tokens
  done : Bool

def Scan.read (s : Scan) (line rest : List UInt8) : Scan :=
  match payload line with
  | none => { s with buf := rest }
  | some text =>
      if text = "[DONE]".toList then { s with buf := rest, done := true }
      else
        match (json text).bind fun value => (value.get "usage").bind usageFrom with
        | none => { s with buf := rest }
        | some found => { s with buf := rest, usage := some found }

/-- Every round takes a byte at least from the buffer. -/
def scanLines : ℕ → Scan → Scan
  | 0, s => s
  | rounds + 1, s =>
      match takeLine s.buf with
      | none => s
      | some (line, rest) => scanLines rounds (s.read json line rest)

def UsageScanner.scan (s : UsageScanner) (chunk : List UInt8) : UsageScanner × Option Tokens :=
  let r := scanLines json (s.buf ++ chunk).length ⟨s.buf ++ chunk, none, s.done⟩
  (⟨if maxErrorBody < r.buf.length then [] else r.buf, r.usage.or s.last, r.done⟩, r.usage)

/-! ## Lines -/

/-- The lines of a stream with their newlines, and what is behind the last one. -/
def splitLines : List UInt8 → List (List UInt8) × List UInt8
  | [] => ([], [])
  | b :: bytes =>
      if b = newline then ([b] :: (splitLines bytes).1, (splitLines bytes).2)
      else
        match (splitLines bytes).1 with
        | [] => ([], b :: (splitLines bytes).2)
        | line :: lines => ((b :: line) :: lines, (splitLines bytes).2)

variable {json} {bytes chunk stream rest line : List UInt8} {chunks lines : List (List UInt8)}
  {s s' : UsageScanner} {r : Scan} {n : ℕ}

theorem takeLine_none (h : takeLine bytes = none) : splitLines bytes = ([], bytes) := by
  induction bytes with
  | nil => rfl
  | cons b bytes ih =>
      unfold takeLine at h
      split at h
      · cases h
      · rename_i hb
        rw [Option.map_eq_none_iff] at h
        rw [splitLines, if_neg hb, ih h]

theorem takeLine_some (h : takeLine bytes = some (line, rest)) :
    splitLines bytes = (line :: (splitLines rest).1, (splitLines rest).2) ∧
      rest.length < bytes.length := by
  induction bytes generalizing line with
  | nil => cases h
  | cons b bytes ih =>
      unfold takeLine at h
      split at h
      · rename_i hb
        cases h
        rw [splitLines, if_pos hb, List.length_cons]
        exact ⟨rfl, Nat.lt_succ_self _⟩
      · rename_i hb
        obtain ⟨⟨line', rest'⟩, hrest, heq⟩ := Option.map_eq_some_iff.1 h
        cases heq
        obtain ⟨hsplit, hlt⟩ := ih hrest
        rw [splitLines, if_neg hb, hsplit, List.length_cons]
        exact ⟨rfl, by omega⟩

/-- Bytes without a newline go before the first line. -/
theorem splitLines_clear (h : newline ∉ rest) :
    splitLines (rest ++ bytes) =
      match (splitLines bytes).1 with
      | [] => ([], rest ++ (splitLines bytes).2)
      | line :: lines => ((rest ++ line) :: lines, (splitLines bytes).2) := by
  induction rest with
  | nil =>
      rw [List.nil_append]
      generalize splitLines bytes = parts
      obtain ⟨lines, behind⟩ := parts
      cases lines <;> rfl
  | cons b rest ih =>
      rw [List.mem_cons, not_or] at h
      rw [List.cons_append, splitLines, if_neg (Ne.symm h.1), ih h.2]
      cases (splitLines bytes).1 <;> rfl

theorem splitLines_rest (bytes : List UInt8) : newline ∉ (splitLines bytes).2 := by
  induction bytes with
  | nil => exact List.not_mem_nil
  | cons b bytes ih =>
      rw [splitLines]
      split
      · exact ih
      · rename_i hb
        split
        · rw [List.mem_cons, not_or]
          exact ⟨Ne.symm hb, ih⟩
        · exact ih

/-- What waits behind the last line goes on with the bytes that follow. -/
theorem splitLines_append (stream bytes : List UInt8) :
    splitLines (stream ++ bytes) =
      ((splitLines stream).1 ++ (splitLines ((splitLines stream).2 ++ bytes)).1,
        (splitLines ((splitLines stream).2 ++ bytes)).2) := by
  induction stream with
  | nil => rfl
  | cons b stream ih =>
      rw [List.cons_append, splitLines, splitLines, ih]
      split
      · rfl
      · rename_i hb
        cases hlines : (splitLines stream).1 with
        | nil =>
            dsimp only
            rw [List.nil_append, List.nil_append, List.cons_append, splitLines, if_neg hb]
        | cons line lines => rfl

/-! ## What a scan leaves -/

/-- The usage of the last line that reports one. -/
def lastUsage (json : Text → Option Json) (lines : List (List UInt8)) : Option Tokens :=
  (lines.filterMap (lineUsage json)).getLast?

theorem lastUsage_append (lines lines' : List (List UInt8)) :
    lastUsage json (lines ++ lines') = (lastUsage json lines').or (lastUsage json lines) := by
  unfold lastUsage
  rw [List.filterMap_append, List.getLast?_append]

theorem lastUsage_cons (line : List UInt8) (lines : List (List UInt8)) :
    lastUsage json (line :: lines) = (lastUsage json lines).or (lineUsage json line) := by
  have hsingle : lastUsage json [line] = lineUsage json line := by
    unfold lastUsage
    cases hline : lineUsage json line with
    | none => rw [List.filterMap_cons_none hline, List.filterMap_nil, List.getLast?_nil]
    | some found => rw [List.filterMap_cons_some hline, List.filterMap_nil, List.getLast?_singleton]
  rw [← List.singleton_append, lastUsage_append, hsingle]

theorem Scan.read_eq (r : Scan) (line rest : List UInt8) :
    r.read json line rest = ⟨rest, (lineUsage json line).or r.usage, r.done || isDone line⟩ := by
  unfold Scan.read lineUsage isDone
  cases hpayload : payload line with
  | none => simp
  | some text =>
      rw [Option.bind_some]
      by_cases hdone : text = "[DONE]".toList
      · simp [hdone]
      · have hnot : (some text == some "[DONE]".toList) = false := by
          rw [beq_eq_false_iff_ne]
          intro heq
          exact hdone (Option.some.inj heq)
        rw [hnot, Bool.or_false, if_neg hdone]
        dsimp only
        rw [if_neg hdone]
        cases (json text).bind fun value => (value.get "usage").bind usageFrom with
        | none => rfl
        | some found => rfl

/-- The loop reads every line and leaves what is behind the last one. -/
theorem scanLines_eq (hn : r.buf.length ≤ n) :
    scanLines json n r = ⟨(splitLines r.buf).2,
      (lastUsage json (splitLines r.buf).1).or r.usage,
      r.done || (splitLines r.buf).1.any isDone⟩ := by
  induction n generalizing r with
  | zero =>
      have hnil : r.buf = [] := List.length_eq_zero_iff.1 (by omega)
      obtain ⟨buf, usage, done⟩ := r
      cases hnil
      simp [scanLines, splitLines, lastUsage]
  | succ n ih =>
      unfold scanLines
      cases hline : takeLine r.buf with
      | none =>
          rw [takeLine_none hline]
          simp [lastUsage]
      | some parts =>
          obtain ⟨line, rest⟩ := parts
          obtain ⟨hsplit, hlt⟩ := takeLine_some hline
          have hrest : (r.read json line rest).buf.length ≤ n := by
            rw [Scan.read_eq]
            dsimp only
            omega
          dsimp only
          rw [ih hrest, Scan.read_eq, hsplit, lastUsage_cons, List.any_cons, Option.or_assoc,
            Bool.or_assoc]

/-- A scanner that has read a stream from its start. -/
structure Scanned (json : Text → Option Json) (stream : List UInt8) (s : UsageScanner) : Prop where
  buf : s.buf = (splitLines stream).2
  last : s.last = lastUsage json (splitLines stream).1
  done : s.done = (splitLines stream).1.any isDone

/-- Each line is at most 64 KiB long, also the one that has not come to its end. -/
structure ShortLines (stream : List UInt8) : Prop where
  lines : ∀ line ∈ (splitLines stream).1, line.length ≤ maxErrorBody
  rest : (splitLines stream).2.length ≤ maxErrorBody

/-- What waits between two chunks is no longer than its line. -/
theorem ShortLines.pending (h : ShortLines (stream ++ bytes)) : ShortLines stream := by
  have hclear := splitLines_rest stream
  have hsplit := splitLines_append stream bytes
  rw [splitLines_clear hclear] at hsplit
  constructor
  · intro line hline
    apply h.lines
    rw [hsplit]
    exact List.mem_append_left _ hline
  · cases hlines : (splitLines bytes).1 with
    | nil =>
        rw [hlines] at hsplit
        have hrest := h.rest
        rw [hsplit, List.length_append] at hrest
        omega
    | cons line lines =>
        rw [hlines] at hsplit
        have hfirst : ((splitLines stream).2 ++ line).length ≤ maxErrorBody := by
          apply h.lines
          rw [hsplit]
          exact List.mem_append_right _ (List.mem_cons_self ..)
        rw [List.length_append] at hfirst
        omega

theorem scan_eq (json : Text → Option Json) (s : UsageScanner) (chunk : List UInt8) :
    (s.scan json chunk).1 =
      ⟨if maxErrorBody < (splitLines (s.buf ++ chunk)).2.length then []
        else (splitLines (s.buf ++ chunk)).2,
        (lastUsage json (splitLines (s.buf ++ chunk)).1).or s.last,
        s.done || (splitLines (s.buf ++ chunk)).1.any isDone⟩ := by
  have hloop : scanLines json (s.buf ++ chunk).length ⟨s.buf ++ chunk, none, s.done⟩ =
      ⟨(splitLines (s.buf ++ chunk)).2, (lastUsage json (splitLines (s.buf ++ chunk)).1).or none,
        s.done || (splitLines (s.buf ++ chunk)).1.any isDone⟩ := scanLines_eq (le_refl _)
  unfold UsageScanner.scan
  rw [hloop, Option.or_none]

theorem Scanned.scan (h : Scanned json stream s) (hshort : ShortLines (stream ++ chunk)) :
    Scanned json (stream ++ chunk) (s.scan json chunk).1 := by
  have hsplit := splitLines_append stream chunk
  have hrest : (splitLines ((splitLines stream).2 ++ chunk)).2.length ≤ maxErrorBody := by
    have hwaits := hshort.rest
    rw [hsplit] at hwaits
    exact hwaits
  rw [scan_eq, h.buf, h.last, h.done]
  constructor
  · rw [hsplit]
    exact if_neg (by omega)
  · rw [hsplit]
    exact (lastUsage_append ..).symm
  · rw [hsplit]
    exact List.any_append.symm

theorem scanned_empty (json : Text → Option Json) : Scanned json [] {} := ⟨rfl, rfl, rfl⟩

/-- The chunks one by one. -/
def UsageScanner.scanAll (json : Text → Option Json) (s : UsageScanner)
    (chunks : List (List UInt8)) : UsageScanner :=
  chunks.foldl (fun s chunk => (s.scan json chunk).1) s

theorem Scanned.scanAll (h : Scanned json stream s) (hshort : ShortLines (stream ++ chunks.flatten)) :
    Scanned json (stream ++ chunks.flatten) (s.scanAll json chunks) := by
  induction chunks generalizing stream s with
  | nil =>
      rw [List.flatten_nil, List.append_nil]
      exact h
  | cons chunk chunks ih =>
      rw [List.flatten_cons, ← List.append_assoc] at hshort ⊢
      exact ih (h.scan hshort.pending) hshort

/-- However a stream is cut into chunks, the scanner comes to the same. -/
theorem scan_chunks (json : Text → Option Json) (chunks : List (List UInt8))
    (hshort : ShortLines chunks.flatten) :
    ({} : UsageScanner).scanAll json chunks =
        (({} : UsageScanner).scan json chunks.flatten).1 ∧
      Scanned json chunks.flatten (({} : UsageScanner).scanAll json chunks) := by
  have hcut : Scanned json chunks.flatten (({} : UsageScanner).scanAll json chunks) :=
    (scanned_empty json).scanAll hshort
  have hwhole : Scanned json chunks.flatten (({} : UsageScanner).scan json chunks.flatten).1 :=
    (scanned_empty json).scan hshort
  refine ⟨?_, hcut⟩
  generalize ({} : UsageScanner).scanAll json chunks = s at hcut ⊢
  generalize (({} : UsageScanner).scan json chunks.flatten).1 = s' at hwhole ⊢
  obtain ⟨buf, last, done⟩ := s
  obtain ⟨buf', last', done'⟩ := s'
  rw [UsageScanner.mk.injEq]
  exact ⟨hcut.buf.trans hwhole.buf.symm, hcut.last.trans hwhole.last.symm,
    hcut.done.trans hwhole.done.symm⟩

def usageText : Text :=
  "\x7b\"usage\":\x7b\"prompt_tokens\":3,\"completion_tokens\":2\x7d\x7d".toList

/-- A parser that knows one text. -/
def usageJson (text : Text) : Option Json :=
  if text = usageText then
    some (.object [("usage", .object [("prompt_tokens", .unsigned 3),
      ("completion_tokens", .unsigned 2)])])
  else none

def asciiBytes (text : Text) : List UInt8 := text.map fun c => UInt8.ofNat c.toNat

/-- The line of the usage and the line that ends the stream, cut inside of both. -/
def usageChunks : List (List UInt8) :=
  [asciiBytes ("da".toList), asciiBytes ("ta: ".toList ++ usageText.take 9),
    asciiBytes (usageText.drop 9 ++ "\n\ndata: [DO".toList), asciiBytes ("NE]\n\nda".toList)]

theorem scan_usageChunks :
    ({} : UsageScanner).scanAll usageJson usageChunks = ⟨asciiBytes "da".toList, some (3, 2), true⟩ ∧
      ({} : UsageScanner).scanAll usageJson usageChunks =
        (({} : UsageScanner).scan usageJson usageChunks.flatten).1 := by
  have hshort : ShortLines usageChunks.flatten := ⟨by decide +kernel, by decide +kernel⟩
  obtain ⟨hsame, hscanned⟩ := scan_chunks usageJson usageChunks hshort
  refine ⟨?_, hsame⟩
  generalize ({} : UsageScanner).scanAll usageJson usageChunks = s at hscanned
  obtain ⟨buf, last, done⟩ := s
  rw [UsageScanner.mk.injEq]
  refine ⟨hscanned.buf.trans ?_, hscanned.last.trans ?_, hscanned.done.trans ?_⟩
  · decide +kernel
  · decide +kernel
  · decide +kernel

end Cja.Llm
