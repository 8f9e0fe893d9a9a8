import Cja.Assets.SourceMap
import Cja.Assets.Served

/-!
# Embedding the generated manifest

`include_assets!` takes `cja_assets.rs` as the array of entries it is written as,
each with the bytes of the file it names. The reader below accepts the syntax that
the build writes, with the escapes of a string literal.
-/
namespace Cja.Assets
open FileSystem

/-! ## Reading the generated code -/

def expect (lead cs : List Char) : Option (List Char) :=
  if lead.isPrefixOf cs then some (cs.drop lead.length) else none

/-- A string literal after its opening quote: what it says, and what follows it. The
flag says that a backslash has been read. -/
def literalBody : Bool → List Char → Option (List Char × List Char)
  | _, [] => none
  | true, c :: cs =>
      if c = '"' || c = '\\' then (literalBody false cs).map fun r => (c :: r.1, r.2) else none
  | false, c :: cs =>
      if c = '"' then some ([], cs)
      else if c = '\\' then literalBody true cs
      else (literalBody false cs).map fun r => (c :: r.1, r.2)

def literal (cs : List Char) : Option (String × List Char) := do
  let body ← expect ['"'] cs
  let r ← literalBody false body
  pure (String.ofList r.1, r.2)

/-- One entry as it is written, with the file of its bytes. -/
structure Item where
  logicalName : String
  hashedName : String
  contentType : String
  file : String
deriving Repr, DecidableEq

def readItem (cs : List Char) : Option (Item × List Char) := do
  let cs ← expect "Asset \x7b logical_name: ".toList cs
  let logicalName ← literal cs
  let cs ← expect ", hashed_name: ".toList logicalName.2
  let hashedName ← literal cs
  let cs ← expect ", content_type: ".toList hashedName.2
  let contentType ← literal cs
  let cs ← expect ", bytes: include_bytes!(concat!(env!(\"OUT_DIR\"), ".toList contentType.2
  let file ← literal cs
  let cs ← expect ")) \x7d,\n".toList file.2
  pure (⟨logicalName.1, hashedName.1, contentType.1, file.1⟩, cs)

/-- The entries up to the end of the array. -/
def readItems : ℕ → List Char → Option (List Item)
  | 0, _ => none
  | n + 1, cs =>
      match readItem cs with
      | some (item, cs) => (readItems n cs).map (item :: ·)
      | none => if cs = "]\n".toList then some [] else none

def readManifest (code : String) : Option (List Item) := do
  let cs ← expect "[\n".toList code.toList
  readItems code.length cs

/-- `include_bytes!(concat!(env!("OUT_DIR"), file))` -/
def Item.embed (t : Tree) (outDir : Path) (item : Item) : Option Asset := do
  let name ← expect ['/'] item.file.toList
  let bytes ← t.content (outDir ++ components (String.ofList name))
  pure ⟨item.logicalName, item.hashedName, item.contentType, bytes⟩

/-- `include_assets!`: the manifest that the tree below `OUT_DIR` embeds. -/
def includeAssets (t : Tree) (outDir : Path) (owner : String) : Option Manifest := do
  let code ← t.content (manifestPath outDir)
  let text ← decodeUtf8 code
  let items ← readManifest text
  let entries ← items.mapM (Item.embed t outDir)
  pure ⟨owner, entries⟩

/-! ## What the build has written -/

variable {t : Tree} {outDir : Path} {outputs : List AssetRecord}

@[simp] theorem expect_append (lead rest : List Char) : expect lead (lead ++ rest) = some rest := by
  rw [expect, if_pos (List.isPrefixOf_iff_prefix.2 (List.prefix_append ..)), List.drop_left]

theorem literalBody_escaped (text rest : List Char) :
    literalBody false ((text.flatMap fun c => if c = '"' || c = '\\' then ['\\', c] else [c]) ++
      '"' :: rest) = some (text, rest) := by
  induction text with
  | nil => rfl
  | cons c text ih =>
      rw [List.flatMap_cons, List.append_assoc]
      by_cases hc : (c = '"' || c = '\\') = true
      · rw [if_pos hc, List.cons_append, List.cons_append, List.nil_append, literalBody,
          if_neg (by decide), if_pos rfl, literalBody, if_pos hc, ih, Option.map_some]
      · have hplain : c ≠ '"' ∧ c ≠ '\\' := by simpa using hc
        rw [if_neg hc, List.cons_append, List.nil_append, literalBody, if_neg hplain.1,
          if_neg hplain.2, ih, Option.map_some]

theorem literal_debugString (text : String) (rest : List Char) :
    literal ((debugString text).toList ++ rest) = some (text, rest) := by
  have hquotes : (debugString text).toList ++ rest =
      ['"'] ++ ((text.toList.flatMap fun c => if c = '"' || c = '\\' then ['\\', c] else [c]) ++
        '"' :: rest) := by
    simp only [debugString, String.toList_append, String.toList_ofList, List.append_assoc]
    rfl
  rw [hquotes, literal, expect_append]
  simp only [Option.bind_eq_bind, Option.bind_some, literalBody_escaped, Option.pure_def,
    String.ofList_toList]

def AssetRecord.item (r : AssetRecord) : Item :=
  ⟨r.logicalName, r.hashedName, r.contentType, "/cja-assets/" ++ r.hashedName⟩

def AssetRecord.asset (r : AssetRecord) : Asset :=
  ⟨r.logicalName, r.hashedName, r.contentType, r.bytes⟩

theorem readItem_line (r : AssetRecord) (rest : List Char) :
    readItem (r.line.toList ++ rest) = some (r.item, rest) := by
  unfold AssetRecord.line readItem
  -- The fixed texts are only compared with themselves.
  generalize "Asset \x7b logical_name: " = nameLead
  generalize ", hashed_name: " = hashedLead
  generalize ", content_type: " = typeLead
  generalize ", bytes: include_bytes!(concat!(env!(\"OUT_DIR\"), " = fileLead
  generalize ")) \x7d,\n" = lineEnd
  simp only [String.toList_append, List.append_assoc, expect_append, literal_debugString,
    Option.bind_eq_bind, Option.bind_some, Option.pure_def]
  rfl

theorem line_length_pos (r : AssetRecord) : 0 < r.line.toList.length := by
  rw [List.length_pos_iff]
  intro hempty
  have hread := readItem_line r []
  have hnone : readItem [] = none := rfl
  rw [hempty, List.append_nil, hnone] at hread
  cases hread

theorem length_le_lines (outputs : List AssetRecord) :
    outputs.length ≤ (outputs.flatMap fun r => r.line.toList).length := by
  induction outputs with
  | nil => exact Nat.le_refl 0
  | cons r outputs ih =>
      have hpos := line_length_pos r
      rw [List.flatMap_cons, List.length_append, List.length_cons]
      omega

theorem readItems_lines (outputs : List AssetRecord) {n : ℕ} (hn : outputs.length < n) :
    readItems n ((outputs.flatMap fun r => r.line.toList) ++ "]\n".toList) =
      some (outputs.map AssetRecord.item) := by
  induction outputs generalizing n with
  | nil =>
      cases n with
      | zero => cases hn
      | succ n =>
          have hend : readItem "]\n".toList = none := by rfl
          rw [List.flatMap_nil, List.nil_append, readItems, hend]
          rfl
  | cons r outputs ih =>
      cases n with
      | zero => cases hn
      | succ n =>
          rw [List.flatMap_cons, List.append_assoc, readItems, readItem_line]
          dsimp only
          rw [ih (Nat.lt_of_succ_lt_succ hn)]
          rfl

theorem readManifest_manifestText (outputs : List AssetRecord) :
    readManifest (manifestText outputs) = some (outputs.map AssetRecord.item) := by
  have htext : (manifestText outputs).toList =
      "[\n".toList ++ ((outputs.flatMap fun r => r.line.toList) ++ "]\n".toList) := by
    rw [manifestText, String.toList_append, String.toList_append, String.toList_join,
      List.flatMap_map, List.append_assoc]
  have hlines := length_le_lines outputs
  have hlong : outputs.length < (manifestText outputs).length := by
    have hlead : "[\n".toList.length = 2 := by decide
    rw [← String.length_toList, htext, List.length_append, List.length_append]
    omega
  rw [readManifest, htext, expect_append]
  exact readItems_lines outputs hlong

theorem embed_item {r : AssetRecord} (h : t.content (r.path outDir) = some r.bytes) :
    r.item.embed t outDir = some r.asset := by
  have hfile : r.item.file.toList = ['/'] ++ ("cja-assets".toList ++ '/' :: r.hashedName.toList) := by
    rw [AssetRecord.item, String.toList_append]
    rfl
  have hpath : outDir ++ components (String.ofList ("cja-assets".toList ++ '/' ::
      r.hashedName.toList)) = r.path outDir := by
    have hfinal : '/' ∉ "cja-assets".toList := by decide
    rw [components, String.toList_ofList, List.splitOn_append_cons_self,
      List.splitOn_eq_singleton hfinal, List.map_append, AssetRecord.path, finalDir,
      List.append_assoc]
    rfl
  rw [Item.embed, hfile, expect_append]
  simp only [Option.bind_eq_bind, Option.bind_some, hpath, h, Option.pure_def]
  rfl

/-- The manifest of a finished build lists its outputs, each with its bytes. -/
theorem includeAssets_published (owner : String) (h : Published outDir outputs t) :
    includeAssets t outDir owner = some ⟨owner, outputs.map AssetRecord.asset⟩ := by
  have hentries : ∀ rs : List AssetRecord, (∀ r ∈ rs, r ∈ outputs) →
      (rs.map AssetRecord.item).mapM (Item.embed t outDir) = some (rs.map AssetRecord.asset) := by
    intro rs
    induction rs with
    | nil => intro _; rfl
    | cons r rs ih =>
        intro hall
        have hfirst := embed_item (h.files r (hall r (List.mem_cons_self ..)))
        rw [List.map_cons, List.mapM_cons, hfirst,
          ih fun r hr => hall r (List.mem_cons_of_mem _ hr)]
        rfl
  rw [includeAssets, h.manifest]
  simp only [Option.bind_eq_bind, Option.bind_some, decode_encode, readManifest_manifestText,
    hentries outputs fun _ hr => hr, Option.pure_def]

end Cja.Assets
