import Cja.Assets.Manifest

/-!
# Names of outputs

An output stands under its logical name, and in `cja-assets` under the name with
the hash before the last dot of the file. Both are legal names: their parts are no
dot segments and their characters need no escape in a URL or a route.
-/
namespace Cja.Assets

variable {H : Host} {cs folder base : List Char} {name logicalName hash : String}
variable {outputs outputs' : List AssetRecord}

/-! ## Folder and file -/

/-- A name up to its last slash, and what follows. -/
structure Parted (cs folder base : List Char) : Prop where
  eq : cs = folder ++ base
  slash : folder = [] ∨ ∃ parent, folder = parent ++ ['/']
  base : '/' ∉ base

theorem parted_exists (cs : List Char) : ∃ folder base, Parted cs folder base := by
  induction cs with
  | nil => exact ⟨[], [], rfl, .inl rfl, by simp⟩
  | cons c cs ih =>
      obtain ⟨folder, base, rfl, hslash, hbase⟩ := ih
      by_cases hempty : folder = []
      · subst hempty
        by_cases hc : c = '/'
        · exact ⟨['/'], base, by simp [hc], .inr ⟨[], rfl⟩, hbase⟩
        · refine ⟨[], c :: base, by simp, .inl rfl, ?_⟩
          simp only [List.mem_cons, not_or]
          exact ⟨fun h => hc h.symm, hbase⟩
      · obtain ⟨parent, rfl⟩ := hslash.resolve_left hempty
        exact ⟨c :: (parent ++ ['/']), base, rfl, .inr ⟨c :: parent, rfl⟩, hbase⟩

theorem rsplitOnce_none {c : Char} (h : c ∉ cs) : rsplitOnce c cs = none := if_neg h

theorem rsplitOnce_append {c : Char} (front back : List Char) (h : c ∉ back) :
    rsplitOnce c (front ++ c :: back) = some (front, back) := by
  have hreverse : (front ++ c :: back).reverse = back.reverse ++ c :: front.reverse := by simp
  have hall : ∀ x ∈ back.reverse, decide (x ≠ c) = true := by
    intro x hx
    rw [decide_eq_true_eq]
    rintro rfl
    exact h (List.mem_reverse.1 hx)
  rw [rsplitOnce, if_pos (by simp), hreverse, List.dropWhile_append_of_pos hall,
    List.takeWhile_append_of_pos hall]
  simp

theorem components_append (front : List Char) (h : '/' ∉ base) :
    components (String.ofList (front ++ '/' :: base)) =
      components (String.ofList front) ++ [String.ofList base] := by
  simp only [components, String.toList_ofList, List.splitOn_append_cons_self,
    List.splitOn_eq_singleton h, List.map_append, List.map_cons, List.map_nil]

theorem components_base (h : '/' ∉ base) :
    components (String.ofList base) = [String.ofList base] := by
  simp only [components, String.toList_ofList, List.splitOn_eq_singleton h, List.map_cons,
    List.map_nil]

theorem Parted.components (h : Parted cs folder base) :
    ∃ parents, components (String.ofList cs) = parents ++ [String.ofList base] ∧
      ∀ base', '/' ∉ base' →
        components (String.ofList (folder ++ base')) = parents ++ [String.ofList base'] := by
  obtain ⟨rfl, hslash, hbase⟩ := h
  obtain rfl | ⟨parent, rfl⟩ := hslash
  · exact ⟨[], components_base hbase, fun base' h' => components_base h'⟩
  · refine ⟨Assets.components (String.ofList parent), ?_, fun base' h' => ?_⟩
    · simpa using components_append parent hbase
    · simpa using components_append parent h'

theorem Parted.fileName (h : Parted cs folder base) :
    fileName (String.ofList cs) = some (String.ofList base) := by
  obtain ⟨parents, heq, _⟩ := h.components
  rw [Assets.fileName, heq, List.getLast?_concat]

theorem Parted.folder_eq (h : Parted cs folder base) :
    (cs.reverse.dropWhile (· ≠ '/')).reverse = folder := by
  obtain ⟨rfl, hslash, hbase⟩ := h
  have hall : ∀ c ∈ base.reverse, decide (c ≠ '/') = true := by
    intro c hc
    rw [decide_eq_true_eq]
    rintro rfl
    exact hbase (List.mem_reverse.1 hc)
  rw [List.reverse_append, List.dropWhile_append_of_pos hall]
  obtain rfl | ⟨parent, rfl⟩ := hslash
  · rfl
  · simp

theorem Parted.unique {folder' base' : List Char} (h : Parted cs folder base)
    (h' : Parted cs folder' base') : folder' = folder ∧ base' = base := by
  have hfolder : folder' = folder := h'.folder_eq.symm.trans h.folder_eq
  have hjoin : folder ++ base' = folder ++ base := by rw [← h.eq, h'.eq, hfolder]
  exact ⟨hfolder, List.append_cancel_left hjoin⟩

/-- Only the file of a name changes. -/
theorem Parted.append (h : Parted cs folder base) {base' : List Char} (h' : '/' ∉ base') :
    Parted (folder ++ base') folder base' :=
  ⟨rfl, h.slash, h'⟩

/-! ## Legal names -/

def LegalPart (part : String) : Prop :=
  part ≠ "" ∧ part ≠ "." ∧ part ≠ ".." ∧ ∀ c ∈ part.toList, isNameChar c = true

/-- What `validate_name` accepts. -/
def Legal (name : String) : Prop := name ≠ "" ∧ ∀ part ∈ components name, LegalPart part

theorem validateName_ok {path : FileSystem.Path} :
    validateName name path = .ok () ↔ Legal name := by
  unfold validateName Legal LegalPart
  split
  · rename_i h
    simp only [reduceCtorEq, false_iff]
    rintro ⟨hne, hparts⟩
    simp only [Bool.or_eq_true, decide_eq_true_eq, List.any_eq_true] at h
    obtain h | ⟨part, hpart, h⟩ := h
    · exact hne h
    · obtain ⟨h1, h2, h3, h4⟩ := hparts part hpart
      simp [h1, h2, h3] at h
      grind
  · rename_i h
    simp only [true_iff]
    simp only [Bool.or_eq_true, decide_eq_true_eq, List.any_eq_true, not_or, not_exists] at h
    refine ⟨h.1, fun part hpart => ?_⟩
    have hpart := h.2 part
    simp at hpart
    grind

theorem mem_splitOn {c d : Char} (hc : c ∈ cs) (hne : c ≠ d) :
    ∃ piece ∈ cs.splitOn d, c ∈ piece := by
  induction cs with
  | nil => cases hc
  | cons x cs ih =>
      rw [List.splitOn_cons_eq_if_modifyHead]
      obtain ⟨piece, pieces, heq⟩ := List.exists_cons_of_ne_nil (List.splitOn_ne_nil d cs)
      rw [heq] at ih ⊢
      by_cases hx : x = d
      · subst hx
        rw [if_pos (beq_self_eq_true x)]
        obtain ⟨found, hfound, hmem⟩ := ih ((List.mem_cons.1 hc).resolve_left hne)
        exact ⟨found, List.mem_cons_of_mem _ hfound, hmem⟩
      · rw [if_neg (by simpa using hx), List.modifyHead_cons]
        obtain rfl | htail := List.mem_cons.1 hc
        · exact ⟨c :: piece, List.mem_cons_self .., List.mem_cons_self ..⟩
        · obtain ⟨found, hfound, hmem⟩ := ih htail
          obtain rfl | hfound := List.mem_cons.1 hfound
          · exact ⟨x :: found, List.mem_cons_self .., List.mem_cons_of_mem _ hmem⟩
          · exact ⟨found, List.mem_cons_of_mem _ hfound, hmem⟩

theorem Legal.chars (h : Legal name) : ∀ c ∈ name.toList, isNameChar c = true ∨ c = '/' := by
  intro c hc
  by_cases hslash : c = '/'
  · exact .inr hslash
  · left
    obtain ⟨piece, hpiece, hmem⟩ := mem_splitOn hc hslash
    apply (h.2 (String.ofList piece) (List.mem_map_of_mem hpiece)).2.2.2 c
    rwa [String.toList_ofList]

theorem Legal.file (h : Legal (String.ofList cs)) (hp : Parted cs folder base) :
    LegalPart (String.ofList base) := by
  obtain ⟨parents, heq, _⟩ := hp.components
  apply h.2
  rw [heq]
  exact List.mem_append_right _ (List.mem_singleton_self _)

/-- A legal file in the place of the file of a legal name makes a legal name. -/
theorem Legal.replace (h : Legal (String.ofList cs)) (hp : Parted cs folder base)
    {base' : List Char} (hbase : '/' ∉ base') (h' : LegalPart (String.ofList base')) :
    Legal (String.ofList (folder ++ base')) := by
  obtain ⟨parents, heq, hother⟩ := hp.components
  constructor
  · intro hempty
    have hlist : folder ++ base' = [] := by simpa using congrArg String.toList hempty
    apply h'.1
    rw [(List.append_eq_nil_iff.1 hlist).2]
  · intro part hpart
    rw [hother base' hbase, List.mem_append, List.mem_singleton] at hpart
    obtain hpart | rfl := hpart
    · apply h.2
      rw [heq]
      exact List.mem_append_left _ hpart
    · exact h'

/-! ## Hashed names -/

/-- The digest in hexadecimal digits, at least eight of them. -/
def HexDigest (H : Host) : Prop :=
  ∀ bytes, 8 ≤ (H.sha256Hex bytes).length ∧
    ∀ c ∈ (H.sha256Hex bytes).toList, c ∈ "0123456789abcdef".toList

theorem exists_last {c : Char} (h : c ∈ cs) : ∃ front back, cs = front ++ c :: back ∧ c ∉ back := by
  induction cs with
  | nil => cases h
  | cons d cs ih =>
      by_cases htail : c ∈ cs
      · obtain ⟨front, back, rfl, hback⟩ := ih htail
        exact ⟨d :: front, back, rfl, hback⟩
      · obtain rfl : c = d := (List.mem_cons.1 h).resolve_right htail
        exact ⟨[], cs, rfl, htail⟩

/-- The hash stands before the last dot, or at the end. -/
theorem hashedFile_eq (file hash : String) : ∃ front back : List Char,
    (hashedFile file hash).toList = front ++ '.' :: (hash.toList ++ back) ∧
      (∀ c ∈ front, c ∈ file.toList) ∧ ∀ c ∈ back, c = '.' ∨ c ∈ file.toList := by
  have hend : ∃ front back : List Char,
      (file ++ "." ++ hash).toList = front ++ '.' :: (hash.toList ++ back) ∧
        (∀ c ∈ front, c ∈ file.toList) ∧ ∀ c ∈ back, c = '.' ∨ c ∈ file.toList :=
    ⟨file.toList, [], by simp, fun _ h => h, by simp⟩
  unfold hashedFile
  by_cases hdot : '.' ∈ file.toList
  · obtain ⟨front, back, heq, hback⟩ := exists_last hdot
    rw [heq, rsplitOnce_append front back hback]
    by_cases hfront : front = []
    · simpa only [if_pos hfront, heq] using hend
    · refine ⟨front, '.' :: back, by simp [hfront], fun c hc => by simp [hc], fun c hc => ?_⟩
      simp only [List.mem_cons, List.mem_append] at hc ⊢
      tauto
  · rw [rsplitOnce_none hdot]
    exact hend

theorem hashedFile_legal {file : String} (hfile : LegalPart file) (hlength : hash.length = 8)
    (hhash : ∀ c ∈ hash.toList, c ∈ "0123456789abcdef".toList) : LegalPart (hashedFile file hash) := by
  obtain ⟨front, back, heq, hfront, hback⟩ := hashedFile_eq file hash
  have hlong : 8 < (hashedFile file hash).length := by
    rw [← String.length_toList, heq]
    simp only [List.length_append, List.length_cons, String.length_toList]
    omega
  have hdigits : ("0123456789abcdef".toList.all isNameChar) = true := by decide
  refine ⟨?_, ?_, ?_, ?_⟩
  · intro h
    rw [h] at hlong
    exact absurd hlong (by decide)
  · intro h
    rw [h] at hlong
    exact absurd hlong (by decide)
  · intro h
    rw [h] at hlong
    exact absurd hlong (by decide)
  · intro c hc
    rw [heq] at hc
    simp only [List.mem_append, List.mem_cons] at hc
    obtain hc | rfl | hc | hc := hc
    · exact hfile.2.2.2 c (hfront c hc)
    · decide
    · exact List.all_eq_true.1 hdigits c (hhash c hc)
    · obtain rfl | hc := hback c hc
      · decide
      · exact hfile.2.2.2 c hc

theorem not_whitespace {c : Char} (h : isNameChar c = true) : c.isWhitespace = false := by
  rw [Bool.eq_false_iff]
  intro hspace
  have hcases : ((c = ' ' ∨ c = '\t') ∨ c = '\r') ∨ c = '\n' := by
    simpa [Char.isWhitespace] using hspace
  obtain ((rfl | rfl) | rfl) | rfl := hcases <;> exact absurd h (by decide)

theorem slash_not_legal {part : String} (h : LegalPart part) : '/' ∉ part.toList := by
  intro hmem
  have hslash := h.2.2.2 '/' hmem
  revert hslash
  decide

theorem shortHash_length (hH : HexDigest H) (bytes : FileSystem.Bytes) :
    (shortHash H bytes).length = 8 := by
  rw [shortHash, ← String.length_toList, String.toList_ofList, List.length_take,
    String.length_toList]
  exact Nat.min_eq_left (hH bytes).1

theorem shortHash_hex (hH : HexDigest H) (bytes : FileSystem.Bytes) :
    ∀ c ∈ (shortHash H bytes).toList, c ∈ "0123456789abcdef".toList := by
  intro c hc
  rw [shortHash, String.toList_ofList] at hc
  exact (hH bytes).2 c (List.mem_of_mem_take hc)

/-! ## Adding an output -/

/-- The name in `cja-assets`: the folder of the logical name and the hashed file. -/
def HashedName (H : Host) (logicalName : String) (bytes : FileSystem.Bytes)
    (hashedName : String) : Prop :=
  ∃ folder base, Parted logicalName.toList folder base ∧ hashedName =
    String.ofList (folder ++ (hashedFile (String.ofList base) (shortHash H bytes)).toList)

theorem HashedName.legal {bytes : FileSystem.Bytes} {hashedName : String} (hH : HexDigest H)
    (hlegal : Legal logicalName) (h : HashedName H logicalName bytes hashedName) :
    Legal hashedName := by
  obtain ⟨folder, base, hp, rfl⟩ := h
  rw [← String.ofList_toList (s := logicalName)] at hlegal
  have hfile := hashedFile_legal (hlegal.file hp) (shortHash_length hH bytes)
    (shortHash_hex hH bytes)
  exact hlegal.replace hp (slash_not_legal hfile) (by rwa [String.ofList_toList])

/-- What a successful `add_output` did. -/
structure Added (H : Host) (outputs outputs' : List AssetRecord) (r : AssetRecord) : Prop where
  eq : outputs' = outputs ++ [r]
  legal : Legal r.logicalName
  hashed : HashedName H r.logicalName r.bytes r.hashedName
  fresh : ∀ r' ∈ outputs, r'.logicalName ≠ r.logicalName ∧ r'.hashedName ≠ r.hashedName

theorem addOutput_added {bytes : FileSystem.Bytes}
    {sourcePath : FileSystem.Path} {hashedName : String}
    (h : addOutput H outputs logicalName bytes sourcePath = .ok (outputs', hashedName)) :
    Added H outputs outputs'
      ⟨logicalName, hashedName, contentType H logicalName, sourcePath, bytes⟩ := by
  obtain ⟨folder, base, hp⟩ := parted_exists logicalName.toList
  have hfile := hp.fileName
  rw [String.ofList_toList] at hfile
  unfold addOutput at h
  cases hvalid : validateName logicalName sourcePath with
  | error e => rw [hvalid] at h; cases h
  | ok u =>
      rw [hvalid, hfile] at h
      dsimp only [Bind.bind, Except.bind] at h
      split at h
      · cases h
      · rename_i hfind
        cases h
        refine ⟨rfl, validateName_ok.1 hvalid, ⟨folder, base, hp, ?_⟩, fun r hr => ?_⟩
        · obtain ⟨heq, hslash, hbase⟩ := hp
          obtain rfl | ⟨parent, rfl⟩ := hslash
          · rw [heq, List.nil_append, rsplitOnce_none hbase]
            simp
          · rw [heq, List.append_assoc, List.singleton_append, rsplitOnce_append parent base hbase]
            simp [String.append_assoc]
        · have hne := List.find?_eq_none.1 hfind r hr
          simpa only [Bool.or_eq_true, beq_iff_eq, not_or] using hne

/-- What a build has collected. -/
structure Lists (H : Host) (outputs : List AssetRecord) : Prop where
  logical : (outputs.map AssetRecord.logicalName).Nodup
  hashed : (outputs.map AssetRecord.hashedName).Nodup
  named : ∀ r ∈ outputs, Legal r.logicalName ∧ HashedName H r.logicalName r.bytes r.hashedName

theorem lists_nil (H : Host) : Lists H [] := ⟨List.nodup_nil, List.nodup_nil, by simp⟩

theorem nodup_concat {α β : Type} {f : α → β} {xs : List α} {x : α} (h : (xs.map f).Nodup)
    (hx : ∀ y ∈ xs, f y ≠ f x) : ((xs ++ [x]).map f).Nodup := by
  rw [List.map_append, List.nodup_append]
  refine ⟨h, List.nodup_singleton _, fun a ha b hb => ?_⟩
  obtain ⟨y, hy, rfl⟩ := List.mem_map.1 ha
  rw [List.map_cons, List.map_nil, List.mem_singleton] at hb
  rw [hb]
  exact hx y hy

theorem Lists.added {r : AssetRecord} (h : Lists H outputs) (ha : Added H outputs outputs' r) :
    Lists H outputs' := by
  rw [ha.eq]
  refine ⟨nodup_concat h.logical fun r' hr' => (ha.fresh r' hr').1,
    nodup_concat h.hashed fun r' hr' => (ha.fresh r' hr').2, fun r' hr' => ?_⟩
  obtain hr' | hr' := List.mem_append.1 hr'
  · exact h.named r' hr'
  · rw [List.mem_singleton.1 hr']
    exact ⟨ha.legal, ha.hashed⟩

end Cja.Assets
