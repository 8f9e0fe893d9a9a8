import Cja.Assets.Names
import Cja.Lib.Split

/-!
# The source map of a script

The bundler ends a script with the comment `//# sourceMappingURL=entry.js.map`, and
the build puts the file name of the hashed map in the place of `entry.js.map`. A
browser reads the last such comment and resolves what it names against the URL of
the script.
-/
namespace Cja.Assets
open Replace

variable {H : Host}

/-! ## The comment -/

def commentLead : List Char := "//# sourceMappingURL=".toList

/-- What a line names as the source map. -/
def commentUrl (line : List Char) : Option (List Char) :=
  if commentLead.isPrefixOf line then
    some ((line.drop commentLead.length).takeWhile fun c => !c.isWhitespace)
  else none

/-- The source map a script names: its last comment counts. -/
def sourceMappingUrl (text : String) : Option String :=
  ((text.toList.splitOn '\n').filterMap commentUrl).getLast?.map String.ofList

/-- The script of the bundler carries its comment. -/
def Commented (js : FileSystem.Bytes) : Prop :=
  ∃ text, decodeUtf8 js = some text ∧ sourceMappingUrl text = some "entry.js.map"

example : sourceMappingUrl "f();\n//# sourceMappingURL=entry.js.map\n" = some "entry.js.map" := by
  decide

theorem toList_loop (bytes : ByteArray) (i : ℕ) (read : List UInt8) :
    ByteArray.toList.loop bytes i read = read.reverse ++ bytes.data.toList.drop i := by
  rw [ByteArray.toList.loop]
  split
  · rename_i hi
    have hnext : bytes.data.toList.drop i = bytes.get! i :: bytes.data.toList.drop (i + 1) := by
      rw [List.drop_eq_getElem_cons (by simpa using hi)]
      congr 1
      simp [ByteArray.get!, hi]
    rw [toList_loop bytes (i + 1), hnext]
    simp
  · rename_i hi
    rw [List.drop_eq_nil_of_le (by simpa using hi), List.append_nil]
termination_by bytes.size - i

theorem decode_encode (text : String) : decodeUtf8 (encodeUtf8 text) = some text := by
  have hbytes : (⟨text.toUTF8.toList.toArray⟩ : ByteArray) = text.toUTF8 := by
    rw [ByteArray.toList, toList_loop]
    simp
  rw [decodeUtf8, encodeUtf8, hbytes, String.fromUTF8?, dif_pos (show text.toUTF8.IsValidUTF8 from text.isValidUTF8)]
  rfl

theorem intercalate_two (sep a b : String) : sep.intercalate [a, b] = a ++ (sep ++ b) := by
  apply String.toList_injective
  simp

theorem not_mem_splitOn {d : Char} {cs piece : List Char} (h : piece ∈ cs.splitOn d) :
    d ∉ piece := by
  induction cs generalizing piece with
  | nil =>
      rw [List.splitOn_nil, List.mem_singleton] at h
      simp [h]
  | cons x cs ih =>
      rw [List.splitOn_cons_eq_if_modifyHead] at h
      split at h
      · obtain rfl | h := List.mem_cons.1 h
        · simp
        · exact ih h
      · rename_i hx
        obtain ⟨first, rest, heq⟩ := List.exists_cons_of_ne_nil (List.splitOn_ne_nil d cs)
        rw [heq, List.modifyHead_cons] at h
        rw [heq] at ih
        obtain rfl | h := List.mem_cons.1 h
        · have hfirst := ih (List.mem_cons_self ..)
          rw [List.mem_cons, not_or]
          exact ⟨fun hd => hx (by simp [hd]), hfirst⟩
        · exact ih (List.mem_cons_of_mem _ h)

/-- The element that a filter keeps last. -/
theorem getLast_filterMap {α β : Type} {f : α → Option β} {xs : List α} {b : β}
    (h : (xs.filterMap f).getLast? = some b) :
    ∃ before x after, xs = before ++ x :: after ∧ f x = some b ∧ after.filterMap f = [] := by
  induction xs with
  | nil => cases h
  | cons a xs ih =>
      by_cases hrest : xs.filterMap f = []
      · cases ha : f a with
        | none => simp [ha, hrest] at h
        | some c =>
            rw [List.filterMap_cons_some ha, hrest] at h
            cases h
            exact ⟨[], a, xs, rfl, ha, hrest⟩
      · have htail : (xs.filterMap f).getLast? = some b := by
          cases ha : f a with
          | none => rwa [List.filterMap_cons_none ha] at h
          | some c =>
              rw [List.filterMap_cons_some ha] at h
              rwa [List.getLast?_cons_of_ne_nil hrest] at h
        obtain ⟨before, x, after, rfl, hx, hafter⟩ := ih htail
        exact ⟨a :: before, x, after, rfl, hx, hafter⟩

theorem commentUrl_some {line url : List Char} (h : commentUrl line = some url) :
    ∃ behind, line = commentLead ++ (url ++ behind) ∧
      ∀ c, behind.head? = some c → c.isWhitespace = true := by
  unfold commentUrl at h
  split at h
  · rename_i hlead
    obtain ⟨rest, rfl⟩ := List.isPrefixOf_iff_prefix.1 hlead
    cases h
    rw [List.drop_left]
    refine ⟨rest.dropWhile fun c => !c.isWhitespace, ?_, fun c hc => ?_⟩
    · rw [List.takeWhile_append_dropWhile]
    · have hnot := List.head?_dropWhile_not (fun c : Char => !c.isWhitespace) rest
      rw [hc] at hnot
      simpa using hnot
  · cases h

theorem commentUrl_eq {url behind : List Char} (hurl : ∀ c ∈ url, c.isWhitespace = false)
    (hbehind : ∀ c, behind.head? = some c → c.isWhitespace = true) :
    commentUrl (commentLead ++ (url ++ behind)) = some url := by
  have hall : ∀ c ∈ url, (!c.isWhitespace) = true := fun c hc => by simp [hurl c hc]
  have hlead : commentLead.isPrefixOf (commentLead ++ (url ++ behind)) = true :=
    List.isPrefixOf_iff_prefix.2 (List.prefix_append ..)
  rw [commentUrl, if_pos hlead, List.drop_left, List.takeWhile_append_of_pos hall]
  cases behind with
  | nil => simp
  | cons c behind => simp [hbehind c rfl]

theorem intercalate_between {α : Type} (sep : List α) (before after : List (List α)) :
    ∃ front back, ∀ x, sep.intercalate (before ++ x :: after) = front ++ (x ++ back) := by
  induction before with
  | nil =>
      cases after with
      | nil => exact ⟨[], [], fun x => by simp⟩
      | cons y after => exact ⟨[], sep ++ sep.intercalate (y :: after), fun x => by simp⟩
  | cons y before ih =>
      obtain ⟨front, back, heq⟩ := ih
      refine ⟨y ++ (sep ++ front), back, fun x => ?_⟩
      have hne : before ++ x :: after ≠ [] := by simp
      obtain ⟨z, zs, hz⟩ := List.exists_cons_of_ne_nil hne
      have hx := heq x
      rw [List.cons_append, hz, List.intercalate_cons_cons, ← hz, hx]
      simp

def mapReference : List Char := "sourceMappingURL=".toList

theorem commentLead_eq : commentLead = "//# ".toList ++ mapReference := by decide

/-- The needle of `build_entries`. -/
def oldReference : List Char := "sourceMappingURL=entry.js.map".toList

def entryMap : List Char := "entry.js.map".toList

theorem oldReference_eq : oldReference = mapReference ++ entryMap := by decide

theorem oldReference_ne_nil : oldReference ≠ [] := by
  have hlength : oldReference.length = 29 := by decide
  intro h
  rw [h] at hlength
  cases hlength

theorem splitOn_old (text : String) : text.splitOn "sourceMappingURL=entry.js.map" =
    (split oldReference text.toList).map String.ofList := by
  have hsplit := splitOn_ofList text.toList oldReference_ne_nil
  rw [String.ofList_toList] at hsplit
  rw [← hsplit]
  congr 1

theorem oldReference_borderless : Borderless oldReference := by
  have hall : (List.range oldReference.length).all (fun k =>
      k == 0 || !(oldReference.drop k).isPrefixOf oldReference) = true := by decide
  intro k hk hpos hprefix
  have hno := List.all_eq_true.1 hall k (List.mem_range.2 hk)
  rw [List.isPrefixOf_iff_prefix.2 hprefix] at hno
  simp only [Bool.not_true, Bool.or_false, beq_iff_eq] at hno
  omega

/-- Linking changes what the script names, and nothing else of what it says. -/
theorem linkSourceMap_names {entry : Entry} {js linked : FileSystem.Bytes} {mapHashed : String}
    {base : List Char} (hcomment : Commented js)
    (hfile : fileName mapHashed = some (String.ofList base))
    (hbase : ∀ c ∈ base, c.isWhitespace = false)
    (h : linkSourceMap entry js mapHashed = .ok linked) :
    ∃ text, decodeUtf8 linked = some text ∧ sourceMappingUrl text = some (String.ofList base) := by
  obtain ⟨text, hdecode, hurl⟩ := hcomment
  rw [sourceMappingUrl, Option.map_eq_some_iff] at hurl
  obtain ⟨url, hlast, hname⟩ := hurl
  have hurl : url = entryMap := by
    have htoList := congrArg String.toList hname
    rw [String.toList_ofList] at htoList
    exact htoList
  obtain ⟨before, line, after, hlines, hline, hafter⟩ := getLast_filterMap hlast
  obtain ⟨behind, rfl, hbehind⟩ := commentUrl_some hline
  obtain ⟨front, back, hjoin⟩ := intercalate_between ['\n'] before after
  have hsource : text.toList =
      (front ++ "//# ".toList) ++ (oldReference ++ (behind ++ back)) := by
    have hlast : ['\n'].intercalate (text.toList.splitOn '\n') = text.toList :=
      List.intercalate_splitOn '\n'
    rw [← hlast, hlines, hjoin, hurl]
    simp only [commentLead_eq, oldReference_eq, List.append_assoc]
  have hlinked : linked = encodeUtf8 (String.ofList
      ((front ++ "//# ".toList) ++ (mapReference ++ base ++ (behind ++ back)))) := by
    rw [linkSourceMap, hfile, hdecode] at h
    dsimp only at h
    rw [splitOn_old, List.length_map] at h
    split at h
    · cases h
    · rename_i hone
      cases h
      rw [hsource] at hone ⊢
      rw [split_of_length_two oldReference_ne_nil oldReference_borderless (not_not.1 hone)]
      rw [List.map_cons, List.map_cons, List.map_nil, intercalate_two]
      simp only [String.ofList_append, String.append_assoc]
      rfl
  have hlines' : (String.ofList ((front ++ "//# ".toList) ++
      (mapReference ++ base ++ (behind ++ back)))).toList.splitOn '\n' =
      before ++ (commentLead ++ (base ++ behind)) :: after := by
    have hpieces : ∀ piece ∈ before ++ (commentLead ++ (url ++ behind)) :: after,
        '\n' ∉ piece := by
      intro piece hpiece
      rw [← hlines] at hpiece
      exact not_mem_splitOn hpiece
    have hchanged : ∀ piece ∈ before ++ (commentLead ++ (base ++ behind)) :: after,
        '\n' ∉ piece := by
      intro piece hpiece
      rw [List.mem_append, List.mem_cons] at hpiece
      obtain hpiece | rfl | hpiece := hpiece
      · exact hpieces piece (List.mem_append_left _ hpiece)
      · have hold := hpieces (commentLead ++ (url ++ behind)) (by simp)
        simp only [List.mem_append, not_or] at hold ⊢
        refine ⟨hold.1, fun hmem => ?_, hold.2.2⟩
        exact absurd (hbase _ hmem) (by decide)
      · exact hpieces piece (List.mem_append_right _ (List.mem_cons_of_mem _ hpiece))
    have hjoined := List.splitOn_intercalate '\n' hchanged (by simp)
    rw [← hjoined, hjoin]
    simp only [String.toList_ofList, commentLead_eq, List.append_assoc]
  refine ⟨_, by rw [hlinked, decode_encode], ?_⟩
  rw [sourceMappingUrl, hlines', List.filterMap_append,
    List.filterMap_cons_some (commentUrl_eq hbase hbehind), hafter, List.getLast?_concat]
  rfl

/-! ## Resolution -/

def isDotSegment (segment : String) : Bool := segment = "." || segment = ".."

/-- The removal of `.` and `..` from an absolute path. -/
def removeDotSegments (path : String) : String :=
  let segments := components path
  let kept := segments.foldl (fun out segment =>
    if segment = "." then out
    else if segment = ".." then (if out.length ≤ 1 then out else out.dropLast)
    else out ++ [segment]) []
  "/".intercalate (if segments.getLast?.any isDotSegment then kept ++ [""] else kept)

/-- The path that a reference without scheme, authority, query and fragment names from
the path `base`. -/
def resolveUrl (base reference : String) : String :=
  removeDotSegments (
    if reference.toList.head? = some '/' then reference
    else String.ofList (base.toList.reverse.dropWhile (· ≠ '/')).reverse ++ reference)

example : resolveUrl "/assets/studio/app.js" "app.js.map" = "/assets/studio/app.js.map" := by
  decide

theorem intercalate_components (path : String) : "/".intercalate (components path) = path := by
  apply String.toList_injective
  rw [String.toList_intercalate, components, List.map_map]
  have hmap : (String.toList ∘ String.ofList : List Char → List Char) = id := by
    funext piece
    exact String.toList_ofList
  rw [hmap, List.map_id]
  exact List.intercalate_splitOn '/'

theorem removeDotSegments_plain {path : String}
    (h : ∀ segment ∈ components path, isDotSegment segment = false) :
    removeDotSegments path = path := by
  have hfold : ∀ (segments out : List String),
      (∀ segment ∈ segments, isDotSegment segment = false) →
      segments.foldl (fun out segment =>
        if segment = "." then out
        else if segment = ".." then (if out.length ≤ 1 then out else out.dropLast)
        else out ++ [segment]) out = out ++ segments := by
    intro segments
    induction segments with
    | nil => simp
    | cons segment segments ih =>
        intro out hall
        have hfirst := hall segment (List.mem_cons_self ..)
        simp only [isDotSegment, Bool.or_eq_false_iff, decide_eq_false_iff_not] at hfirst
        rw [List.foldl_cons, if_neg hfirst.1, if_neg hfirst.2,
          ih _ fun s hs => hall s (List.mem_cons_of_mem _ hs)]
        simp
  have hlast : (components path).getLast?.any isDotSegment = false := by
    cases hget : (components path).getLast? with
    | none => rfl
    | some segment => exact h segment (List.mem_of_getLast? hget)
  rw [removeDotSegments]
  simp only [hfold _ [] h, hlast, Bool.false_eq_true, if_false, List.nil_append]
  exact intercalate_components path

/-- A file name names the file beside the base. -/
theorem resolveUrl_sibling {base reference folder file : List Char}
    (hp : Parted base folder file) (href : '/' ∉ reference)
    (h : ∀ segment ∈ components (String.ofList (folder ++ reference)),
      isDotSegment segment = false) :
    resolveUrl (String.ofList base) (String.ofList reference) =
      String.ofList (folder ++ reference) := by
  have hhead : (String.ofList reference).toList.head? ≠ some '/' := by
    rw [String.toList_ofList]
    intro heq
    exact href (List.mem_of_head? heq)
  rw [resolveUrl, if_neg hhead, String.toList_ofList, hp.folder_eq, ← String.ofList_append,
    removeDotSegments_plain h]

end Cja.Assets
