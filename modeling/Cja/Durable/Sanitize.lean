import Cja.Durable.Transcript

/-!
# Taking U+0000 out of a tool result

`sanitize_json_nuls` rewrites keys and strings at every depth and rebuilds each map from
its rewritten members. What it returns has no NUL, and it leaves a value without one as
it is. Nothing is lost as long as no object has two keys that are one after the rewrite;
of such keys only the last value stays.
-/
namespace Cja.Durable

/-! ## Texts -/

theorem hasNul_iff {text : String} : hasNul text = true ↔ nul ∈ text.toList := by
  simp [hasNul]

theorem replaceNuls_of_not {text : String} (h : hasNul text = false) : replaceNuls text = text := by
  rw [replaceNuls, h]
  rfl

theorem hasNul_replaceNuls (text : String) : hasNul (replaceNuls text) = false := by
  unfold replaceNuls
  split
  · rw [Bool.eq_false_iff]
    intro h
    rw [hasNul_iff, String.toList_ofList, List.mem_map] at h
    obtain ⟨c, -, hc⟩ := h
    split at hc
    · revert hc
      decide
    · next hne => exact hne hc
  · next h => exact Bool.eq_false_iff.2 h

/-! ## Maps -/

namespace Json

variable {order : MapOrder} {key : String} {value : Json} {m : String × Json}
variable {map members : List (String × Json)} {v : Json} {vs : List Json}

/-- The keys in a map. -/
def keys (members : List (String × Json)) : List String := members.map Prod.fst

/-- What a map keeps of the order of its keys. -/
def Ordered : MapOrder → List (String × Json) → Prop
  | .sorted, members => (keys members).Pairwise (· < ·)
  | .inserted, members => (keys members).Nodup

theorem Ordered.nodup (h : Ordered order members) : (keys members).Nodup := by
  cases order with
  | sorted => exact h.imp ne_of_lt
  | inserted => exact h

theorem Ordered.tail (h : Ordered order (m :: members)) : Ordered order members := by
  cases order with
  | sorted => exact (List.pairwise_cons.1 h).2
  | inserted => exact (List.nodup_cons.1 h).2

theorem Ordered.left (h : Ordered order (map ++ members)) : Ordered order map := by
  have hkeys : keys (map ++ members) = keys map ++ keys members := List.map_append
  cases order with
  | sorted =>
      simp only [Ordered, hkeys] at h
      exact (List.pairwise_append.1 h).1
  | inserted =>
      simp only [Ordered, hkeys] at h
      exact (List.nodup_append.1 h).1

theorem Ordered.not_mem (h : Ordered order (m :: members)) : m.1 ∉ keys members :=
  (List.nodup_cons.1 h.nodup).1

/-- A key that goes before the first one of a sorted map is not in it. -/
theorem not_mem_of_before (h : Ordered order (m :: members)) (hbefore : order = .sorted ∧ key < m.1) :
    key ∉ keys (m :: members) := by
  obtain ⟨rfl, hlt⟩ := hbefore
  intro hmem
  rcases List.mem_cons.1 hmem with rfl | hmem
  · exact lt_irrefl _ hlt
  · exact lt_asymm hlt ((List.pairwise_cons.1 h).1 key hmem)

/-- A key in place keeps its place. -/
theorem keys_insertMember_of_mem (h : Ordered order map) (hkey : key ∈ keys map) :
    keys (insertMember order key value map) = keys map := by
  induction map with
  | nil => cases hkey
  | cons m ms ih =>
      simp only [insertMember]
      split
      · next heq => simp [keys, heq]
      · next hne =>
          split
          · next hbefore => exact absurd hkey (not_mem_of_before h hbefore)
          · have hrest : key ∈ keys ms := by
              rcases List.mem_cons.1 hkey with heq | hrest
              · exact absurd heq hne
              · exact hrest
            exact congrArg (m.1 :: ·) (ih h.tail hrest)

/-- A new key is one member more. -/
theorem insertMember_perm (hkey : key ∉ keys map) :
    (insertMember order key value map).Perm ((key, value) :: map) := by
  induction map with
  | nil => exact List.Perm.refl _
  | cons m ms ih =>
      have hne : key ≠ m.1 := fun heq => hkey (heq ▸ List.mem_cons_self)
      have hrest : key ∉ keys ms := fun hmem => hkey (List.mem_cons_of_mem _ hmem)
      simp only [insertMember, if_neg hne]
      split
      · exact List.Perm.refl _
      · exact ((ih hrest).cons m).trans (List.Perm.swap (key, value) m ms)

theorem mem_keys_insertMember (h : Ordered order map) {k : String} :
    k ∈ keys (insertMember order key value map) ↔ k = key ∨ k ∈ keys map := by
  by_cases hkey : key ∈ keys map
  · rw [keys_insertMember_of_mem h hkey]
    constructor
    · exact .inr
    · rintro (rfl | hmem)
      · exact hkey
      · exact hmem
  · rw [keys, ((insertMember_perm hkey).map Prod.fst).mem_iff]
    exact List.mem_cons

/-- Insertion keeps the order of a map. -/
theorem ordered_insertMember (h : Ordered order map) :
    Ordered order (insertMember order key value map) := by
  induction map with
  | nil => cases order <;> simp [insertMember, Ordered, keys]
  | cons m ms ih =>
      simp only [insertMember]
      split
      · next heq =>
          have hkeys : keys ((key, value) :: ms) = keys (m :: ms) := by simp [keys, heq]
          cases order with
          | sorted => simpa only [Ordered, hkeys] using h
          | inserted => simpa only [Ordered, hkeys] using h
      · next hne =>
          split
          · next hbefore =>
              obtain ⟨rfl, hlt⟩ := hbefore
              refine List.pairwise_cons.2 ⟨fun k hk => ?_, h⟩
              rcases List.mem_cons.1 hk with rfl | hk
              · exact hlt
              · exact hlt.trans ((List.pairwise_cons.1 h).1 k hk)
          · next hafter =>
              have hrest := ih h.tail
              cases order with
              | sorted =>
                  have hlt : m.1 < key := lt_of_le_of_ne
                    (not_lt.1 fun hlt => hafter ⟨rfl, hlt⟩) (Ne.symm hne)
                  refine List.pairwise_cons.2 ⟨fun k hk => ?_, hrest⟩
                  rcases (mem_keys_insertMember h.tail).1 hk with rfl | hk
                  · exact hlt
                  · exact (List.pairwise_cons.1 h).1 k hk
              | inserted =>
                  refine List.nodup_cons.2 ⟨fun hmem => ?_, hrest⟩
                  rcases (mem_keys_insertMember h.tail).1 hmem with heq | hmem
                  · exact hne heq.symm
                  · exact h.not_mem hmem

/-- A map gets its members back by insertion in their order. -/
theorem insertMember_last (h : Ordered order (map ++ [(key, value)])) :
    insertMember order key value map = map ++ [(key, value)] := by
  induction map with
  | nil => rfl
  | cons m ms ih =>
      have hmem : key ∈ keys (ms ++ [(key, value)]) := by simp [keys]
      have hne : key ≠ m.1 := fun heq => h.not_mem (heq ▸ hmem)
      have hafter : ¬ (order = .sorted ∧ key < m.1) :=
        fun hbefore => not_mem_of_before h hbefore (List.mem_cons_of_mem _ hmem)
      simp only [insertMember, if_neg hne, if_neg hafter, List.cons_append]
      exact congrArg (m :: ·) (ih h.tail)

theorem length_insertMember_of_mem (h : Ordered order map) (hkey : key ∈ keys map) :
    (insertMember order key value map).length = map.length := by
  have hkeys : keys (insertMember order key value map) = keys map :=
    keys_insertMember_of_mem h hkey
  simpa only [keys, List.length_map] using congrArg List.length hkeys

theorem length_insertMember_of_not_mem (hkey : key ∉ keys map) :
    (insertMember order key value map).length = map.length + 1 :=
  (insertMember_perm hkey).length_eq

/-! ## Rebuilt maps -/

/-- A member with its key and its value rewritten. -/
def rewritten (order : MapOrder) (m : String × Json) : String × Json :=
  (replaceNuls m.1, sanitizeJsonNuls order m.2)

theorem ordered_sanitizeMembers (h : Ordered order map) :
    Ordered order (sanitizeMembers order map members) := by
  induction members generalizing map with
  | nil => simpa only [sanitizeMembers] using h
  | cons m ms ih =>
      simp only [sanitizeMembers]
      exact ih (ordered_insertMember h)

theorem ordered_nil (order : MapOrder) : Ordered order [] := by
  cases order with
  | sorted => exact List.Pairwise.nil
  | inserted => exact List.nodup_nil

/-- Keys that stay apart leave every member in the map. -/
theorem sanitizeMembers_perm (hnodup : (keys (members.map (rewritten order))).Nodup)
    (hnew : ∀ k ∈ keys (members.map (rewritten order)), k ∉ keys map) :
    (sanitizeMembers order map members).Perm (map ++ members.map (rewritten order)) := by
  induction members generalizing map with
  | nil => simp [sanitizeMembers]
  | cons m ms ih =>
      obtain ⟨hfirst, hrest⟩ := List.nodup_cons.1 hnodup
      have hkey : replaceNuls m.1 ∉ keys map := hnew _ List.mem_cons_self
      have hperm : (insertMember order (replaceNuls m.1) (sanitizeJsonNuls order m.2) map).Perm
          (rewritten order m :: map) := insertMember_perm hkey
      simp only [sanitizeMembers]
      refine (ih hrest fun k hk hmem => ?_).trans ?_
      · rw [keys, (hperm.map Prod.fst).mem_iff] at hmem
        rcases List.mem_cons.1 hmem with rfl | hmem
        · exact hfirst hk
        · exact hnew k (List.mem_cons_of_mem _ hk) hmem
      · refine (hperm.append_right _).trans ?_
        rw [List.map_cons]
        exact List.perm_middle.symm

theorem length_sanitizeMembers_le (h : Ordered order map) :
    (sanitizeMembers order map members).length ≤ map.length + members.length := by
  induction members generalizing map with
  | nil => simp [sanitizeMembers]
  | cons m ms ih =>
      simp only [sanitizeMembers, List.length_cons]
      refine (ih (ordered_insertMember h)).trans ?_
      by_cases hkey : replaceNuls m.1 ∈ keys map
      · rw [length_insertMember_of_mem h hkey]
        omega
      · rw [length_insertMember_of_not_mem hkey]
        omega

/-- A map with as many members as there were had keys that stay apart. -/
theorem apart_of_length (h : Ordered order map)
    (hlength : (sanitizeMembers order map members).length = map.length + members.length) :
    (keys (members.map (rewritten order))).Nodup ∧
      ∀ k ∈ keys (members.map (rewritten order)), k ∉ keys map := by
  induction members generalizing map with
  | nil => exact ⟨List.nodup_nil, nofun⟩
  | cons m ms ih =>
      simp only [sanitizeMembers, List.length_cons] at hlength
      have hordered : Ordered order
          (insertMember order (replaceNuls m.1) (sanitizeJsonNuls order m.2) map) :=
        ordered_insertMember h
      by_cases hkey : replaceNuls m.1 ∈ keys map
      · have hle : (sanitizeMembers order _ ms).length ≤ _ := length_sanitizeMembers_le hordered
        rw [length_insertMember_of_mem h hkey] at hle
        omega
      · obtain ⟨hnodup, hnew⟩ := ih hordered (by
          rw [hlength, length_insertMember_of_not_mem hkey]
          omega)
        refine ⟨List.nodup_cons.2 ⟨fun hmem => ?_, hnodup⟩, fun k hk => ?_⟩
        · exact hnew _ hmem ((mem_keys_insertMember h).2 (.inl rfl))
        · rcases List.mem_cons.1 hk with rfl | hk
          · exact hkey
          · exact fun hmem => hnew k hk ((mem_keys_insertMember h).2 (.inr hmem))

/-! ## What is kept -/

mutual

/-- The same shape, with every item and every member in it, rewritten. -/
def Kept (order : MapOrder) : Json → Json → Prop
  | string text, w => w = string (replaceNuls text)
  | array items, w => ∃ items', w = array items' ∧ KeptItems order items items'
  | object members, w => ∃ members', w = object members' ∧
      members'.length = members.length ∧ KeptMembers order members members'
  | v, w => w = v

def KeptItems (order : MapOrder) : List Json → List Json → Prop
  | [], ws => ws = []
  | v :: vs, ws => ∃ ws', ws = sanitizeJsonNuls order v :: ws' ∧
      Kept order v (sanitizeJsonNuls order v) ∧ KeptItems order vs ws'

def KeptMembers (order : MapOrder) : List (String × Json) → List (String × Json) → Prop
  | [], _ => True
  | m :: ms, members' => (replaceNuls m.1, sanitizeJsonNuls order m.2) ∈ members' ∧
      Kept order m.2 (sanitizeJsonNuls order m.2) ∧ KeptMembers order ms members'

end

mutual

/-- No object has two keys that are one after the rewrite. -/
def KeysApart : Json → Prop
  | array items => ItemsApart items
  | object members => (members.map fun m => replaceNuls m.1).Nodup ∧ MembersApart members
  | _ => True

def ItemsApart : List Json → Prop
  | [] => True
  | v :: vs => KeysApart v ∧ ItemsApart vs

def MembersApart : List (String × Json) → Prop
  | [] => True
  | m :: ms => KeysApart m.2 ∧ MembersApart ms

end

theorem keys_rewritten (order : MapOrder) (members : List (String × Json)) :
    keys (members.map (rewritten order)) = members.map fun m => replaceNuls m.1 := by
  simp [keys, rewritten, Function.comp_def]

mutual

theorem kept_iff (order : MapOrder) : ∀ v : Json,
    Kept order v (sanitizeJsonNuls order v) ↔ KeysApart v
  | null => by simp [Kept, sanitizeJsonNuls, KeysApart]
  | bool b => by simp [Kept, sanitizeJsonNuls, KeysApart]
  | number text => by simp [Kept, sanitizeJsonNuls, KeysApart]
  | string text => by simp [Kept, sanitizeJsonNuls, KeysApart]
  | array items => by
      simpa [Kept, sanitizeJsonNuls, KeysApart] using keptItems_iff order items
  | object members => by
      have hmembers := keptMembers_iff order members
      simp only [Kept, sanitizeJsonNuls, KeysApart, object.injEq, exists_eq_left']
      constructor
      · rintro ⟨hlength, hkept⟩
        have happart := (apart_of_length (ordered_nil order) (by simpa using hlength)).1
        rw [keys_rewritten] at happart
        exact ⟨happart, ((hmembers _).1 hkept).2⟩
      · rintro ⟨hnodup, happart⟩
        rw [← keys_rewritten order] at hnodup
        have hperm : (sanitizeMembers order [] members).Perm ([] ++ members.map (rewritten order)) :=
          sanitizeMembers_perm hnodup (by simp [keys])
        refine ⟨by simpa using hperm.length_eq, (hmembers _).2 ⟨fun m hm => ?_, happart⟩⟩
        exact hperm.mem_iff.2 (List.mem_map_of_mem hm)

theorem keptItems_iff (order : MapOrder) : ∀ vs : List Json,
    KeptItems order vs (sanitizeItems order vs) ↔ ItemsApart vs
  | [] => by simp [KeptItems, sanitizeItems, ItemsApart]
  | v :: vs => by
      have hv := kept_iff order v
      have hvs := keptItems_iff order vs
      simp [KeptItems, sanitizeItems, ItemsApart, hv, hvs]

theorem keptMembers_iff (order : MapOrder) : ∀ (members members' : List (String × Json)),
    KeptMembers order members members' ↔
      (∀ m ∈ members, rewritten order m ∈ members') ∧ MembersApart members
  | [], _ => by simp [KeptMembers, MembersApart]
  | m :: ms, members' => by
      have hm := kept_iff order m.2
      have hms := keptMembers_iff order ms members'
      simp only [KeptMembers, MembersApart, hm, hms, List.forall_mem_cons, rewritten]
      tauto

end

/-! ## Without NUL -/

mutual

/-- Every string and every key in a value. -/
def texts : Json → List String
  | string text => [text]
  | array items => itemTexts items
  | object members => memberTexts members
  | _ => []

def itemTexts : List Json → List String
  | [] => []
  | v :: vs => texts v ++ itemTexts vs

def memberTexts : List (String × Json) → List String
  | [] => []
  | m :: ms => m.1 :: texts m.2 ++ memberTexts ms

end

mutual

/-- The test finds a NUL in a string or a key at any depth. -/
theorem jsonHasNul_iff : ∀ v : Json, jsonHasNul v = true ↔ ∃ text ∈ texts v, hasNul text = true
  | null => by simp [jsonHasNul, texts]
  | bool b => by simp [jsonHasNul, texts]
  | number text => by simp [jsonHasNul, texts]
  | string text => by simp [jsonHasNul, texts]
  | array items => by simpa [jsonHasNul, texts] using itemsHaveNul_iff items
  | object members => by simpa [jsonHasNul, texts] using membersHaveNul_iff members

theorem itemsHaveNul_iff : ∀ vs : List Json,
    itemsHaveNul vs = true ↔ ∃ text ∈ itemTexts vs, hasNul text = true
  | [] => by simp [itemsHaveNul, itemTexts]
  | v :: vs => by
      have hv := jsonHasNul_iff v
      have hvs := itemsHaveNul_iff vs
      simp only [itemsHaveNul, itemTexts, Bool.or_eq_true, hv, hvs, List.mem_append, or_and_right,
        exists_or]

theorem membersHaveNul_iff : ∀ members : List (String × Json),
    membersHaveNul members = true ↔ ∃ text ∈ memberTexts members, hasNul text = true
  | [] => by simp [membersHaveNul, memberTexts]
  | m :: ms => by
      have hm := jsonHasNul_iff m.2
      have hms := membersHaveNul_iff ms
      simp only [membersHaveNul, memberTexts, Bool.or_eq_true, hm, hms, List.mem_append,
        List.mem_cons, or_and_right, exists_or, exists_eq_left]

end

theorem membersHaveNul_insertMember (hkey : hasNul key = false) (hvalue : jsonHasNul value = false)
    (h : membersHaveNul map = false) :
    membersHaveNul (insertMember order key value map) = false := by
  induction map with
  | nil => simp [insertMember, membersHaveNul, hkey, hvalue]
  | cons m ms ih =>
      simp only [membersHaveNul, Bool.or_eq_false_iff] at h
      simp only [insertMember]
      split
      · simp [membersHaveNul, hkey, hvalue, h.2]
      · split
        · simp [membersHaveNul, hkey, hvalue, h]
        · simp [membersHaveNul, h.1, ih h.2]

mutual

theorem jsonHasNul_sanitize (order : MapOrder) : ∀ v : Json,
    jsonHasNul (sanitizeJsonNuls order v) = false
  | null => by simp [jsonHasNul, sanitizeJsonNuls]
  | bool b => by simp [jsonHasNul, sanitizeJsonNuls]
  | number text => by simp [jsonHasNul, sanitizeJsonNuls]
  | string text => by simp [jsonHasNul, sanitizeJsonNuls, hasNul_replaceNuls]
  | array items => by
      simpa [jsonHasNul, sanitizeJsonNuls] using itemsHaveNul_sanitize order items
  | object members => by
      simpa [jsonHasNul, sanitizeJsonNuls] using
        membersHaveNul_sanitize order members [] (by simp [membersHaveNul])

theorem itemsHaveNul_sanitize (order : MapOrder) : ∀ vs : List Json,
    itemsHaveNul (sanitizeItems order vs) = false
  | [] => by simp [itemsHaveNul, sanitizeItems]
  | v :: vs => by
      have hv := jsonHasNul_sanitize order v
      have hvs := itemsHaveNul_sanitize order vs
      simp [itemsHaveNul, sanitizeItems, hv, hvs]

theorem membersHaveNul_sanitize (order : MapOrder) : ∀ members map : List (String × Json),
    membersHaveNul map = false → membersHaveNul (sanitizeMembers order map members) = false
  | [], map, h => by simpa [sanitizeMembers] using h
  | m :: ms, map, h => by
      have hm := jsonHasNul_sanitize order m.2
      simp only [sanitizeMembers]
      exact membersHaveNul_sanitize order ms _
        (membersHaveNul_insertMember (hasNul_replaceNuls m.1) hm h)

end

mutual

/-- A value of `serde_json`: every object is a map. -/
def Formed (order : MapOrder) : Json → Prop
  | array items => ItemsFormed order items
  | object members => Ordered order members ∧ MembersFormed order members
  | _ => True

def ItemsFormed (order : MapOrder) : List Json → Prop
  | [] => True
  | v :: vs => Formed order v ∧ ItemsFormed order vs

def MembersFormed (order : MapOrder) : List (String × Json) → Prop
  | [] => True
  | m :: ms => Formed order m.2 ∧ MembersFormed order ms

end

mutual

/-- A value without a NUL is left as it is. -/
theorem sanitize_of_not_hasNul (order : MapOrder) : ∀ v : Json, Formed order v →
    jsonHasNul v = false → sanitizeJsonNuls order v = v
  | null, _, _ => by simp [sanitizeJsonNuls]
  | bool b, _, _ => by simp [sanitizeJsonNuls]
  | number text, _, _ => by simp [sanitizeJsonNuls]
  | string text, _, h => by
      simp only [jsonHasNul] at h
      simp [sanitizeJsonNuls, replaceNuls_of_not h]
  | array items, hformed, h => by
      simp only [Formed, jsonHasNul] at hformed h
      simp [sanitizeJsonNuls, sanitizeItems_of_not_haveNul order items hformed h]
  | object members, hformed, h => by
      simp only [Formed, jsonHasNul] at hformed h
      simpa [sanitizeJsonNuls] using
        sanitizeMembers_of_not_haveNul order members [] hformed.1 hformed.2 h

theorem sanitizeItems_of_not_haveNul (order : MapOrder) : ∀ vs : List Json,
    ItemsFormed order vs → itemsHaveNul vs = false → sanitizeItems order vs = vs
  | [], _, _ => by simp [sanitizeItems]
  | v :: vs, hformed, h => by
      simp only [ItemsFormed] at hformed
      simp only [itemsHaveNul, Bool.or_eq_false_iff] at h
      have hv := sanitize_of_not_hasNul order v hformed.1 h.1
      have hvs := sanitizeItems_of_not_haveNul order vs hformed.2 h.2
      simp [sanitizeItems, hv, hvs]

theorem sanitizeMembers_of_not_haveNul (order : MapOrder) : ∀ members map : List (String × Json),
    Ordered order (map ++ members) → MembersFormed order members →
      membersHaveNul members = false → sanitizeMembers order map members = map ++ members
  | [], map, _, _, _ => by simp [sanitizeMembers]
  | m :: ms, map, hordered, hformed, h => by
      simp only [MembersFormed] at hformed
      simp only [membersHaveNul, Bool.or_eq_false_iff] at h
      have hm := sanitize_of_not_hasNul order m.2 hformed.1 h.1.2
      rw [List.append_cons] at hordered ⊢
      simp only [sanitizeMembers, hm, replaceNuls_of_not h.1.1]
      rw [insertMember_last hordered.left]
      exact sanitizeMembers_of_not_haveNul order ms _ hordered hformed.2 h.2

end

theorem membersFormed_insertMember (hvalue : Formed order value) (h : MembersFormed order map) :
    MembersFormed order (insertMember order key value map) := by
  induction map with
  | nil => simp [insertMember, MembersFormed, hvalue]
  | cons m ms ih =>
      simp only [MembersFormed] at h
      simp only [insertMember]
      split
      · simp [MembersFormed, hvalue, h.2]
      · split
        · simp [MembersFormed, hvalue, h]
        · simp [MembersFormed, h.1, ih h.2]

mutual

theorem formed_sanitize (order : MapOrder) : ∀ v : Json, Formed order (sanitizeJsonNuls order v)
  | null => by simp [Formed, sanitizeJsonNuls]
  | bool b => by simp [Formed, sanitizeJsonNuls]
  | number text => by simp [Formed, sanitizeJsonNuls]
  | string text => by simp [Formed, sanitizeJsonNuls]
  | array items => by simpa [Formed, sanitizeJsonNuls] using itemsFormed_sanitize order items
  | object members => by
      simp only [Formed, sanitizeJsonNuls]
      exact ⟨ordered_sanitizeMembers (ordered_nil order),
        membersFormed_sanitize order members [] (by simp [MembersFormed])⟩

theorem itemsFormed_sanitize (order : MapOrder) : ∀ vs : List Json,
    ItemsFormed order (sanitizeItems order vs)
  | [] => by simp [ItemsFormed, sanitizeItems]
  | v :: vs => by
      have hv := formed_sanitize order v
      have hvs := itemsFormed_sanitize order vs
      simp [ItemsFormed, sanitizeItems, hv, hvs]

theorem membersFormed_sanitize (order : MapOrder) : ∀ members map : List (String × Json),
    MembersFormed order map → MembersFormed order (sanitizeMembers order map members)
  | [], map, h => by simpa [sanitizeMembers] using h
  | m :: ms, map, h => by
      have hm := formed_sanitize order m.2
      simp only [sanitizeMembers]
      exact membersFormed_sanitize order ms _ (membersFormed_insertMember hm h)

end

theorem sanitize_sanitize (order : MapOrder) (v : Json) :
    sanitizeJsonNuls order (sanitizeJsonNuls order v) = sanitizeJsonNuls order v :=
  sanitize_of_not_hasNul order _ (formed_sanitize order v) (jsonHasNul_sanitize order v)

theorem nul_not_mem_texts (order : MapOrder) (v : Json) :
    ∀ text ∈ texts (sanitizeJsonNuls order v), nul ∉ text.toList := by
  intro text htext hmem
  have hnul := (jsonHasNul_iff (sanitizeJsonNuls order v)).2 ⟨text, htext, hasNul_iff.2 hmem⟩
  rw [jsonHasNul_sanitize] at hnul
  cases hnul

end Json

/-! ## Tool results -/

/-- What is put into a result is what is read from it; a JSON string may be read as the
text that it is. -/
structure Rig.Outputs (R : Rig) : Prop where
  asText_withText : ∀ result text, R.asText (R.withText result text) = some text
  asJson_withJson : ∀ result json, R.asJson (R.withJson result json) = some json
  asText_withJson : ∀ result json text, R.asText (R.withJson result json) = some text →
    json = .string text

/-- One text or one JSON value, and PostgreSQL takes it. -/
def Rig.Storable (R : Rig) (result : R.ToolResult) : Prop :=
  match R.asText result, R.asJson result with
  | some text, _ => hasNul text = false
  | none, some json => json.jsonHasNul = false
  | none, none => False

theorem Rig.storable_sanitize {R : Rig} (hR : R.Outputs) (result : R.ToolResult)
    (h : (R.asText result).isSome = true ∨ (R.asJson result).isSome = true) :
    R.Storable (R.sanitizeToolResult result) := by
  unfold Rig.sanitizeToolResult
  split
  · next text htext =>
      by_cases hnul : hasNul text = true
      · rw [if_pos hnul, Rig.Storable, hR.asText_withText]
        exact hasNul_replaceNuls text
      · rw [if_neg hnul, Rig.Storable, htext]
        exact Bool.eq_false_iff.2 hnul
  · next json htext hjson =>
      by_cases hnul : json.jsonHasNul = true
      · rw [if_pos hnul, Rig.Storable]
        cases hread : R.asText (R.withJson result (json.sanitizeJsonNuls R.mapOrder)) with
        | some text =>
            have hclean := Json.jsonHasNul_sanitize R.mapOrder json
            rw [hR.asText_withJson _ _ _ hread, Json.jsonHasNul] at hclean
            exact hclean
        | none =>
            rw [hR.asJson_withJson]
            exact Json.jsonHasNul_sanitize R.mapOrder json
      · rw [if_neg hnul, Rig.Storable, htext, hjson]
        exact Bool.eq_false_iff.2 hnul
  · next htext hjson =>
      rw [htext, hjson] at h
      rcases h with h | h <;> cases h

/-- No string and no key of a sanitized value has a NUL, a value without one is left as
it is, a second pass changes nothing, and a result of one text or one JSON value can be
stored afterwards. -/
theorem sanitize_nul_free (R : Rig) (hR : R.Outputs) :
    (∀ v : Json, (∀ text ∈ (v.sanitizeJsonNuls R.mapOrder).texts, nul ∉ text.toList) ∧
      (v.sanitizeJsonNuls R.mapOrder).jsonHasNul = false) ∧
    (∀ v : Json, v.Formed R.mapOrder → v.jsonHasNul = false → v.sanitizeJsonNuls R.mapOrder = v) ∧
    (∀ v : Json, (v.sanitizeJsonNuls R.mapOrder).sanitizeJsonNuls R.mapOrder =
      v.sanitizeJsonNuls R.mapOrder) ∧
    ∀ result, (R.asText result).isSome = true ∨ (R.asJson result).isSome = true →
      R.Storable (R.sanitizeToolResult result) :=
  ⟨fun v => ⟨Json.nul_not_mem_texts _ v, Json.jsonHasNul_sanitize _ v⟩,
    fun v => Json.sanitize_of_not_hasNul _ v, Json.sanitize_sanitize _, Rig.storable_sanitize hR⟩

/-- A rig whose results are one text or one JSON value. -/
def Rig.plain : Rig :=
  { Rig.scripted with
    ToolResult := String ⊕ Json
    answerExec := fun n _ _ => (n, .ok ())
    textResult := .inl
    invalidArgs := .inl
    asText := fun result => match result with
      | .inl text => some text
      | .inr (.string text) => some text
      | .inr _ => none
    asJson := fun result => match result with
      | .inl _ => none
      | .inr json => some json
    withText := fun _ text => .inl text
    withJson := fun _ json => .inr json }

theorem Rig.plain_outputs : Rig.plain.Outputs where
  asText_withText _ _ := rfl
  asJson_withJson _ _ := rfl
  asText_withJson _ json text h := by
    cases json with
    | string s => exact congrArg Json.string (Option.some.inj h)
    | _ => cases h

/-- The text of a NUL is stored as the text of the character that stands for it. -/
theorem sanitize_nul_free_plain :
    Rig.plain.Storable (Rig.plain.sanitizeToolResult (Sum.inl (String.singleton nul))) :=
  (sanitize_nul_free Rig.plain Rig.plain_outputs).2.2.2 (Sum.inl (String.singleton nul)) (.inl rfl)

/-! ## Nothing lost -/

/-- Every item and every member of a value is in the sanitized one exactly where no
object, at any depth, has two keys that are one after the rewrite. -/
theorem nothing_lost_iff (order : MapOrder) (v : Json) :
    v.Kept order (v.sanitizeJsonNuls order) ↔ v.KeysApart := Json.kept_iff order v

/-- Two keys that differ in a NUL and the character it is replaced by. -/
def twins : Json :=
  .object [(String.singleton nul, .number "1"), (String.singleton replacementCharacter, .number "2")]

theorem sanitize_twins (order : MapOrder) : twins.sanitizeJsonNuls order =
    .object [(String.singleton replacementCharacter, .number "2")] := by
  have hfirst : replaceNuls (String.singleton nul) = String.singleton replacementCharacter := by
    decide +kernel
  have hlast : replaceNuls (String.singleton replacementCharacter) =
      String.singleton replacementCharacter := by decide +kernel
  simp [twins, Json.sanitizeJsonNuls, Json.sanitizeMembers, Json.insertMember, hfirst, hlast]

theorem twins_not_kept (order : MapOrder) : ¬ twins.Kept order (twins.sanitizeJsonNuls order) := by
  rw [sanitize_twins]
  simp only [twins, Json.Kept, Json.object.injEq, exists_eq_left']
  exact fun ⟨hlength, _⟩ => absurd hlength (by decide)

/-- Only the last of two such members stays, in either kind of map. -/
theorem twins_lost : (twins.Formed .sorted ∧ twins.Formed .inserted) ∧
    ¬ twins.Kept .sorted (twins.sanitizeJsonNuls .sorted) ∧
    ¬ twins.Kept .inserted (twins.sanitizeJsonNuls .inserted) := by
  refine ⟨⟨?_, ?_⟩, twins_not_kept .sorted, twins_not_kept .inserted⟩
  · refine ⟨?_, trivial, trivial, trivial⟩
    simp only [Json.Ordered]
    decide +kernel
  · refine ⟨?_, trivial, trivial, trivial⟩
    simp only [Json.Ordered]
    decide +kernel

end Cja.Durable
