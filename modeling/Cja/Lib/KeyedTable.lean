import Cja.Lib.StepRun

/-!
# Tables with a primary key

A table is a list of rows whose keys are pairwise different; the fact is a
field, so no statement can build a table that breaks it. `update`, `delete`
and `insert` are the three writing statements: the first two act on every row
a predicate selects, and `affected` counts these rows.

Proofs read a table only through `lookup`: each statement has one lemma saying
what it does to every key.
-/

/-- Rows with pairwise different keys. -/
structure KeyedTable {K R : Type*} (key : R → K) where
  rows : List R
  keys_nodup : (rows.map key).Nodup

namespace KeyedTable

variable {K R : Type*} {key : R → K}

def empty : KeyedTable key := ⟨[], List.nodup_nil⟩

theorem ext_rows {t u : KeyedTable key} (h : t.rows = u.rows) : t = u := by
  cases t; cases u; simpa using h

variable [DecidableEq K]

def lookup (t : KeyedTable key) (k : K) : Option R := t.rows.find? fun r => key r = k

/-- `UPDATE .. SET f WHERE p`, for an assignment that keeps the key. -/
def update (t : KeyedTable key) (p : R → Bool) (f : R → R) (hf : ∀ r, key (f r) = key r) :
    KeyedTable key where
  rows := t.rows.map fun r => if p r then f r else r
  keys_nodup := by
    have h : key ∘ (fun r => if p r then f r else r) = key := by
      funext r
      simp only [Function.comp_apply]
      split <;> simp [hf]
    simpa [List.map_map, h] using t.keys_nodup

/-- `DELETE .. WHERE p`. -/
def delete (t : KeyedTable key) (p : R → Bool) : KeyedTable key where
  rows := t.rows.filter fun r => !p r
  keys_nodup := t.keys_nodup.sublist (List.filter_sublist.map key)

/-- `INSERT`; refused where the key is taken. -/
def insert (t : KeyedTable key) (r : R) : Option (KeyedTable key) :=
  if h : t.lookup (key r) = none then
    some ⟨t.rows ++ [r], by
      rw [List.map_append, List.nodup_append]
      refine ⟨t.keys_nodup, by simp, ?_⟩
      intro a ha b hb
      simp only [List.map_cons, List.map_nil, List.mem_singleton] at hb
      obtain ⟨q, hq, rfl⟩ := List.mem_map.mp ha
      have hne := List.find?_eq_none.mp h q hq
      simpa [hb] using hne⟩
  else none

/-- The row count a statement with condition `p` reports. -/
def affected (t : KeyedTable key) (p : R → Bool) : ℕ := t.rows.countP p

@[simp] theorem lookup_empty (k : K) : (empty : KeyedTable key).lookup k = none := rfl

theorem key_of_lookup {t : KeyedTable key} {k : K} {r : R} (h : t.lookup k = some r) :
    key r = k := by simpa using List.find?_some h

theorem mem_of_lookup {t : KeyedTable key} {k : K} {r : R} (h : t.lookup k = some r) :
    r ∈ t.rows := List.mem_of_find?_eq_some h

theorem lookup_of_mem {t : KeyedTable key} {r : R} (h : r ∈ t.rows) :
    t.lookup (key r) = some r := by
  obtain ⟨rows, hn⟩ := t
  simp only [lookup] at h ⊢
  induction rows with
  | nil => simp at h
  | cons q qs ih =>
      rw [List.map_cons, List.nodup_cons] at hn
      rcases List.mem_cons.mp h with rfl | hq
      · simp
      · have hne : key q ≠ key r := fun he => hn.1 (he ▸ List.mem_map_of_mem hq)
        simpa [List.find?_cons, hne] using ih hn.2 hq

theorem lookup_eq_none_iff {t : KeyedTable key} {k : K} :
    t.lookup k = none ↔ ∀ r ∈ t.rows, key r ≠ k := by
  simp [lookup, List.find?_eq_none]

theorem lookup_update (t : KeyedTable key) (p : R → Bool) (f : R → R)
    (hf : ∀ r, key (f r) = key r) (k : K) :
    (t.update p f hf).lookup k = (t.lookup k).map fun r => if p r then f r else r := by
  simp only [lookup, update, List.find?_map]
  congr 2
  funext r
  simp only [Function.comp_apply]
  split <;> simp [hf]

theorem lookup_delete (t : KeyedTable key) (p : R → Bool) (k : K) :
    (t.delete p).lookup k = (t.lookup k).filter fun r => !p r := by
  cases hk : t.lookup k with
  | none =>
      rw [lookup_eq_none_iff] at hk
      exact lookup_eq_none_iff.mpr fun r hr => hk r (List.mem_of_mem_filter hr)
  | some r =>
      have hmem := mem_of_lookup hk
      have hkey := key_of_lookup hk
      cases hp : p r with
      | false =>
          have : r ∈ (t.delete p).rows := List.mem_filter.mpr ⟨hmem, by simp [hp]⟩
          simpa [hkey, Option.filter, hp] using lookup_of_mem this
      | true =>
          simp only [Option.filter, hp, Bool.not_true, Bool.false_eq_true, if_false]
          rw [lookup_eq_none_iff]
          intro q hq hqk
          have hq' := List.mem_filter.mp hq
          have : t.lookup (key q) = some q := lookup_of_mem hq'.1
          rw [hqk, hk] at this
          cases this
          simp [hp] at hq'

theorem insert_some_iff {t u : KeyedTable key} {r : R} :
    t.insert r = some u ↔ t.lookup (key r) = none ∧ u.rows = t.rows ++ [r] := by
  unfold insert
  split_ifs with h
  · constructor
    · intro he
      cases he
      exact ⟨h, rfl⟩
    · rintro ⟨-, hu⟩
      exact congrArg some (ext_rows hu.symm)
  · simp [h]

theorem lookup_insert {t u : KeyedTable key} {r : R} (h : t.insert r = some u) (k : K) :
    u.lookup k = if k = key r then some r else t.lookup k := by
  obtain ⟨hnone, hrows⟩ := insert_some_iff.mp h
  have hsplit : u.lookup k = (t.lookup k).or (if key r = k then some r else none) := by
    simp [lookup, hrows, List.find?_append, List.find?_cons]
    split <;> simp_all
  rw [hsplit]
  by_cases hk : k = key r
  · simp [hk, hnone]
  · simp [hk, Ne.symm hk]

theorem countP_of_key {rows : List R} (hn : (rows.map key).Nodup) {p : R → Bool} {k : K}
    (hp : ∀ r, p r → key r = k) :
    rows.countP p = if (rows.find? fun r => key r = k).any p then 1 else 0 := by
  induction rows with
  | nil => rfl
  | cons q qs ih =>
      rw [List.map_cons, List.nodup_cons] at hn
      rw [List.countP_cons, List.find?_cons, ih hn.2]
      by_cases hq : key q = k
      · have hrest : qs.find? (fun r => decide (key r = k)) = none := by
          rw [List.find?_eq_none]
          intro r hr
          have : key r ≠ k := fun he => hn.1 (by rw [hq, ← he]; exact List.mem_map_of_mem hr)
          simpa using this
        simp [hq, hrest]
      · have : p q = false := by
          cases h : p q with
          | false => rfl
          | true => exact absurd (hp q h) hq
        simp [hq, this]

/-- A condition that fixes the key counts one row or none. -/
theorem affected_eq (t : KeyedTable key) {p : R → Bool} {k : K} (hp : ∀ r, p r → key r = k) :
    t.affected p = if (t.lookup k).any p then 1 else 0 :=
  countP_of_key t.keys_nodup hp

/-- The rows with a given key are the row of that key. -/
theorem filter_key (t : KeyedTable key) (k : K) :
    t.rows.filter (fun r => key r = k) = (t.lookup k).toList := by
  obtain ⟨rows, hn⟩ := t
  simp only [lookup]
  induction rows with
  | nil => rfl
  | cons q qs ih =>
      rw [List.map_cons, List.nodup_cons] at hn
      by_cases hq : key q = k
      · have hrest : qs.filter (fun r => decide (key r = k)) = [] := by
          rw [List.filter_eq_nil_iff]
          intro r hr
          have : key r ≠ k := fun he => hn.1 (by rw [hq, ← he]; exact List.mem_map_of_mem hr)
          simpa using this
        simp [hq, hrest]
      · simpa [hq] using ih hn.2

/-- How many rows carry a key. -/
theorem count_key (t : KeyedTable key) (k : K) :
    t.rows.countP (fun r => key r = k) = if (t.lookup k).isSome then 1 else 0 := by
  have h := countP_of_key t.keys_nodup (p := fun r => decide (key r = k)) (k := k) (by simp)
  change _ = if (t.lookup k).any _ then 1 else 0 at h
  rw [h]
  cases hk : t.lookup k with
  | none => rfl
  | some r => simp [key_of_lookup hk]

/-- A row and the rows of the other keys are the table. -/
theorem rows_perm {t : KeyedTable key} {r : R} (hr : r ∈ t.rows) :
    (r :: t.rows.filter fun q => key q ≠ key r).Perm t.rows := by
  have hone : t.rows.filter (fun q => key q = key r) = [r] := by
    rw [filter_key t (key r), lookup_of_mem hr]
    rfl
  have hsplit := List.filter_append_perm (fun q => decide (key q = key r)) t.rows
  rw [hone] at hsplit
  simpa using hsplit

/-- The deletion of one row leaves the rows of the other keys. -/
theorem rows_delete {t : KeyedTable key} {r : R} (hr : r ∈ t.rows) {p : R → Bool}
    (hp : ∀ q, p q = true → key q = key r) (hpr : p r = true) :
    (t.delete p).rows = t.rows.filter fun q => key q ≠ key r := by
  refine List.filter_congr fun q hq => ?_
  rw [Bool.eq_iff_iff, Bool.not_eq_true', decide_eq_true_eq]
  constructor
  · intro hpq hkey
    have hsame : q = r := by
      have hlookup := lookup_of_mem hq
      rw [hkey, lookup_of_mem hr] at hlookup
      exact (Option.some.inj hlookup).symm
    rw [hsame, hpr] at hpq
    cases hpq
  · intro hne
    cases hpq : p q with
    | false => rfl
    | true => exact absurd (hp q hpq) hne

/-- An update of one row leaves the rows of the other keys. -/
theorem rows_update {t : KeyedTable key} {r : R} (hr : r ∈ t.rows) {p : R → Bool} {f : R → R}
    (hf : ∀ q, key (f q) = key q) (hp : ∀ q, p q = true → key q = key r) (hpr : p r = true) :
    (f r :: t.rows.filter fun q => key q ≠ key r).Perm (t.update p f hf).rows := by
  have hmap := (rows_perm hr).map fun q => if p q then f q else q
  have hothers : (t.rows.filter fun q => key q ≠ key r).map (fun q => if p q then f q else q) =
      t.rows.filter fun q => key q ≠ key r := by
    conv_rhs => rw [← List.map_id (t.rows.filter _)]
    refine List.map_congr_left fun q hq => ?_
    have hne : key q ≠ key r := by simpa using (List.mem_filter.mp hq).2
    rw [if_neg fun hpq => hne (hp q hpq), id]
  rw [List.map_cons, if_pos hpr, hothers] at hmap
  exact hmap

end KeyedTable
