import Mathlib

/-!
# A finite file tree with subtree moves

A tree lists its nodes by path. `put` stores a node at a path, `cut` removes what stands
at a path and below, `graft` moves a subtree to another place. Each operation comes with
the node it leaves at every path.
-/
namespace FileTree

abbrev Path := List String

/-- The first entry of a path counts. -/
abbrev Tree (κ : Type) := List (Path × κ)

variable {κ : Type}

namespace Tree

def node (t : Tree κ) (p : Path) : Option κ := (t.find? fun e => e.1 = p).map Prod.snd

def put (t : Tree κ) (p : Path) (n : κ) : Tree κ := (p, n) :: t

/-- What stands at a path and below it is gone, but for what `keeps` spares. -/
def cutSparing (t : Tree κ) (keeps : Path → Bool) (p : Path) : Tree κ :=
  t.filter fun e => !decide (p <+: e.1) || keeps e.1

def cut (t : Tree κ) (p : Path) : Tree κ := t.cutSparing (fun _ => false) p

/-- A path below `src` as a path below `dst`. -/
def rebase (src dst p : Path) : Path := if src <+: p then dst ++ p.drop src.length else p

/-- `rename`: the subtree at `src` takes the place of the one at `dst`. -/
def graft (t : Tree κ) (src dst : Path) : Tree κ :=
  (t.cut dst).map fun e => (rebase src dst e.1, e.2)

/-- Whether no path strictly below has a node. -/
def bare (t : Tree κ) (p : Path) : Bool := t.all fun e => e.1 = p || !decide (p <+: e.1)

variable (t : Tree κ) {p q src dst : Path} {n : κ}

@[simp] theorem node_nil (q : Path) : node ([] : Tree κ) q = none := rfl

theorem node_cons (e : Path × κ) (q : Path) :
    node (e :: t) q = if e.1 = q then some e.2 else node t q := by
  simp only [node, List.find?_cons]
  by_cases h : e.1 = q <;> simp [h]

@[simp] theorem node_put (p : Path) (n : κ) (q : Path) :
    (t.put p n).node q = if p = q then some n else t.node q := t.node_cons (p, n) q

theorem node_put_self (p : Path) (n : κ) : (t.put p n).node p = some n := by simp

theorem node_put_of_ne (h : q ≠ p) : (t.put p n).node q = t.node q := by
  simp [Ne.symm h]

theorem node_filter (f : Path → Bool) (q : Path) :
    node (t.filter fun e => f e.1) q = if f q then t.node q else none := by
  induction t with
  | nil => simp
  | cons e t ih =>
      rw [List.filter_cons]
      split
      · next he =>
          rw [node_cons, node_cons, ih]
          by_cases heq : e.1 = q
          · rw [if_pos heq, if_pos heq, if_pos (heq ▸ he)]
          · rw [if_neg heq, if_neg heq]
      · next he =>
          rw [ih, node_cons]
          by_cases heq : e.1 = q
          · have hq : f q = false := by rw [← heq]; simpa using he
            simp [hq]
          · rw [if_neg heq]

theorem node_cutSparing (keeps : Path → Bool) (p q : Path) :
    (t.cutSparing keeps p).node q = if ¬ p <+: q ∨ keeps q = true then t.node q else none := by
  have h := t.node_filter (fun r => !decide (p <+: r) || keeps r) q
  simpa [cutSparing] using h

theorem node_cut (p q : Path) : (t.cut p).node q = if p <+: q then none else t.node q := by
  rw [cut, node_cutSparing]
  by_cases h : p <+: q <;> simp [h]

theorem node_cutSparing_of_not (keeps : Path → Bool) (h : ¬ p <+: q) :
    (t.cutSparing keeps p).node q = t.node q := by
  rw [node_cutSparing, if_pos (.inl h)]

theorem node_cut_of_not (h : ¬ p <+: q) : (t.cut p).node q = t.node q := by
  rw [node_cut, if_neg h]

theorem rebase_below (src dst r : Path) : rebase src dst (src ++ r) = dst ++ r := by
  simp [rebase]

theorem rebase_eq_iff (hp : ¬ dst <+: p) {r : Path} :
    rebase src dst p = dst ++ r ↔ p = src ++ r := by
  constructor
  · intro h
    simp only [rebase] at h
    split at h
    · next hsrc =>
        obtain ⟨r', rfl⟩ := hsrc
        simpa using h
    · exact absurd ⟨r, h.symm⟩ hp
  · rintro rfl
    exact rebase_below src dst r

theorem rebase_eq_other (hq : ¬ dst <+: q) (hq' : ¬ src <+: q) : rebase src dst p = q ↔ p = q := by
  constructor
  · intro h
    simp only [rebase] at h
    split at h
    · exact absurd ⟨_, h⟩ hq
    · exact h
  · rintro rfl
    exact if_neg hq'

private theorem node_map_rebase {f : Path → Path} {q q' : Path}
    (h : ∀ e ∈ t, f e.1 = q ↔ e.1 = q') : node (t.map fun e => (f e.1, e.2)) q = t.node q' := by
  induction t with
  | nil => rfl
  | cons e t ih =>
      rw [List.map_cons, node_cons, node_cons, ih fun e he => h e (List.mem_cons_of_mem _ he)]
      have he := h e List.mem_cons_self
      by_cases heq : f e.1 = q
      · rw [if_pos heq, if_pos (he.1 heq)]
      · rw [if_neg heq, if_neg fun hq => heq (he.2 hq)]

theorem not_prefix_of_mem_cut {e : Path × κ} (h : e ∈ t.cut p) : ¬ p <+: e.1 := by
  simpa [cut, cutSparing] using (List.mem_filter.1 h).2

/-- What stood below the source stands below the destination. -/
theorem node_graft (hsd : ¬ src <+: dst) (hds : ¬ dst <+: src) (r : Path) :
    (t.graft src dst).node (dst ++ r) = t.node (src ++ r) := by
  have hsrc : ¬ dst <+: src ++ r := by
    intro h
    rcases List.prefix_or_prefix_of_prefix h (List.prefix_append src r) with h | h
    · exact hds h
    · exact hsd h
  rw [graft, node_map_rebase _ fun e he => rebase_eq_iff (t.not_prefix_of_mem_cut he),
    node_cut_of_not _ hsrc]

/-- Nothing is left at the source. -/
theorem node_graft_source (hds : ¬ dst <+: src) (hsd : ¬ src <+: dst) (r : Path) :
    (t.graft src dst).node (src ++ r) = none := by
  have hne : ∀ e ∈ t.cut dst, rebase src dst e.1 ≠ src ++ r := by
    intro e he h
    simp only [rebase] at h
    split at h
    · have hpre : dst <+: src ++ r := ⟨_, h⟩
      rcases List.prefix_or_prefix_of_prefix hpre (List.prefix_append src r) with h' | h'
      · exact hds h'
      · exact hsd h'
    · next hsrc => exact hsrc ⟨r, h.symm⟩
  simp only [node, Option.map_eq_none_iff, List.find?_eq_none, graft, List.mem_map]
  rintro e ⟨e', he', rfl⟩
  simpa using hne e' he'

/-- Other places keep their nodes. -/
theorem node_graft_of_not (hsrc : ¬ src <+: q) (hdst : ¬ dst <+: q) :
    (t.graft src dst).node q = t.node q := by
  rw [graft, node_map_rebase _ fun e _ => rebase_eq_other hdst hsrc, node_cut_of_not _ hdst]

end Tree

end FileTree
