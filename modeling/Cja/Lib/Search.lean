import Mathlib

/-!
# A depth-first search with a shared list of seen nodes

The search enters a node once and follows its edges in order; a node met again is
passed over or stops the search. An edge may lead nowhere, and entering a node may
fail. What a search that ends has entered is what the first node reaches, and over
finitely many nodes every search ends.
-/
namespace DepthFirst

variable {α ι ω ε : Type}

/-- A search over nodes `α` with edges `ι`: what a node met again stops with,
what entering a node adds to the log and which edges it has, and where they lead. -/
structure Search (α ι ω ε : Type) where
  again : List α → α → Option ε
  enter : Bool → α → Except ε (List ω × List ι)
  follow : α → ι → Except ε α

structure State (α ω : Type) where
  seen : List α := []
  log : List ω := []
deriving DecidableEq

abbrev Outcome (α ω ε : Type) := Option (Except ε (State α ω))

/-- The edges of a node, one after another. -/
def through (follow : ι → Except ε α) (visit : α → State α ω → Outcome α ω ε) :
    List ι → State α ω → Outcome α ω ε
  | [], s => some (.ok s)
  | i :: edges, s =>
      match follow i with
      | .error e => some (.error e)
      | .ok b =>
          match visit b s with
          | some (.ok s) => through follow visit edges s
          | some (.error e) => some (.error e)
          | none => none

/-- `chain` leads to the node. Without fuel there is no result. -/
def Search.visit [DecidableEq α] (S : Search α ι ω ε) :
    ℕ → List α → α → State α ω → Outcome α ω ε
  | 0, _, _, _ => none
  | fuel + 1, chain, a, s =>
      if a ∈ s.seen then
        match S.again chain a with
        | some e => some (.error e)
        | none => some (.ok s)
      else
        match S.enter s.seen.isEmpty a with
        | .error e => some (.error e)
        | .ok (out, edges) =>
            through (S.follow a) (S.visit fuel (chain ++ [a])) edges
              ⟨s.seen ++ [a], s.log ++ out⟩

/-- A node of the search, with what it was entered with. -/
structure Entry (α ι ω : Type) where
  node : α
  out : List ω
  edges : List ι

def nodes (es : List (Entry α ι ω)) : List α := es.map Entry.node

namespace Search

/-- An edge of the searched graph. -/
def Edge (S : Search α ι ω ε) (a b : α) : Prop :=
  ∃ first out edges, S.enter first a = .ok (out, edges) ∧ ∃ i ∈ edges, S.follow a i = .ok b

def Reaches (S : Search α ι ω ε) : α → α → Prop := Relation.ReflTransGen S.Edge

/-- Where some edges of a node lead. -/
def heads (S : Search α ι ω ε) (a : α) (edges : List ι) : List α :=
  edges.filterMap fun i => (S.follow a i).toOption

def allHeads (S : Search α ι ω ε) (es : List (Entry α ι ω)) : List α :=
  es.flatMap fun e => S.heads e.node e.edges

/-- A node met again stops the search. -/
def Strict (S : Search α ι ω ε) : Prop := ∀ chain a, (S.again chain a).isSome

/-- What the edges of a node have entered, with `seen` before. -/
structure Explored (S : Search α ι ω ε) (a : α) (edges : List ι) (seen : List α)
    (es : List (Entry α ι ω)) : Prop where
  nodup : (nodes es).Nodup
  fresh : ∀ e ∈ es, e.node ∉ seen
  entered : ∀ e ∈ es, S.enter false e.node = .ok (e.out, e.edges)
  led : ∀ i ∈ edges, ∃ b, S.follow a i = .ok b ∧ b ∈ seen ++ nodes es
  closed : ∀ e ∈ es, ∀ i ∈ e.edges, ∃ b, S.follow e.node i = .ok b ∧ b ∈ seen ++ nodes es
  reached : ∀ e ∈ es, ∃ i ∈ edges, ∃ b, S.follow a i = .ok b ∧ S.Reaches b e.node
  once : S.Strict → (S.heads a edges ++ S.allHeads es).Perm (nodes es)

variable {S : Search α ι ω ε} {a b : α} {i : ι} {edges : List ι} {seen : List α}
variable {es es' : List (Entry α ι ω)} {e : Entry α ι ω}

theorem heads_cons (h : S.follow a i = .ok b) : S.heads a (i :: edges) = b :: S.heads a edges := by
  rw [heads, List.filterMap_cons, h]
  rfl

theorem Explored.nil (a : α) (seen : List α) : Explored S a [] seen [] where
  nodup := List.nodup_nil
  fresh := by simp
  entered := by simp
  led := by simp
  closed := by simp
  reached := by simp
  once := fun _ => .refl []

/-- An edge to a node seen before enters nothing. -/
theorem Explored.pass (h : Explored S a edges seen es) (hfollow : S.follow a i = .ok b)
    (hb : b ∈ seen) (hagain : ¬ S.Strict) : Explored S a (i :: edges) seen es where
  nodup := h.nodup
  fresh := h.fresh
  entered := h.entered
  led := by
    intro j hj
    rcases List.mem_cons.mp hj with rfl | hj
    · exact ⟨b, hfollow, List.mem_append_left _ hb⟩
    · exact h.led j hj
  closed := h.closed
  reached := by
    intro e he
    obtain ⟨j, hj, hreached⟩ := h.reached e he
    exact ⟨j, List.mem_cons_of_mem i hj, hreached⟩
  once := fun hstrict => absurd hstrict hagain

/-- An edge to a new node, what that node's edges entered, and the other edges. -/
theorem Explored.enter (he : S.enter false e.node = .ok (e.out, e.edges))
    (hfollow : S.follow a i = .ok e.node) (hnew : e.node ∉ seen)
    (h : Explored S e.node e.edges (seen ++ [e.node]) es)
    (h' : Explored S a edges (seen ++ e.node :: nodes es) es') :
    Explored S a (i :: edges) seen (e :: (es ++ es')) := by
  have hnodes : nodes (e :: (es ++ es')) = e.node :: nodes es ++ nodes es' := by
    simp [nodes]
  have hall : seen ++ nodes (e :: (es ++ es')) = seen ++ e.node :: nodes es ++ nodes es' := by
    rw [hnodes, ← List.append_assoc]
  -- what the new node saw is part of what is seen at the end
  have hsub : ∀ b ∈ seen ++ [e.node] ++ nodes es, b ∈ seen ++ nodes (e :: (es ++ es')) := by
    intro b hb
    rw [hall]
    apply List.mem_append_left
    simpa using hb
  refine ⟨?_, ?_, ?_, ?_, ?_, ?_, ?_⟩
  · rw [hnodes, List.nodup_append]
    refine ⟨List.nodup_cons.mpr ⟨?_, h.nodup⟩, h'.nodup, ?_⟩
    · intro hmem
      obtain ⟨d, hd, heq⟩ := List.mem_map.mp hmem
      exact h.fresh d hd (by simp [heq])
    · intro b hb c hc heq
      obtain ⟨d, hd, rfl⟩ := List.mem_map.mp hc
      exact h'.fresh d hd (List.mem_append_right _ (heq ▸ hb))
  · intro d hd
    rcases List.mem_cons.mp hd with rfl | hd
    · exact hnew
    · rcases List.mem_append.mp hd with hd | hd
      · exact fun hmem => h.fresh d hd (List.mem_append_left _ hmem)
      · exact fun hmem => h'.fresh d hd (List.mem_append_left _ hmem)
  · intro d hd
    rcases List.mem_cons.mp hd with rfl | hd
    · exact he
    · rcases List.mem_append.mp hd with hd | hd
      · exact h.entered d hd
      · exact h'.entered d hd
  · intro j hj
    rcases List.mem_cons.mp hj with rfl | hj
    · exact ⟨e.node, hfollow, hsub _ (by simp)⟩
    · obtain ⟨b, hb, hmem⟩ := h'.led j hj
      exact ⟨b, hb, hall ▸ hmem⟩
  · intro d hd j hj
    rcases List.mem_cons.mp hd with rfl | hd
    · obtain ⟨b, hb, hmem⟩ := h.led j hj
      exact ⟨b, hb, hsub b hmem⟩
    · rcases List.mem_append.mp hd with hd | hd
      · obtain ⟨b, hb, hmem⟩ := h.closed d hd j hj
        exact ⟨b, hb, hsub b hmem⟩
      · obtain ⟨b, hb, hmem⟩ := h'.closed d hd j hj
        exact ⟨b, hb, hall ▸ hmem⟩
  · intro d hd
    rcases List.mem_cons.mp hd with rfl | hd
    · exact ⟨i, List.mem_cons_self .., d.node, hfollow, .refl⟩
    · rcases List.mem_append.mp hd with hd | hd
      · obtain ⟨j, hj, b, hb, hreached⟩ := h.reached d hd
        have hedge : S.Edge e.node b := ⟨false, e.out, e.edges, he, j, hj, hb⟩
        exact ⟨i, List.mem_cons_self .., e.node, hfollow, .head hedge hreached⟩
      · obtain ⟨j, hj, hreached⟩ := h'.reached d hd
        exact ⟨j, List.mem_cons_of_mem i hj, hreached⟩
  · intro hstrict
    have hinner := h.once hstrict
    have houter := h'.once hstrict
    have hheads : S.allHeads (e :: (es ++ es')) =
        S.heads e.node e.edges ++ S.allHeads es ++ S.allHeads es' := by
      simp [allHeads]
    rw [hnodes, heads_cons hfollow, hheads, List.cons_append, List.cons_append]
    refine .cons e.node ?_
    calc (S.heads a edges ++ (S.heads e.node e.edges ++ S.allHeads es ++ S.allHeads es')).Perm
          (S.heads a edges ++ (nodes es ++ S.allHeads es')) :=
            (hinner.append_right _).append_left _
      _ |>.Perm (nodes es ++ (S.heads a edges ++ S.allHeads es')) := by
            rw [← List.append_assoc, ← List.append_assoc]
            exact List.perm_append_comm.append_right _
      _ |>.Perm (nodes es ++ nodes es') := houter.append_left _

/-- What a visit that ends has done. -/
inductive Visited (S : Search α ι ω ε) (b : α) (s : State α ω) : State α ω → Prop
  | again (hb : b ∈ s.seen) (h : ¬ S.Strict) : Visited S b s s
  | entered (hb : b ∉ s.seen) {e : Entry α ι ω} {es : List (Entry α ι ω)} (hnode : e.node = b)
      (he : S.enter s.seen.isEmpty b = .ok (e.out, e.edges))
      (h : Explored S b e.edges (s.seen ++ [b]) es) :
      Visited S b s ⟨s.seen ++ b :: nodes es, s.log ++ e.out ++ es.flatMap Entry.out⟩

theorem through_explored {visit : α → State α ω → Outcome α ω ε}
    (hvisit : ∀ b s s', visit b s = some (.ok s') → Visited S b s s') {s s' : State α ω}
    (hseen : s.seen ≠ []) (h : through (S.follow a) visit edges s = some (.ok s')) :
    ∃ es, Explored S a edges s.seen es ∧
      s' = ⟨s.seen ++ nodes es, s.log ++ es.flatMap Entry.out⟩ := by
  induction edges generalizing s with
  | nil =>
      cases h
      exact ⟨[], .nil a _, by simp [nodes]⟩
  | cons i edges ih =>
      rw [through] at h
      cases hfollow : S.follow a i with
      | error e => simp only [hfollow] at h; cases h
      | ok b =>
          cases hv : visit b s with
          | none => simp only [hfollow, hv] at h; cases h
          | some r =>
              cases r with
              | error e => simp only [hfollow, hv] at h; cases h
              | ok s₁ =>
                  simp only [hfollow, hv] at h
                  cases hvisit b s s₁ hv with
                  | again hb hagain =>
                      obtain ⟨es, hes, rfl⟩ := ih hseen h
                      exact ⟨es, hes.pass hfollow hb hagain, rfl⟩
                  | @entered hb e es hnode he hes =>
                      subst hnode
                      obtain ⟨es', hes', rfl⟩ := ih (by simp) h
                      have hempty : s.seen.isEmpty = false := by
                        rw [List.isEmpty_eq_false_iff]
                        exact hseen
                      rw [hempty] at he
                      refine ⟨e :: (es ++ es'), .enter he hfollow hb hes hes', ?_⟩
                      simp [nodes]

section

variable [DecidableEq α]

theorem visit_visited {fuel : ℕ} {chain : List α} {s s' : State α ω}
    (h : S.visit fuel chain b s = some (.ok s')) : Visited S b s s' := by
  induction fuel generalizing chain b s s' with
  | zero => cases h
  | succ fuel ih =>
      rw [visit] at h
      split at h
      · case _ hb =>
        cases hagain : S.again chain b with
        | some e => rw [hagain] at h; cases h
        | none =>
            rw [hagain] at h
            cases h
            refine .again hb fun hstrict => ?_
            have hsome := hstrict chain b
            rw [hagain] at hsome
            cases hsome
      · case _ hb =>
        cases he : S.enter s.seen.isEmpty b with
        | error e => simp only [he] at h; cases h
        | ok r =>
            obtain ⟨out, edges⟩ := r
            simp only [he] at h
            obtain ⟨es, hes, rfl⟩ := through_explored (fun _ _ _ hv => ih hv) (by simp) h
            have hvisited := Visited.entered (e := ⟨b, out, edges⟩) hb rfl he hes
            simpa using hvisited

/-- A search that ends has entered each node that the first one reaches, once. -/
theorem visit_explored {fuel : ℕ} {chain : List α} {s : State α ω}
    (h : S.visit fuel chain a {} = some (.ok s)) :
    ∃ (e : Entry α ι ω) (es : List (Entry α ι ω)), e.node = a ∧ S.enter true a = .ok (e.out, e.edges) ∧
      Explored S a e.edges [a] es ∧
      s = ⟨a :: nodes es, e.out ++ es.flatMap Entry.out⟩ := by
  cases visit_visited h with
  | again hb => cases hb
  | @entered hb e es hnode he hes => exact ⟨e, es, hnode, he, hes, rfl⟩

end

theorem Explored.reaches (he : S.enter true a = .ok (e.out, e.edges))
    (h : Explored S a e.edges seen es) (hb : b ∈ a :: nodes es) : S.Reaches a b := by
  rcases List.mem_cons.mp hb with rfl | hb
  · exact .refl
  · obtain ⟨d, hd, rfl⟩ := List.mem_map.mp hb
    obtain ⟨i, hi, c, hc, hreached⟩ := h.reached d hd
    exact .head ⟨true, e.out, e.edges, he, i, hi, hc⟩ hreached

/-- An edge leads to each node that was entered after the first. -/
theorem Explored.edge {first : Bool} {out : List ω} (he : S.enter first a = .ok (out, edges))
    (h : Explored S a edges seen es) (hb : b ∈ nodes es) : ∃ c, S.Edge c b := by
  obtain ⟨d, hd, rfl⟩ := List.mem_map.mp hb
  obtain ⟨i, hi, c, hc, hreached⟩ := h.reached d hd
  cases hreached with
  | refl => exact ⟨a, first, out, edges, he, i, hi, hc⟩
  | tail _ hedge => exact ⟨_, hedge⟩

theorem through_mono {visit visit' : α → State α ω → Outcome α ω ε}
    (hvisit : ∀ b s r, visit b s = some r → visit' b s = some r) {s : State α ω}
    {r : Except ε (State α ω)} (h : through (S.follow a) visit edges s = some r) :
    through (S.follow a) visit' edges s = some r := by
  induction edges generalizing s with
  | nil => exact h
  | cons i edges ih =>
      rw [through] at h ⊢
      cases hb : S.follow a i with
      | error e => simpa only [hb] using h
      | ok b =>
          simp only [hb] at h ⊢
          cases hv : visit b s with
          | none => rw [hv] at h; cases h
          | some r' =>
              rw [hvisit b s r' hv]
              rw [hv] at h
              cases r' with
              | error e => exact h
              | ok s' => exact ih h

/-! ## The search ends -/

variable [DecidableEq α]

def unseen (all seen : List α) : ℕ := all.countP fun a => decide (a ∉ seen)

theorem unseen_append (all seen new : List α) : unseen all (seen ++ new) ≤ unseen all seen := by
  apply List.countP_mono_left
  intro a _ ha
  simp only [decide_eq_true_eq, List.mem_append, not_or] at ha ⊢
  exact ha.1

theorem unseen_lt {all : List α} (ha : a ∈ all) (hnew : a ∉ seen) :
    unseen all (seen ++ [a]) < unseen all seen := by
  induction all with
  | nil => cases ha
  | cons b all ih =>
      have hle := unseen_append all seen [a]
      unfold unseen at hle ih ⊢
      rw [List.countP_cons, List.countP_cons]
      by_cases hb : b = a
      · subst hb
        rw [if_neg (by simp), if_pos (by simpa using hnew)]
        omega
      · have hlt := ih ((List.mem_cons.mp ha).resolve_left fun h => hb h.symm)
        have hsame : decide (b ∉ seen ++ [a]) = decide (b ∉ seen) := by
          simp [hb]
        rw [hsame]
        omega

theorem through_total {all : List α} {fuel : ℕ} {visit : α → State α ω → Outcome α ω ε}
    (hfollow : ∀ i b, S.follow a i = .ok b → b ∈ all)
    (hvisit : ∀ b s, b ∈ all → unseen all s.seen < fuel → (visit b s).isSome)
    (hgrows : ∀ b s s', visit b s = some (.ok s') → Visited S b s s') {s : State α ω}
    (hfuel : unseen all s.seen < fuel) : (through (S.follow a) visit edges s).isSome := by
  induction edges generalizing s with
  | nil => rfl
  | cons i edges ih =>
      rw [through]
      cases hb : S.follow a i with
      | error e => rfl
      | ok b =>
          have hsome := hvisit b s (hfollow i b hb) hfuel
          dsimp only
          cases hv : visit b s with
          | none => rw [hv] at hsome; cases hsome
          | some r =>
              cases r with
              | error e => rfl
              | ok s' =>
                  dsimp only
                  apply ih
                  cases hgrows b s s' hv with
                  | again => exact hfuel
                  | entered => exact lt_of_le_of_lt (unseen_append ..) hfuel

/-- Fuel for every node not yet seen is enough. -/
theorem visit_total {all : List α} (hfollow : ∀ a i b, S.follow a i = .ok b → b ∈ all) {fuel : ℕ}
    {chain : List α} {s : State α ω} (ha : a ∈ all) (hfuel : unseen all s.seen < fuel) :
    (S.visit fuel chain a s).isSome := by
  induction fuel generalizing chain a s with
  | zero => omega
  | succ fuel ih =>
      rw [visit]
      split
      · cases S.again chain a <;> rfl
      · case _ hnew =>
        cases S.enter s.seen.isEmpty a with
        | error e => rfl
        | ok r =>
            have hlt := unseen_lt ha hnew
            exact through_total (hfollow a) (fun b s hb hs => ih hb hs)
              (fun b s s' hv => visit_visited hv) (by dsimp only; omega)

/-- More fuel does not change a result. -/
theorem visit_mono {fuel fuel' : ℕ} (hle : fuel ≤ fuel') {chain : List α} {s : State α ω}
    {r : Except ε (State α ω)} (h : S.visit fuel chain a s = some r) :
    S.visit fuel' chain a s = some r := by
  induction fuel generalizing fuel' chain a s r with
  | zero => cases h
  | succ fuel ih =>
      obtain ⟨k, rfl⟩ : ∃ k, fuel' = k + 1 := ⟨fuel' - 1, by omega⟩
      rw [visit] at h ⊢
      split
      · case _ hseen =>
        rw [if_pos hseen] at h
        exact h
      · case _ hseen =>
        rw [if_neg hseen] at h
        cases he : S.enter s.seen.isEmpty a with
        | error e => simpa only [he] using h
        | ok out =>
            simp only [he] at h ⊢
            exact through_mono (fun b s r hv => ih (by omega) hv) h

/-- Every search over finitely many nodes has a result. -/
theorem visit_ends {all : List α} (hfollow : ∀ a i b, S.follow a i = .ok b → b ∈ all)
    (ha : a ∈ all) (chain : List α) :
    ∃ r, ∀ fuel, all.length < fuel → S.visit fuel chain a {} = some r := by
  have hunseen : unseen all (State.seen ({} : State α ω)) ≤ all.length := List.countP_le_length
  obtain ⟨r, hr⟩ := Option.isSome_iff_exists.mp
    (visit_total hfollow ha (Nat.lt_succ_of_le hunseen) : (S.visit _ chain a {}).isSome)
  refine ⟨r, fun fuel hfuel => visit_mono hfuel hr⟩

end Search

end DepthFirst
