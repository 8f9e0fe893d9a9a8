import Mathlib

/-!
# A file tree with symbolic links

Paths are walked part by part: `..` leaves the directory reached so far, and a link
is replaced by its target, a bounded number of times. `canonicalize` ends at a path
of names without links; the paths it can end at are those of the entries.
-/
namespace LinkTree

/-- The parts between the slashes of an absolute path. -/
abbrev Path := List String

inductive IoError where
  | notFound | notADirectory | isADirectory | tooManyLinks
deriving Repr, DecidableEq

def IoError.text : IoError → String
  | .notFound => "No such file or directory (os error 2)"
  | .notADirectory => "Not a directory (os error 20)"
  | .isADirectory => "Is a directory (os error 21)"
  | .tooManyLinks => "Too many levels of symbolic links (os error 40)"

/-- A link leads to its parts from the root or from its own directory. -/
inductive Node (κ : Type) where
  | file (content : κ)
  | dir
  | link (fromRoot : Bool) (parts : Path)
deriving Repr, DecidableEq

def Node.isLink {κ : Type} : Node κ → Bool
  | .link .. => true
  | .file _ | .dir => false

def Node.isDirectory {κ : Type} : Node κ → Bool
  | .dir => true
  | .file _ | .link .. => false

/-- Each entry stands in a directory, under a path of its own. -/
structure Tree (κ : Type) where
  entries : List (Path × Node κ)
  maxLinks : ℕ
  keys : (entries.map Prod.fst).Nodup
  parents : ∀ e ∈ entries, e.1 ≠ [] ∧
    (e.1.dropLast = [] ∨ ∃ d ∈ entries, d.1 = e.1.dropLast ∧ d.2.isDirectory = true)

variable {κ : Type}

namespace Tree

def node (t : Tree κ) (p : Path) : Option (Node κ) :=
  if p = [] then some .dir else (t.entries.find? fun e => e.1 == p).map Prod.snd

/-- Every path that has a node. -/
def paths (t : Tree κ) : List Path := [] :: t.entries.map Prod.fst

/-- A walk from `cur` over the parts ahead, where `follow` takes over at a link. -/
def walkWith (t : Tree κ) (follow : Path → Path → Except IoError Path) :
    Path → Path → Except IoError Path
  | cur, [] => .ok cur
  | cur, part :: rest =>
      match t.node cur with
      | some .dir =>
          if part = "" ∨ part = "." then walkWith t follow cur rest
          else if part = ".." then walkWith t follow cur.dropLast rest
          else
            match t.node (cur ++ [part]) with
            | none => .error .notFound
            | some (.link fromRoot parts) => follow (if fromRoot then [] else cur) (parts ++ rest)
            | some (.file _) | some .dir => walkWith t follow (cur ++ [part]) rest
      | _ => .error .notADirectory

/-- A walk that meets at most this many links. -/
def walk (t : Tree κ) : ℕ → Path → Path → Except IoError Path
  | 0 => t.walkWith fun _ _ => .error .tooManyLinks
  | links + 1 => t.walkWith (t.walk links)

def canonicalize (t : Tree κ) (path : Path) : Except IoError Path := t.walk t.maxLinks [] path

/-- What stands at the end of a path, links followed. -/
def metadata (t : Tree κ) (path : Path) : Option (Node κ) :=
  match t.canonicalize path with
  | .ok p => t.node p
  | .error _ => none

def isDir (t : Tree κ) (path : Path) : Bool := (t.metadata path).any Node.isDirectory

def isFile (t : Tree κ) (path : Path) : Bool :=
  (t.metadata path).any fun n => !n.isDirectory && !n.isLink

/-- `lstat`: the last part is not followed. -/
def isSymlink (t : Tree κ) (path : Path) : Bool :=
  match path.getLast?, t.canonicalize path.dropLast with
  | some name, .ok dir => (t.node (dir ++ [name])).any Node.isLink
  | _, _ => false

def read (t : Tree κ) (path : Path) : Except IoError κ :=
  match t.canonicalize path with
  | .error e => .error e
  | .ok p =>
      match t.node p with
      | some (.file content) => .ok content
      | some .dir => .error .isADirectory
      | some (.link ..) | none => .error .notFound

/-- The entries of a directory. -/
def children (t : Tree κ) (dir : Path) : List (Path × Node κ) :=
  t.entries.filter fun e => e.1.dropLast == dir

end Tree

variable {t : Tree κ} {cur p q : Path} {part : String} {links : ℕ}

/-! ## Real paths -/

/-- A part that is a name, neither empty nor a dot or two. -/
def IsName (part : String) : Prop := part ≠ "" ∧ part ≠ "." ∧ part ≠ ".."

instance (part : String) : Decidable (IsName part) :=
  inferInstanceAs (Decidable (part ≠ "" ∧ part ≠ "." ∧ part ≠ ".."))

/-- What holds of each part of a path and the parts before it. -/
def Along (P : Path → String → Prop) (p : Path) : Prop :=
  ∀ q name rest, p = q ++ name :: rest → P q name

section

variable {P : Path → String → Prop}

theorem along_root (P : Path → String → Prop) : Along P [] := by
  intro q name rest h
  cases q <;> cases h

theorem Along.of_append (h : Along P (p ++ q)) : Along P p := by
  intro q' name rest heq
  refine h q' name (rest ++ q) ?_
  rw [heq, List.append_assoc, List.cons_append]

theorem Along.dropLast (h : Along P p) : Along P p.dropLast := by
  cases hlast : p.getLast? with
  | none =>
      rw [List.getLast?_eq_none_iff.mp hlast]
      exact along_root P
  | some last =>
      rw [← List.dropLast_append_getLast? last hlast] at h
      exact h.of_append

theorem Along.snoc (h : Along P p) (hpart : P p part) : Along P (p ++ [part]) := by
  intro q name rest heq
  rcases List.append_eq_append_iff.mp heq with ⟨mid, rfl, hmid⟩ | ⟨mid, rfl, hmid⟩
  · cases mid with
    | nil =>
        cases hmid
        rwa [List.append_nil]
    | cons c mid => simp at hmid
  · cases mid with
    | nil =>
        cases hmid
        rwa [List.append_nil] at hpart
    | cons c mid =>
        rw [List.cons_append, List.cons.injEq] at hmid
        obtain ⟨rfl, -⟩ := hmid
        exact h q name mid rfl

end

/-- Every part is the name of an entry that is no link, in a directory. -/
def Real (t : Tree κ) (p : Path) : Prop :=
  Along (fun q name => t.node q = some .dir ∧ IsName name ∧
    ∃ n, t.node (q ++ [name]) = some n ∧ n.isLink = false) p

theorem real_root (t : Tree κ) : Real t [] := along_root _

theorem Real.dropLast (h : Real t p) : Real t p.dropLast := Along.dropLast h

theorem Real.snoc (h : Real t p) (hdir : t.node p = some .dir) (hname : IsName part)
    {n : Node κ} (hn : t.node (p ++ [part]) = some n) (hlink : n.isLink = false) :
    Real t (p ++ [part]) :=
  Along.snoc h ⟨hdir, hname, n, hn, hlink⟩

/-- The node of a real path is a file or a directory. -/
theorem Real.node (h : Real t p) : ∃ n, t.node p = some n ∧ n.isLink = false := by
  cases hlast : p.getLast? with
  | none =>
      rw [List.getLast?_eq_none_iff.mp hlast]
      exact ⟨.dir, rfl, rfl⟩
  | some last =>
      have hsplit := List.dropLast_append_getLast? last hlast
      obtain ⟨-, -, n, hn, hlink⟩ := h p.dropLast last [] hsplit.symm
      exact ⟨n, hsplit ▸ hn, hlink⟩

theorem mem_paths_of_node {n : Node κ} (h : t.node p = some n) : p ∈ t.paths := by
  unfold Tree.node at h
  split at h
  · case _ hp => exact hp ▸ List.mem_cons_self ..
  · rw [Option.map_eq_some_iff] at h
    obtain ⟨e, he, -⟩ := h
    have hkey := List.find?_some he
    rw [beq_iff_eq] at hkey
    exact List.mem_cons_of_mem _ (hkey ▸ List.mem_map_of_mem (List.mem_of_find?_eq_some he))

theorem Real.mem_paths (h : Real t p) : p ∈ t.paths := by
  obtain ⟨n, hn, -⟩ := h.node
  exact mem_paths_of_node hn

/-! ## Walks -/

/-- A walk from a real path ends at one, if the walks at links do. -/
theorem walkWith_real {follow : Path → Path → Except IoError Path}
    (hfollow : ∀ cur parts p, Real t cur → follow cur parts = .ok p → Real t p) {parts : Path}
    (hcur : Real t cur) (h : t.walkWith follow cur parts = .ok p) : Real t p := by
  induction parts generalizing cur with
  | nil =>
      cases h
      exact hcur
  | cons part rest ih =>
      rw [Tree.walkWith] at h
      split at h
      · case _ hdir =>
        split at h
        · exact ih hcur h
        · case _ hdot =>
          split at h
          · exact ih hcur.dropLast h
          · case _ hdots =>
            rw [not_or] at hdot
            have hname : IsName part := ⟨hdot.1, hdot.2, hdots⟩
            split at h
            · cases h
            · case _ fromRoot target _ =>
              refine hfollow _ _ p ?_ h
              split
              · exact real_root t
              · exact hcur
            · case _ content hn => exact ih (hcur.snoc hdir hname hn rfl) h
            · case _ hn => exact ih (hcur.snoc hdir hname hn rfl) h
      · cases h

theorem walk_real {parts : Path} (hcur : Real t cur) (h : t.walk links cur parts = .ok p) :
    Real t p := by
  induction links generalizing cur parts p with
  | zero => exact walkWith_real (fun _ _ _ _ hf => by cases hf) hcur h
  | succ links ih => exact walkWith_real (fun _ _ _ hr hf => ih hr hf) hcur h

theorem canonicalize_real (h : t.canonicalize q = .ok p) : Real t p := walk_real (real_root t) h

theorem canonicalize_mem (h : t.canonicalize q = .ok p) : p ∈ t.paths :=
  (canonicalize_real h).mem_paths

/-- At a name that is no link the walk goes on. -/
theorem walkWith_name {follow : Path → Path → Except IoError Path} {rest : Path}
    (hdir : t.node cur = some .dir) (hname : IsName part) {n : Node κ}
    (hn : t.node (cur ++ [part]) = some n) (hlink : n.isLink = false) :
    t.walkWith follow cur (part :: rest) = t.walkWith follow (cur ++ [part]) rest := by
  rw [Tree.walkWith, hdir]
  dsimp only
  rw [if_neg (by simp [hname.1, hname.2.1]), if_neg hname.2.2, hn]
  cases n with
  | link => cases hlink
  | file => rfl
  | dir => rfl

theorem walkWith_self {follow : Path → Path → Except IoError Path} {rest : Path}
    (h : Real t (cur ++ rest)) : t.walkWith follow cur rest = .ok (cur ++ rest) := by
  induction rest generalizing cur with
  | nil => rw [List.append_nil]; rfl
  | cons part rest ih =>
      obtain ⟨hdir, hname, n, hn, hlink⟩ := h cur part rest rfl
      rw [walkWith_name hdir hname hn hlink]
      rw [List.append_cons cur part rest] at h ⊢
      exact ih h

/-- A real path leads to itself. -/
theorem canonicalize_self (h : Real t p) : t.canonicalize p = .ok p := by
  have hroot : Real t ([] ++ p) := h
  unfold Tree.canonicalize
  cases t.maxLinks with
  | zero => exact walkWith_self hroot
  | succ links => exact walkWith_self hroot

/-! ## Looking at a real path -/

theorem Real.metadata (h : Real t p) : t.metadata p = t.node p := by
  rw [Tree.metadata, canonicalize_self h]

theorem Real.isDir (h : Real t p) : t.isDir p = true ↔ t.node p = some .dir := by
  rw [Tree.isDir, h.metadata]
  obtain ⟨n, hn, -⟩ := h.node
  rw [hn]
  cases n <;> simp [Node.isDirectory]

theorem isDir_of_canonicalize (h : t.canonicalize q = .ok p) : t.isDir q = t.isDir p := by
  have hreal := canonicalize_real h
  rw [Tree.isDir, Tree.isDir, hreal.metadata, Tree.metadata, h]

/-- A directory is somewhere. -/
theorem canonicalize_of_isDir (h : t.isDir q = true) : ∃ p, t.canonicalize q = .ok p := by
  cases hq : t.canonicalize q with
  | ok p => exact ⟨p, rfl⟩
  | error e =>
      rw [Tree.isDir, Tree.metadata, hq] at h
      cases h

theorem isDir_root (t : Tree κ) : t.isDir [] = true := (real_root t).isDir.mpr rfl

theorem walkWith_trailing {follow : Path → Path → Except IoError Path}
    (hfollow : ∀ base parts p, follow base (parts ++ [""]) = .ok p → t.node p = some .dir)
    (h : t.walkWith follow cur (q ++ [""]) = .ok p) : t.node p = some .dir := by
  induction q generalizing cur with
  | nil =>
      simp only [List.nil_append, Tree.walkWith] at h
      split at h
      · rename_i hdir
        rw [if_pos (Or.inl trivial)] at h
        cases h
        exact hdir
      · cases h
  | cons part rest ih =>
      rw [List.cons_append, Tree.walkWith] at h
      split at h
      · split_ifs at h with hdot hup
        · exact ih h
        · exact ih h
        · split at h
          · cases h
          · rw [← List.append_assoc] at h
            exact hfollow _ _ _ h
          · exact ih h
          · exact ih h
      · cases h

/-- A path that ends with a slash leads to a directory. -/
theorem canonicalize_trailing (h : t.canonicalize (q ++ [""]) = .ok p) : t.node p = some .dir := by
  have hwalk : ∀ links cur q p, t.walk links cur (q ++ [""]) = .ok p → t.node p = some .dir := by
    intro links
    induction links with
    | zero => exact fun cur q p h => walkWith_trailing (fun _ _ _ hno => by cases hno) h
    | succ links ih => exact fun cur q p h => walkWith_trailing ih h
  exact hwalk _ _ _ _ h

theorem not_isFile_trailing (t : Tree κ) (q : Path) : t.isFile (q ++ [""]) = false := by
  unfold Tree.isFile Tree.metadata
  cases h : t.canonicalize (q ++ [""]) with
  | error e => rfl
  | ok p =>
      dsimp only
      rw [canonicalize_trailing h]
      rfl

/-- No path is a directory and a file. -/
theorem not_isFile_of_isDir (h : t.isDir p = true) : t.isFile p = false := by
  unfold Tree.isDir at h
  unfold Tree.isFile
  cases hn : t.metadata p with
  | none => rfl
  | some n =>
      rw [hn, Option.any_some] at h
      rw [Option.any_some, h]
      rfl

/-! ## Paths checked for links -/

/-- No beginning of the path is a link. -/
def Unlinked (t : Tree κ) (p : Path) : Prop :=
  Along (fun q name => IsName name ∧ t.isSymlink (q ++ [name]) = false) p

theorem isSymlink_snoc (hcur : Real t cur) :
    t.isSymlink (cur ++ [part]) = (t.node (cur ++ [part])).any Node.isLink := by
  rw [Tree.isSymlink, List.getLast?_append_of_ne_nil _ (by simp), List.dropLast_concat,
    canonicalize_self hcur]
  rfl

theorem walkWith_unlinked {follow : Path → Path → Except IoError Path} {rest : Path}
    (hcur : Real t cur) (hlinks : Unlinked t (cur ++ rest))
    (h : t.walkWith follow cur rest = .ok p) : p = cur ++ rest := by
  induction rest generalizing cur with
  | nil =>
      cases h
      rw [List.append_nil]
  | cons part rest ih =>
      obtain ⟨hname, hlink⟩ := hlinks cur part rest rfl
      rw [isSymlink_snoc hcur] at hlink
      cases hdir : t.node cur with
      | none => rw [Tree.walkWith, hdir] at h; cases h
      | some d =>
          cases d with
          | file => rw [Tree.walkWith, hdir] at h; cases h
          | link => rw [Tree.walkWith, hdir] at h; cases h
          | dir =>
              cases hn : t.node (cur ++ [part]) with
              | none =>
                  rw [Tree.walkWith, hdir] at h
                  dsimp only at h
                  rw [if_neg (by simp [hname.1, hname.2.1]), if_neg hname.2.2, hn] at h
                  cases h
              | some n =>
                  rw [hn, Option.any_some] at hlink
                  rw [walkWith_name hdir hname hn hlink] at h
                  rw [List.append_cons cur part rest] at hlinks ⊢
                  exact ih (hcur.snoc hdir hname hn hlink) hlinks h

/-- A path without links that leads somewhere leads to itself. -/
theorem canonicalize_unlinked (hlinks : Unlinked t q) (h : t.canonicalize q = .ok p) : p = q := by
  unfold Tree.canonicalize at h
  cases hmax : t.maxLinks with
  | zero =>
      rw [hmax] at h
      exact walkWith_unlinked (real_root t) hlinks h
  | succ links =>
      rw [hmax] at h
      exact walkWith_unlinked (real_root t) hlinks h

/-! ## A stack of directories -/

/-- No path of the tree is longer. -/
def Tree.depth (t : Tree κ) : ℕ := (t.entries.map fun e => e.1.length).sum

/-- A bound on the directories that walks from a stack of them visit. -/
def Tree.load (t : Tree κ) (stack : List Path) : ℕ :=
  (stack.map fun dir => (t.entries.length + 1) ^ (t.depth - dir.length)).sum

theorem children_spec {e : Path × Node κ} {dir : Path} (h : e ∈ t.children dir) :
    e.1.length = dir.length + 1 ∧ e.1.length ≤ t.depth := by
  obtain ⟨hmem, hdir⟩ := List.mem_filter.mp h
  rw [beq_iff_eq] at hdir
  have hne := (t.parents e hmem).1
  have hlength := List.length_pos_iff.mpr hne
  constructor
  · rw [← hdir, List.length_dropLast]
    omega
  · exact List.single_le_sum (fun _ _ => Nat.zero_le _) _ (List.mem_map_of_mem hmem)

theorem load_cons (dir : Path) (stack : List Path) :
    t.load (dir :: stack) = (t.entries.length + 1) ^ (t.depth - dir.length) + t.load stack := by
  rw [Tree.load, List.map_cons, List.sum_cons]
  rfl

theorem load_append (subs stack : List Path) :
    t.load (subs ++ stack) = t.load subs + t.load stack := by
  rw [Tree.load, List.map_append, List.sum_append]
  rfl

theorem load_level {subs : List Path} {length : ℕ} (h : ∀ p ∈ subs, p.length = length) :
    t.load subs = subs.length * (t.entries.length + 1) ^ (t.depth - length) := by
  induction subs with
  | nil => simp [Tree.load]
  | cons p subs ih =>
      rw [load_cons, ih fun q hq => h q (List.mem_cons_of_mem p hq), h p (List.mem_cons_self ..),
        List.length_cons]
      ring

/-- A directory that gives way to entries of its own leaves less to visit. -/
theorem load_lt {dir : Path} {subs stack : List Path} (hlength : subs.length ≤ t.entries.length)
    (hsubs : ∀ p ∈ subs, p.length = dir.length + 1 ∧ p.length ≤ t.depth) :
    t.load (subs ++ stack) < t.load (dir :: stack) := by
  rw [load_append, load_cons, load_level fun p hp => (hsubs p hp).1]
  apply Nat.add_lt_add_right
  cases subs with
  | nil => simp
  | cons p subs =>
      obtain ⟨hp, hdepth⟩ := hsubs p (List.mem_cons_self ..)
      have hlevel : t.depth - dir.length = (t.depth - (dir.length + 1)) + 1 := by omega
      rw [hlevel, pow_succ, mul_comm]
      exact Nat.mul_lt_mul_of_pos_left (Nat.lt_succ_of_le hlength) (by positivity)

end LinkTree
