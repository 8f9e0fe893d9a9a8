import Cja.Lib.StepRun

/-!
# Processes that work under one lock and may die at any step

A program is a tree of operations on a shared state. A process runs an opening, waits
for the lock, and runs its critical program while it holds it; it may be killed before
any operation, which frees the lock. `Safe` follows a program operation by operation:
each keeps a guarantee, whatever the environment chooses, so the guarantee also holds
of what a killed process leaves. `Ends` is the same for programs that may fail, with a
rule for each way of putting them together.
-/
namespace Locked

/-- A program performs operations and goes on by their answers. -/
inductive Program (Op : Type) (Answer : Op → Type) (α : Type) where
  | done (a : α)
  | perform (op : Op) (next : Answer op → Program Op Answer α)

variable {Op : Type} {Answer : Op → Type} {σ χ ι τ φ ε δ α β : Type}

namespace Program

def bind : Program Op Answer α → (α → Program Op Answer β) → Program Op Answer β
  | .done a, f => f a
  | .perform op next, f => .perform op fun answer => bind (next answer) f

instance : Monad (Program Op Answer) where
  pure := .done
  bind := bind

def act (op : Op) : Program Op Answer (Answer op) := .perform op .done

end Program

/-- A program that may fail. -/
abbrev Fallible (Op : Type) (Answer : Op → Type) (ε α : Type) :=
  ExceptT ε (Program Op Answer) α

/-- The same program with its errors translated. -/
def mapErr (f : ε → δ) (m : Fallible Op Answer ε α) : Fallible Op Answer δ α :=
  ExceptT.mk (Program.bind m.run fun r => .done (r.mapError f))

/-- A program whose failure is a value. -/
def attempt (m : Fallible Op Answer ε α) : Fallible Op Answer δ (Except ε α) :=
  ExceptT.mk (Program.bind m.run fun r => .done (.ok r))

def settle (r : Except ε α) : Fallible Op Answer ε α := ExceptT.mk (.done r)

/-- An operation that cannot fail. -/
def ask (op : Op) : Fallible Op Answer ε (Answer op) :=
  ExceptT.mk (.perform op fun answer => .done (.ok answer))

/-- What the operations do by the choices of the environment, the choices it has, and
what each operation is held to. -/
structure Setting (Op : Type) (Answer : Op → Type) (σ χ : Type) where
  effect : (op : Op) → χ → σ → Answer op × σ
  allowed : σ → Op → χ → Prop
  guarantee : σ → Op → σ → Prop

namespace Setting

variable (w : Setting Op Answer σ χ)

/-- Every operation from `s` on keeps the guarantee, and the program ends in `post`. -/
def Safe (post : α → σ → Prop) : Program Op Answer α → σ → Prop
  | .done a, s => post a s
  | .perform op next, s => ∀ c, w.allowed s op c → w.guarantee s op (w.effect op c s).2 ∧
      Safe post (next (w.effect op c s).1) (w.effect op c s).2

variable {w}

theorem Safe.mono {Q R : α → σ → Prop} {p : Program Op Answer α} {s : σ}
    (hQR : ∀ a s, Q a s → R a s) (h : w.Safe Q p s) : w.Safe R p s := by
  induction p generalizing s with
  | done a => exact hQR a s h
  | perform op next ih =>
      intro c hc
      obtain ⟨hg, hn⟩ := h c hc
      exact ⟨hg, ih _ hn⟩

theorem Safe.bind {Q : α → σ → Prop} {R : β → σ → Prop} {p : Program Op Answer α}
    {f : α → Program Op Answer β} {s : σ} (h : w.Safe Q p s)
    (hf : ∀ a s, Q a s → w.Safe R (f a) s) : w.Safe R (p.bind f) s := by
  induction p generalizing s with
  | done a => exact hf a s h
  | perform op next ih =>
      intro c hc
      obtain ⟨hg, hn⟩ := h c hc
      exact ⟨hg, ih _ hn⟩

/-! ## Programs that may fail -/

variable (w)

/-- From `P` the program is safe and ends with a value in `Q` or an error in `E`. -/
def Ends (P : σ → Prop) (m : Fallible Op Answer ε α) (Q : α → σ → Prop) (E : σ → Prop) : Prop :=
  ∀ s, P s → w.Safe (fun r s => match r with | .ok a => Q a s | .error _ => E s) m.run s

variable {w}
variable {P P' E E' : σ → Prop} {Q : α → σ → Prop} {Q' : β → σ → Prop}
variable {m : Fallible Op Answer ε α}

theorem Safe.result {r : Except ε α} {s : σ} (hok : ∀ a, r = .ok a → Q a s)
    (herror : ∀ e, r = .error e → E s) :
    w.Safe (fun r s => match r with | .ok a => Q a s | .error _ => E s) (.done r) s := by
  cases r with
  | ok a => exact hok a rfl
  | error e => exact herror e rfl

theorem Ends.of_pure {a : α} (h : ∀ s, P s → Q a s) :
    w.Ends P (pure a : Fallible Op Answer ε α) Q E := h

theorem Ends.of_throw {e : ε} (h : ∀ s, P s → E s) :
    w.Ends P (throw e : Fallible Op Answer ε α) Q E := h

theorem Ends.bind {R : α → σ → Prop} {f : α → Fallible Op Answer ε β} (hm : w.Ends P m R E)
    (hf : ∀ a, w.Ends (R a) (f a) Q' E) : w.Ends P (m >>= f) Q' E := by
  intro s hP
  refine Safe.bind (hm s hP) ?_
  intro r s' hr
  cases r with
  | ok a => exact hf a s' hr
  | error e => exact hr

theorem Ends.weaken (h : w.Ends P m Q E) (hP : ∀ s, P' s → P s) {R : α → σ → Prop}
    (hQ : ∀ a s, Q a s → R a s) (hE : ∀ s, E s → E' s) : w.Ends P' m R E' := by
  intro s hs
  refine Safe.mono ?_ (h s (hP s hs))
  intro r s' hr
  cases r with
  | ok a => exact hQ a s' hr
  | error e => exact hE s' hr

theorem Ends.pre (h : w.Ends P m Q E) (hP : ∀ s, P' s → P s) : w.Ends P' m Q E :=
  fun s hs => h s (hP s hs)

/-- A fact about values is no condition on the state. -/
theorem Ends.known {J : Prop} (h : J → w.Ends P m Q E) : w.Ends (fun s => P s ∧ J) m Q E :=
  fun s hs => h hs.2 s hs.1

theorem Ends.mapErr {f : ε → δ} (h : w.Ends P m Q E) : w.Ends P (mapErr f m) Q E := by
  intro s hP
  refine Safe.bind (h s hP) ?_
  intro r s' hr
  cases r with
  | ok a => exact hr
  | error e => exact hr

theorem Ends.attempt {F : σ → Prop} (h : w.Ends P m Q E) :
    w.Ends P (attempt m : Fallible Op Answer δ (Except ε α))
      (fun r s => match r with | .ok a => Q a s | .error _ => E s) F := by
  intro s hP
  refine Safe.bind (h s hP) ?_
  intro r s' hr
  exact hr

theorem Ends.settle {r : Except ε α}
    (h : ∀ s, P s → match r with | .ok a => Q a s | .error _ => E s) :
    w.Ends P (settle r : Fallible Op Answer ε α) Q E := h

theorem Ends.ask {op : Op} {Q : Answer op → σ → Prop}
    (h : ∀ s c, P s → w.allowed s op c →
      w.guarantee s op (w.effect op c s).2 ∧ Q (w.effect op c s).1 (w.effect op c s).2) :
    w.Ends P (ask op : Fallible Op Answer ε (Answer op)) Q E :=
  fun s hP c hc => h s c hP hc

end Setting

/-! ## Processes -/

/-- What a process runs before it takes the lock, the error of a lock it is refused, and
what it runs while it holds the lock. -/
structure Protocol (Op : Type) (Answer : Op → Type) (ι τ φ ε α : Type) where
  opening : ι → Program Op Answer (Except ε τ)
  refused : ι → τ → φ → ε
  critical : ι → τ → Program Op Answer (Except ε α)

/-- A process that does not hold the lock. -/
inductive Outside (Op : Type) (Answer : Op → Type) (τ ε : Type) where
  | opening (rest : Program Op Answer (Except ε τ))
  | waiting (place : τ)

/-- At most one process holds the lock. -/
structure State (Op : Type) (Answer : Op → Type) (σ ι τ ε α : Type) where
  shared : σ
  holder : Option (ι × Program Op Answer (Except ε α))
  outside : ι → Option (Outside Op Answer τ ε)

inductive Action (ι χ φ : Type) where
  | start (i : ι)
  | opens (i : ι) (c : χ)
  | refuse (i : ι) (failure : φ)
  | acquire (i : ι)
  | act (c : χ)
  | release
  | kill (i : ι)
  | killHolder

inductive Event (Op ι ε α : Type) where
  | performed (i : ι) (op : Op)
  | failed (i : ι) (e : ε)
  | returned (i : ι) (result : Except ε α)

def State.initial (s : σ) : State Op Answer σ ι τ ε α := ⟨s, none, fun _ => none⟩

section

variable [DecidableEq ι]

def State.setOutside (st : State Op Answer σ ι τ ε α) (i : ι)
    (p : Option (Outside Op Answer τ ε)) : State Op Answer σ ι τ ε α :=
  { st with outside := Function.update st.outside i p }

/-- The lock is taken where no process holds it, and given back with the result. -/
def step (effect : (op : Op) → χ → σ → Answer op × σ) (proto : Protocol Op Answer ι τ φ ε α)
    (st : State Op Answer σ ι τ ε α) :
    Action ι χ φ → Option (State Op Answer σ ι τ ε α × List (Event Op ι ε α))
  | .start i =>
      match st.outside i with
      | none => some (st.setOutside i (some (.opening (proto.opening i))), [])
      | some _ => none
  | .opens i c =>
      match st.outside i with
      | some (.opening (.perform op next)) =>
          some ({ st.setOutside i (some (.opening (next (effect op c st.shared).1))) with
            shared := (effect op c st.shared).2 }, [.performed i op])
      | some (.opening (.done (.ok place))) => some (st.setOutside i (some (.waiting place)), [])
      | some (.opening (.done (.error e))) => some (st.setOutside i none, [.failed i e])
      | some (.waiting _) | none => none
  | .refuse i failure =>
      match st.outside i with
      | some (.waiting place) => some (st.setOutside i none, [.failed i (proto.refused i place failure)])
      | some (.opening _) | none => none
  | .acquire i =>
      match st.holder, st.outside i with
      | none, some (.waiting place) =>
          some ({ st.setOutside i none with holder := some (i, proto.critical i place) }, [])
      | _, _ => none
  | .act c =>
      match st.holder with
      | some (i, .perform op next) =>
          some ({ st with
            holder := some (i, next (effect op c st.shared).1)
            shared := (effect op c st.shared).2 }, [.performed i op])
      | some (_, .done _) | none => none
  | .release =>
      match st.holder with
      | some (i, .done r) => some ({ st with holder := none }, [.returned i r])
      | some (_, .perform ..) | none => none
  | .kill i => some (st.setOutside i none, [])
  | .killHolder => some ({ st with holder := none }, [])

/-- The condition on runs that an environment has only allowed choices. -/
def Allowed (allowed : σ → Op → χ → Prop) (st : State Op Answer σ ι τ ε α) :
    Action ι χ φ → Prop
  | .act c =>
      match st.holder with
      | some (_, .perform op _) => allowed st.shared op c
      | some (_, .done _) | none => True
  | .start _ | .opens .. | .refuse .. | .acquire _ | .release | .kill _ | .killHolder => True

end

/-! ## Runs -/

variable {effect : (op : Op) → χ → σ → Answer op × σ} {proto : Protocol Op Answer ι τ φ ε α}
variable {allowed : σ → Op → χ → Prop}

/-- An opening leaves the shared state, keeps the guarantee by that, and finds a place in `T`. -/
def Quiet (effect : (op : Op) → χ → σ → Answer op × σ) (G : σ → Op → σ → Prop) (I : σ → Prop)
    (T : τ → Prop) : Program Op Answer (Except ε τ) → Prop
  | .done r => ∀ place, r = .ok place → T place
  | .perform op next => (∀ c s, I s → (effect op c s).2 = s ∧ G s op s) ∧
      ∀ answer, Quiet effect G I T (next answer)

/-- A protocol whose critical programs are safe wherever the lock may find the state. -/
structure Conduct (effect : (op : Op) → χ → σ → Answer op × σ)
    (proto : Protocol Op Answer ι τ φ ε α) (allowed : σ → Op → χ → Prop) (I : σ → Prop)
    (G : ι → σ → Op → σ → Prop) (T : ι → τ → Prop) (R : ι → Except ε α → σ → Prop) : Prop where
  opening : ∀ i, Quiet effect (G i) I (T i) (proto.opening i)
  critical : ∀ i place s, T i place → I s →
    (⟨effect, allowed, G i⟩ : Setting Op Answer σ χ).Safe (R i) (proto.critical i place) s
  keeps : ∀ i s op s', G i s op s' → I s'

/-- What holds of a process that does not hold the lock. -/
def Outside.Ready (effect : (op : Op) → χ → σ → Answer op × σ) (G : σ → Op → σ → Prop)
    (I : σ → Prop) (T : τ → Prop) : Outside Op Answer τ ε → Prop
  | .opening rest => Quiet effect G I T rest
  | .waiting place => T place

variable {I : σ → Prop} {G : ι → σ → Op → σ → Prop} {T : ι → τ → Prop}
variable {R : ι → Except ε α → σ → Prop} {st st' : State Op Answer σ ι τ ε α}
variable {es : List (Event Op ι ε α)}

structure Ordered (effect : (op : Op) → χ → σ → Answer op × σ) (allowed : σ → Op → χ → Prop)
    (I : σ → Prop) (G : ι → σ → Op → σ → Prop) (T : ι → τ → Prop)
    (R : ι → Except ε α → σ → Prop) (st : State Op Answer σ ι τ ε α) : Prop where
  shared : I st.shared
  holder : ∀ i p, st.holder = some (i, p) →
    (⟨effect, allowed, G i⟩ : Setting Op Answer σ χ).Safe (R i) p st.shared
  outside : ∀ i o, st.outside i = some o → o.Ready effect (G i) I (T i)

theorem ordered_initial {s : σ} (h : I s) :
    Ordered effect allowed I G T R (State.initial s : State Op Answer σ ι τ ε α) where
  shared := h
  holder := nofun
  outside := nofun

/-- What the events of a step report. -/
def Reported (G : ι → σ → Op → σ → Prop) (R : ι → Except ε α → σ → Prop)
    (st st' : State Op Answer σ ι τ ε α) : Event Op ι ε α → Prop
  | .performed i op => G i st.shared op st'.shared
  | .returned i r => R i r st'.shared
  | .failed .. => True

theorem Ordered.release (h : Ordered effect allowed I G T R st) :
    Ordered effect allowed I G T R { st with holder := none } where
  shared := h.shared
  holder := nofun
  outside := h.outside

section

variable [DecidableEq ι]

theorem Ordered.setOutside (h : Ordered effect allowed I G T R st) (i : ι)
    {p : Option (Outside Op Answer τ ε)} (hp : ∀ o, p = some o → o.Ready effect (G i) I (T i)) :
    Ordered effect allowed I G T R (st.setOutside i p) where
  shared := h.shared
  holder := h.holder
  outside := by
    intro j o ho
    simp only [State.setOutside, Function.update_apply] at ho
    split at ho
    · next hji => exact hji ▸ hp o ho
    · exact h.outside j o ho

theorem Ordered.step (hp : Conduct effect proto allowed I G T R)
    (h : Ordered effect allowed I G T R st) {a : Action ι χ φ} (ha : Allowed allowed st a)
    (hs : step effect proto st a = some (st', es)) :
    Ordered effect allowed I G T R st' ∧ ∀ e ∈ es, Reported G R st st' e := by
  cases a with
  | start i =>
      simp only [Locked.step] at hs
      split at hs
      · cases hs
        refine ⟨h.setOutside i ?_, nofun⟩
        rintro o ⟨rfl⟩
        exact hp.opening i
      · cases hs
  | opens i c =>
      simp only [Locked.step] at hs
      split at hs
      · next op next hi =>
          cases hs
          obtain ⟨hop, hnext⟩ := h.outside i _ hi
          obtain ⟨hsame, hg⟩ := hop c st.shared h.shared
          have hout : Ordered effect allowed I G T R
              (st.setOutside i (some (.opening (next (effect op c st.shared).1)))) :=
            h.setOutside i (by rintro o ⟨rfl⟩; exact hnext _)
          rw [hsame]
          refine ⟨hout, ?_⟩
          intro e he
          obtain rfl := List.mem_singleton.1 he
          exact hg
      · next place hi =>
          cases hs
          refine ⟨h.setOutside i ?_, nofun⟩
          rintro o ⟨rfl⟩
          exact h.outside i _ hi place rfl
      · cases hs
        exact ⟨h.setOutside i nofun, by simp [Reported]⟩
      · cases hs
      · cases hs
  | refuse i failure =>
      simp only [Locked.step] at hs
      split at hs
      · cases hs
        exact ⟨h.setOutside i nofun, by simp [Reported]⟩
      · cases hs
      · cases hs
  | acquire i =>
      simp only [Locked.step] at hs
      split at hs
      · next place hnone hi =>
          cases hs
          have hout := h.setOutside i (p := none) nofun
          refine ⟨⟨h.shared, ?_, hout.outside⟩, nofun⟩
          rintro j p ⟨rfl, rfl⟩
          exact hp.critical i place st.shared (h.outside i _ hi) h.shared
      · cases hs
  | act c =>
      simp only [Locked.step] at hs
      split at hs
      · next i op next hi =>
          cases hs
          have hc : allowed st.shared op c := by simpa [Allowed, hi] using ha
          obtain ⟨hg, hn⟩ := h.holder i _ hi c hc
          refine ⟨⟨hp.keeps i _ _ _ hg, ?_, h.outside⟩, ?_⟩
          · rintro j p ⟨rfl, rfl⟩
            exact hn
          · intro e he
            obtain rfl := List.mem_singleton.1 he
            exact hg
      · cases hs
      · cases hs
  | release =>
      simp only [Locked.step] at hs
      split at hs
      · next i r hi =>
          cases hs
          refine ⟨h.release, ?_⟩
          intro e he
          obtain rfl := List.mem_singleton.1 he
          exact h.holder i _ hi
      · cases hs
      · cases hs
  | kill i =>
      cases hs
      exact ⟨h.setOutside i nofun, nofun⟩
  | killHolder =>
      cases hs
      exact ⟨h.release, nofun⟩

/-- Only an operation changes what the processes share. -/
theorem step_shared {a : Action ι χ φ} (hs : step effect proto st a = some (st', es)) :
    st'.shared = st.shared ∨ ∃ i op, Event.performed i op ∈ es := by
  cases a with
  | start i =>
      simp only [Locked.step] at hs
      split at hs
      · cases hs
        exact .inl rfl
      · cases hs
  | opens i c =>
      simp only [Locked.step] at hs
      split at hs
      · cases hs
        exact .inr ⟨i, _, List.mem_singleton_self _⟩
      · cases hs
        exact .inl rfl
      · cases hs
        exact .inl rfl
      · cases hs
      · cases hs
  | refuse i failure =>
      simp only [Locked.step] at hs
      split at hs
      · cases hs
        exact .inl rfl
      · cases hs
      · cases hs
  | acquire i =>
      simp only [Locked.step] at hs
      split at hs
      · cases hs
        exact .inl rfl
      · cases hs
  | act c =>
      simp only [Locked.step] at hs
      split at hs
      · cases hs
        exact .inr ⟨_, _, List.mem_singleton_self _⟩
      · cases hs
      · cases hs
  | release =>
      simp only [Locked.step] at hs
      split at hs
      · cases hs
        exact .inl rfl
      · cases hs
      · cases hs
  | kill i =>
      cases hs
      exact .inl rfl
  | killHolder =>
      cases hs
      exact .inl rfl

/-- A run of processes that keep the protocol is in order throughout. -/
theorem ordered_run (hp : Conduct effect proto allowed I G T R) {s : σ} (h₀ : I s)
    {C : State Op Answer σ ι τ ε α → Action ι χ φ → Prop}
    (hC : ∀ st a, C st a → Allowed allowed st a) {log : List (Event Op ι ε α)}
    (h : StepRun.Run (step effect proto) C (State.initial s) log st) :
    Ordered effect allowed I G T R st :=
  h.safe (ordered_initial h₀) fun _ _ _ _ hi hc hs => (hi.step hp (hC _ _ hc) hs).1

end

end Locked
