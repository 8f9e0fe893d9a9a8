import Mathlib

/-!
# Runs of a partial step function that records events

A machine is a function `step : σ → α → Option (σ × List ε)`: `none` where the
action is not enabled, otherwise the next state and the events the step
records. A run collects the events of its steps in order. The side condition
`C` restricts which actions a run may take, so an assumption about the
environment is a condition on steps and never a change of the machine.

The induction over a run is done once here. A safety result gives the initial
case and one step; a result about the recorded events gives an abstract
machine that reads them, and one step of the simulation.
-/
namespace StepRun

variable {σ α ε β : Type*}

/-- Runs from `s₀` whose steps all satisfy `C`, with the events recorded. -/
inductive Run (step : σ → α → Option (σ × List ε)) (C : σ → α → Prop) (s₀ : σ) :
    List ε → σ → Prop
  | start : Run step C s₀ [] s₀
  | snoc {log es : List ε} {s s' : σ} {a : α} : Run step C s₀ log s → C s a →
      step s a = some (s', es) → Run step C s₀ (log ++ es) s'

/-- The condition of an unrestricted run. -/
def Free (_ : σ) (_ : α) : Prop := True

variable {step : σ → α → Option (σ × List ε)} {C D : σ → α → Prop} {s₀ s s' : σ}
variable {log log' es : List ε}

theorem Run.mono (hCD : ∀ s a, C s a → D s a) (h : Run step C s₀ log s) :
    Run step D s₀ log s := by
  induction h with
  | start => exact .start
  | snoc _ hc hs ih => exact .snoc ih (hCD _ _ hc) hs

theorem Run.free (h : Run step C s₀ log s) : Run step Free s₀ log s :=
  h.mono fun _ _ _ => trivial

theorem Run.trans (h : Run step C s₀ log s) (h' : Run step C s log' s') :
    Run step C s₀ (log ++ log') s' := by
  induction h' with
  | start => simpa using h
  | snoc _ hc hs ih => rw [← List.append_assoc]; exact .snoc ih hc hs

/-- An invariant of the state and the events recorded so far. -/
theorem Run.invariant {I : List ε → σ → Prop} (h₀ : I [] s₀)
    (hstep : ∀ log s a s' es, Run step C s₀ log s → I log s → C s a →
      step s a = some (s', es) → I (log ++ es) s')
    (h : Run step C s₀ log s) : I log s := by
  induction h with
  | start => exact h₀
  | snoc hr hc hs ih => exact hstep _ _ _ _ _ hr ih hc hs

/-- An invariant of the state alone. -/
theorem Run.safe {I : σ → Prop} (h₀ : I s₀)
    (hstep : ∀ s a s' es, I s → C s a → step s a = some (s', es) → I s')
    (h : Run step C s₀ log s) : I s :=
  h.invariant (I := fun _ s => I s) h₀ fun _ _ _ _ _ _ hi hc hs => hstep _ _ _ _ hi hc hs

/-- A condition that holds along a run by an invariant of it. -/
theorem Run.strengthen {I : σ → Prop} (h₀ : I s₀)
    (hstep : ∀ s a s' es, I s → C s a → step s a = some (s', es) → I s')
    (hD : ∀ s a, I s → C s a → D s a) (h : Run step C s₀ log s) : Run step D s₀ log s := by
  have hboth : Run step D s₀ log s ∧ I s := by
    induction h with
    | start => exact ⟨.start, h₀⟩
    | snoc _ hc hs ih => exact ⟨.snoc ih.1 (hD _ _ ih.2 hc) hs, hstep _ _ _ _ ih.2 hc hs⟩
  exact hboth.1

/-- Executing a list of actions under a test of each step; `none` as soon as one
fails its test or is not enabled. -/
def execute (step : σ → α → Option (σ × List ε)) (test : σ → α → Bool) :
    List α → σ → Option (σ × List ε)
  | [], s => some (s, [])
  | a :: as, s =>
      if test s a then
        (step s a).bind fun r => (execute step test as r.1).map fun q => (q.1, r.2 ++ q.2)
      else none

theorem run_of_execute {test : σ → α → Bool} {as : List α}
    (h : execute step test as s₀ = some (s, log)) :
    Run step (fun s a => test s a = true) s₀ log s := by
  induction as generalizing s₀ log with
  | nil =>
      simp only [execute, Option.some.injEq, Prod.mk.injEq] at h
      obtain ⟨rfl, rfl⟩ := h
      exact .start
  | cons a as ih =>
      simp only [execute] at h
      split_ifs at h with htest
      simp only [Option.bind_eq_some_iff, Option.map_eq_some_iff] at h
      obtain ⟨⟨s₁, es⟩, hs, ⟨s₂, fs⟩, he, heq⟩ := h
      simp only [Prod.mk.injEq] at heq
      obtain ⟨rfl, rfl⟩ := heq
      have hhead : Run step (fun s a => test s a = true) s₀ ([] ++ es) s₁ :=
        .snoc .start htest hs
      exact Run.trans hhead (ih he)

/-- A run that an execution exhibits, with a test of its outcome. -/
theorem exists_run (step : σ → α → Option (σ × List ε)) (test : σ → α → Bool) (s₀ : σ)
    (as : List α) (p : List ε → σ → Bool)
    (h : ((execute step test as s₀).any fun r => p r.2 r.1) = true) :
    ∃ log s, Run step (fun s a => test s a = true) s₀ log s ∧ p log s = true := by
  rw [Option.any_eq_true] at h
  obtain ⟨⟨s, log⟩, he, hp⟩ := h
  exact ⟨log, s, run_of_execute he, hp⟩

/-- The same for an unrestricted run. -/
theorem exists_free_run (step : σ → α → Option (σ × List ε)) (s₀ : σ) (as : List α)
    (p : List ε → σ → Bool)
    (h : ((execute step (fun _ _ => true) as s₀).any fun r => p r.2 r.1) = true) :
    ∃ log s, Run step Free s₀ log s ∧ p log s = true := by
  obtain ⟨log, s, hrun, hp⟩ := exists_run step (fun _ _ => true) s₀ as p h
  exact ⟨log, s, hrun.free, hp⟩

/-- An abstract machine reading recorded events one by one. -/
def replay (astep : β → ε → Option β) : β → List ε → Option β
  | b, [] => some b
  | b, e :: es => (astep b e).bind fun b' => replay astep b' es

variable {astep : β → ε → Option β} {b b' : β}

theorem replay_append (b : β) (es fs : List ε) :
    replay astep b (es ++ fs) = (replay astep b es).bind fun b' => replay astep b' fs := by
  induction es generalizing b with
  | nil => rfl
  | cons e es ih =>
      simp only [List.cons_append, replay, Option.bind_assoc]
      exact congrArg _ (funext ih)

theorem replay_append_some {es fs : List ε} (h : replay astep b (es ++ fs) = some b') :
    ∃ c, replay astep b es = some c ∧ replay astep c fs = some b' := by
  rw [replay_append, Option.bind_eq_some_iff] at h
  exact h

theorem replay_trans {es fs : List ε} {c : β} (h : replay astep b es = some c)
    (h' : replay astep c fs = some b') : replay astep b (es ++ fs) = some b' := by
  rw [replay_append, h]
  exact h'

theorem replay_singleton (b : β) (e : ε) : replay astep b [e] = astep b e := by
  simp [replay]

/-- An invariant of the abstract machine under every event it accepts. -/
theorem replay_invariant {I : β → Prop} {es : List ε}
    (hstep : ∀ b e b', e ∈ es → I b → astep b e = some b' → I b')
    (hb : I b) (h : replay astep b es = some b') : I b' := by
  induction es generalizing b with
  | nil => simp only [replay, Option.some.injEq] at h; exact h ▸ hb
  | cons e es ih =>
      simp only [replay, Option.bind_eq_some_iff] at h
      obtain ⟨c, hc, hr⟩ := h
      exact ih (fun b e b' he => hstep b e b' (List.mem_cons_of_mem _ he))
        (hstep _ _ _ (List.mem_cons_self ..) hb hc) hr

/-- Forward simulation: the recorded events drive the abstract machine, and
`R` relates the two states after every step. -/
theorem Run.simulates {R : σ → β → Prop} {b₀ : β} (h₀ : R s₀ b₀)
    (hstep : ∀ s b a s' es, R s b → C s a → step s a = some (s', es) →
      ∃ b', replay astep b es = some b' ∧ R s' b')
    (h : Run step C s₀ log s) : ∃ b, replay astep b₀ log = some b ∧ R s b := by
  induction h with
  | start => exact ⟨b₀, rfl, h₀⟩
  | snoc _ hc hs ih =>
      obtain ⟨b, hb, hr⟩ := ih
      obtain ⟨b', hb', hr'⟩ := hstep _ _ _ _ _ hr hc hs
      exact ⟨b', replay_trans hb hb', hr'⟩

end StepRun
