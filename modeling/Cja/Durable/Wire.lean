import Cja.Durable.Budget

/-!
# Time and answers

In the engine an attempt moves at the moment its statement is applied. Here the
answer, or the error, arrives later: until then the attempt is `unheard` and does
nothing, and a call it holds stays in flight. Every attempt has the timers of its
statement and of its guards. Instants and durations are nanoseconds, `NOW()` is
microseconds.
-/
namespace Cja.Durable

open Jobs (Uuid i64Max stampable)

variable {R : Rig}

def writeBound : ℕ := 5000000000
def releaseBound : ℕ := 1000000000

/-- The window as `try_claim` and `cancel_run` bind it. -/
def takeoverMicros (window : ℕ) : ℕ := min (window / 1000) i64Max

/-- The setter of the window; `none` is its assertion. -/
def leaseTakeover (window : ℕ) (cfg : Config) : Option Config :=
  if 0 < window ∧ 0 < window / 3 then some { cfg with leaseTakeover := takeoverMicros window }
  else none

namespace Advance

/-- The timeout around the statement in flight. The reads have none. -/
def bound : Advance R → Option ℕ
  | claiming | closing _ _ | closingFails _ => some writeBound
  | driving _ (.writing _ _) | driving _ (.failing _ _) | driving _ (.beating _)
  | driving _ .requeueing => some writeBound
  | driving _ .abandoning | releasing => some releaseBound
  | _ => none

/-- Whether a model call or a tool is in flight once the attempt is here: the
guards hold the future until they return, through the release at shutdown and
through the terminal write after a heartbeat that reported a cancel. -/
def callsAfter (calls : Bool) : Advance R → Bool
  | driving _ (.guarded _) | driving _ (.beating _) => true
  | driving _ .abandoning | driving _ (.failing _ _)
  | driving _ (.projecting (.finish _ .cancelled _))
  | driving _ (.writing (.finish _ .cancelled _) _) => calls
  | _ => false

end Advance

structure Line where
  /-- The answer, or the error, of the last statement has not arrived. -/
  unheard : Bool
  /-- When the attempt got here, and sent its statement. -/
  sent : ℕ
  /-- When the timeout ends the wait for the statement. -/
  limit : Option ℕ
  /-- The next tick of the guards. -/
  due : ℕ
  /-- A model call or a tool is in flight. -/
  calls : Bool
deriving Repr, DecidableEq

def Line.new : Line := ⟨false, 0, none, 0, false⟩

/-- The attempt gets to `pc`. The interval of the guards starts with the call, and
a tick schedules the next one a period later (`MissedTickBehavior::Delay`). -/
def Line.enter (window clock : ℕ) (pc : Advance R) (line : Line) : Line where
  unheard := false
  sent := clock
  limit := pc.bound.map fun b => clock + b
  due := match pc with
    | .driving _ (.guarded _) => if line.calls then line.due else clock + window / 3
    | .driving _ (.beating _) => clock + window / 3
    | _ => line.due
  calls := pc.callsAfter line.calls

structure Wire (R : Rig) where
  engine : Engine R
  clock : ℕ
  lines : LeaseToken → Line

def Wire.init : Wire R := ⟨.init, 0, fun _ => .new⟩

inductive WireEvent
  /-- A model call or a tool execution begins. -/
  | began (me : LeaseToken) (run : Uuid)
deriving Repr, DecidableEq

inductive WireAction (R : Rig)
  | wait (elapsed : ℕ)
  | act (a : Action R)
  /-- The answer or the error arrives. -/
  | hear (me : LeaseToken)

/-- The attempt learns of the step only by an answer or an error. -/
def Action.remote : Action R → Bool
  | .readStatus _ | .readSeq _ | .commit _ _ | .fails _ _ _ | .rejects _ _ => true
  | _ => false

namespace Wire

def setLine (w : Wire R) (me : LeaseToken) (line : Line) : Wire R :=
  { w with lines := Function.update w.lines me line }

def beganEvents (me : LeaseToken) (run : Uuid) (before after : Line) : List WireEvent :=
  if !before.calls && after.calls then [.began me run] else []

/-- The attempt, where it is still there, sees where it is. -/
def arrive (window : ℕ) (w : Wire R) (me : LeaseToken) : Wire R × List WireEvent :=
  match w.engine.attempts me with
  | some j =>
      let after := (w.lines me).enter window w.clock j.pc
      (w.setLine me after, beganEvents me j.run (w.lines me) after)
  | none => (w.setLine me .new, [])

/-- A statement that lingers has its error heard; what is applied before that is
`applied`. -/
def late (w : Wire R) (i : ℕ) : Bool :=
  (w.engine.late[i]?.bind fun l => l.tx.token).all fun me => !(w.lines me).unheard

/-- What an action needs of the clock and of the attempt that acts. -/
def allows (w : Wire R) : Action R → Bool
  | .commit me now | .fails me .applied now =>
      !(w.lines me).unheard && stampable (w.lines me).sent now w.clock
  | .vanish me .applied now =>
      !(w.lines me).unheard && stampable (w.lines me).sent now w.clock
  | .vanish me .left _ => !(w.lines me).unheard
  | .vanish _ .lost _ => true
  | .input me .tick => !(w.lines me).unheard && (w.lines me).due ≤ w.clock
  | .applyLate i now => w.late i && now ≤ w.clock / 1000
  | .start _ _ _ now | .cancel _ now => now ≤ w.clock / 1000
  | .begin _ _ | .answer _ _ => true
  | .readStatus me | .readSeq me | .fails me _ _ | .rejects me _ | .input me _ =>
      !(w.lines me).unheard

def act (cfg : Config) (window : ℕ) (w : Wire R) (a : Action R) :
    Option (Wire R × List WireEvent) :=
  if w.allows a then
    (Engine.step cfg w.engine a).map fun r =>
      let w' : Wire R := { w with engine := r.1 }
      match a.actor with
      | some me =>
          if a.remote then (w'.setLine me { w.lines me with unheard := true }, [])
          else w'.arrive window me
      | none => (w', [])
  else none

def hear (window : ℕ) (w : Wire R) (me : LeaseToken) : Option (Wire R × List WireEvent) :=
  if (w.lines me).unheard then some (w.arrive window me) else none

def step (cfg : Config) (window : ℕ) (w : Wire R) : WireAction R → Option (Wire R × List WireEvent)
  | .wait elapsed => some ({ w with clock := w.clock + elapsed }, [])
  | .act a => w.act cfg window a
  | .hear me => w.hear window me

end Wire

abbrev WireRun (cfg : Config) (window : ℕ) (C : Wire R → WireAction R → Prop) :
    List WireEvent → Wire R → Prop :=
  StepRun.Run (Wire.step cfg window) C Wire.init

/-! ## What one step can do -/

def Wire.setEngine (w : Wire R) (s : Engine R) : Wire R := { w with engine := s }

namespace Wire

@[simp] theorem setLine_self (w : Wire R) (me : LeaseToken) (l : Line) :
    (w.setLine me l).lines me = l := Function.update_self ..

theorem setLine_other (w : Wire R) {me v : LeaseToken} (l : Line) (h : v ≠ me) :
    (w.setLine me l).lines v = w.lines v := Function.update_of_ne h _ _

@[simp] theorem setLine_engine (w : Wire R) (me : LeaseToken) (l : Line) :
    (w.setLine me l).engine = w.engine := rfl

@[simp] theorem setEngine_engine (w : Wire R) (s : Engine R) : (w.setEngine s).engine = s := rfl

@[simp] theorem arrive_engine (window : ℕ) (w : Wire R) (me : LeaseToken) :
    (w.arrive window me).1.engine = w.engine := by
  unfold arrive
  split <;> rfl

@[simp] theorem arrive_clock (window : ℕ) (w : Wire R) (me : LeaseToken) :
    (w.arrive window me).1.clock = w.clock := by
  unfold arrive
  split <;> rfl

theorem arrive_other (window : ℕ) (w : Wire R) {me v : LeaseToken} (h : v ≠ me) :
    (w.arrive window me).1.lines v = w.lines v := by
  unfold arrive
  split <;> exact setLine_other _ _ h

theorem arrive_some (window : ℕ) {w : Wire R} {me : LeaseToken} {j : JobAttempt R}
    (h : w.engine.attempts me = some j) :
    (w.arrive window me).1.lines me = (w.lines me).enter window w.clock j.pc ∧
      (w.arrive window me).2 =
        beganEvents me j.run (w.lines me) ((w.lines me).enter window w.clock j.pc) := by
  unfold arrive
  rw [h]
  exact ⟨setLine_self .., rfl⟩

theorem arrive_none (window : ℕ) {w : Wire R} {me : LeaseToken}
    (h : w.engine.attempts me = none) :
    (w.arrive window me).1.lines me = .new ∧ (w.arrive window me).2 = [] := by
  unfold arrive
  rw [h]
  exact ⟨setLine_self .., rfl⟩

end Wire

inductive WireTook (cfg : Config) (window : ℕ) (w : Wire R) :
    WireAction R → Wire R → List WireEvent → Prop
  | wait (elapsed : ℕ) :
      WireTook cfg window w (.wait elapsed) { w with clock := w.clock + elapsed } []
  | quiet {a : Action R} {s : Engine R} {es : List Event} (hallow : w.allows a = true)
      (hs : Engine.step cfg w.engine a = some (s, es)) (ha : a.actor = none) :
      WireTook cfg window w (.act a) (w.setEngine s) []
  | remote {a : Action R} {me : LeaseToken} {s : Engine R} {es : List Event}
      (hallow : w.allows a = true) (hs : Engine.step cfg w.engine a = some (s, es))
      (ha : a.actor = some me) (hr : a.remote = true) :
      WireTook cfg window w (.act a)
        ((w.setEngine s).setLine me { w.lines me with unheard := true }) []
  | near {a : Action R} {me : LeaseToken} {s : Engine R} {es : List Event}
      (hallow : w.allows a = true) (hs : Engine.step cfg w.engine a = some (s, es))
      (ha : a.actor = some me) (hr : a.remote = false) :
      WireTook cfg window w (.act a) ((w.setEngine s).arrive window me).1
        ((w.setEngine s).arrive window me).2
  | hear {me : LeaseToken} (h : (w.lines me).unheard = true) :
      WireTook cfg window w (.hear me) (w.arrive window me).1 (w.arrive window me).2

section

variable {cfg : Config} {window : ℕ} {w w' : Wire R} {b : WireAction R} {fs : List WireEvent}

theorem wire_took (h : Wire.step cfg window w b = some (w', fs)) :
    WireTook cfg window w b w' fs := by
  cases b with
  | wait elapsed => cases h; exact .wait elapsed
  | hear me =>
      simp only [Wire.step, Wire.hear] at h
      split_ifs at h with hu
      have hhear := @WireTook.hear R cfg window w me hu
      rw [Option.some.inj h] at hhear
      exact hhear
  | act a =>
      simp only [Wire.step, Wire.act] at h
      split at h
      case isFalse => cases h
      case isTrue hallow =>
      simp only [Option.map_eq_some_iff] at h
      obtain ⟨⟨s, es⟩, hs, heq⟩ := h
      cases hactor : a.actor with
      | none =>
          simp only [hactor] at heq
          cases heq
          exact .quiet hallow hs hactor
      | some me =>
          simp only [hactor] at heq
          cases hr : a.remote with
          | true =>
              simp only [hr, if_true] at heq
              cases heq
              exact .remote hallow hs hactor hr
          | false =>
              simp only [hr, Bool.false_eq_true, if_false] at heq
              have hnear := @WireTook.near R cfg window w a me s es hallow hs hactor hr
              rw [Wire.setEngine, heq] at hnear
              exact hnear

/-- A step of the wire is at most one step of the engine. -/
theorem WireTook.engine (h : WireTook cfg window w b w' fs) :
    w'.engine = w.engine ∨
      ∃ a es, b = .act a ∧ Engine.step cfg w.engine a = some (w'.engine, es) := by
  cases h with
  | wait => exact .inl rfl
  | quiet hallow hs => exact .inr ⟨_, _, rfl, hs⟩
  | remote hallow hs => exact .inr ⟨_, _, rfl, hs⟩
  | near hallow hs => exact .inr ⟨_, _, rfl, by rw [Wire.arrive_engine]; exact hs⟩
  | hear => exact .inl (Wire.arrive_engine ..)

theorem WireRun.engine {C : Wire R → WireAction R → Prop} {log : List WireEvent}
    (h : WireRun cfg window C log w) : ∃ log', EngineRun cfg StepRun.Free log' w.engine := by
  refine h.safe (I := fun w => ∃ log', EngineRun cfg StepRun.Free log' w.engine)
    ⟨[], .start⟩ ?_
  rintro w b w' fs ⟨log', hrun⟩ - hs
  rcases (wire_took hs).engine with heq | ⟨a, es, -, hstep⟩
  · rw [heq]
    exact ⟨log', hrun⟩
  · exact ⟨log' ++ es, hrun.snoc trivial hstep⟩

end

end Cja.Durable
