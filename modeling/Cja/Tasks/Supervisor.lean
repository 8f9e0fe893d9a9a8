import Cja.Lib.StepRun

/-!
# The supervisor of a process

`Supervisor::run` waits for a signal or for the first task to end, cancels the
shared token, joins the tasks until the deadline and aborts the rest. The tasks,
the signals and the clock are the environment's: a task ends when it likes, an
aborted one when it next yields. Durations are nanoseconds.
-/
namespace Cja.Tasks

open StepRun

structure ShutdownBudget where
  jobDrain : ℕ
  exitGrace : ℕ
deriving Repr, DecidableEq

def ShutdownBudget.deadline (b : ShutdownBudget) : ℕ := b.jobDrain + b.exitGrace

/-- `tokio::task::Id`. -/
abbrev TaskId := ℕ

/-- What joining a task yields; an error is its chain of messages, outermost first,
and a panic the text of its `JoinError`. -/
inductive Exit
  | ok
  | failed (chain : List String)
  | panicked (joinError : String)
deriving Repr, DecidableEq

inductive TaskState
  | running
  /-- Aborted, but not yet at a point where it yields. -/
  | aborting
  | stopped
  | ended (exit : Exit)
deriving Repr, DecidableEq

structure Task where
  id : TaskId
  state : TaskState
deriving Repr, DecidableEq

abbrev Outcome := Except (List String) Unit

inductive Phase
  /-- Before `run`: tasks are spawned. -/
  | spawning
  /-- The `select!` of `run_until`. -/
  | selecting
  /-- The token was cancelled at `since`, and the timeout armed. -/
  | draining (result : Outcome) (since : ℕ)
  /-- `JoinSet::shutdown`. -/
  | aborting (result : Outcome) (since : ℕ)
  | returned (result : Outcome)

structure Supervisor where
  tasks : List Task
  names : List (TaskId × String)
  shutdown : Bool
  budget : ShutdownBudget
  /-- Signals that arrived and were not received yet. -/
  signals : List String
  phase : Phase
  clock : ℕ

inductive Event
  | spawned (id : TaskId) (name : String)
  | received (signal : String)
  | ended (id : TaskId) (exit : Exit)
  /-- The shutdown token is cancelled. -/
  | cancelled (instant : ℕ)
  /-- The names in the warning before the abort. -/
  | stragglers (names : List String)
  | aborted (id : TaskId) (instant : ℕ)
  | returned (result : Outcome) (instant : ℕ)

inductive Action
  | spawn (id : TaskId) (name : String)
  | run
  | signal (name : String)
  | ends (id : TaskId) (exit : Exit)
  | elapse (nanos : ℕ)
  /-- The signal arm of the `select!`. -/
  | receive (name : String)
  /-- The task arm of the `select!`. -/
  | joinFirst (id : TaskId) (exit : Exit)
  | join (id : TaskId) (exit : Exit)
  | drained
  | expire
  /-- An aborted task yields. -/
  | stops (id : TaskId)
  | reap (id : TaskId)
  | stopped

/-- The result of a task under its name. -/
def Exit.outcome (name : String) : Exit → Outcome
  | ok => .ok ()
  | failed chain => .error (("Task '" ++ name ++ "' failed") :: chain)
  | panicked joinError => .error ["Task '" ++ name ++ "' panicked: " ++ joinError]

/-- `Supervisor::outcome`; that it forgets the name is `joined`. -/
def outcome (names : List (TaskId × String)) (id : TaskId) (exit : Exit) : String × Outcome :=
  let name := (names.lookup id).getD "unknown"
  (name, exit.outcome name)

/-- The error of a task that ends by itself. -/
def endError (name : String) : Outcome → List String
  | .ok () => ["Task '" ++ name ++ "' exited unexpectedly"]
  | .error error => error

/-- Whether the task can still do anything. -/
def TaskState.live : TaskState → Bool
  | running | aborting => true
  | stopped | ended _ => false

namespace Supervisor

def new (budget : ShutdownBudget) : Supervisor := ⟨[], [], false, budget, [], .spawning, 0⟩

/-- Task `id` changes its state, where it is in one of the states `p`. -/
def turn (s : Supervisor) (id : TaskId) (p : TaskState → Bool) (state : TaskState) : Supervisor :=
  { s with tasks := s.tasks.map fun t => if t.id = id ∧ p t.state then ⟨t.id, state⟩ else t }

def holds (s : Supervisor) (id : TaskId) (p : TaskState → Bool) : Bool :=
  s.tasks.any fun t => t.id == id && p t.state

/-- A joined task leaves the set. -/
def remove (s : Supervisor) (id : TaskId) : Supervisor :=
  { s with tasks := s.tasks.filter fun t => t.id ≠ id }

/-- A joined task leaves the set, and `outcome` takes its name. -/
def joined (s : Supervisor) (id : TaskId) : Supervisor :=
  { s.remove id with names := s.names.filter fun p => p.1 ≠ id }

def cancel (s : Supervisor) (result : Outcome) : Supervisor :=
  { s with shutdown := true, phase := .draining result s.clock }

/-- `tasks.shutdown()` aborts what has not ended. -/
def abortAll (s : Supervisor) : Supervisor :=
  { s with tasks := s.tasks.map fun t => if t.state = .running then ⟨t.id, .aborting⟩ else t }

def runningIds (s : Supervisor) : List TaskId :=
  (s.tasks.filter fun t => t.state = .running).map Task.id

def step (s : Supervisor) : Action → Option (Supervisor × List Event)
  | .spawn id name =>
      match s.phase with
      | .spawning =>
          if id ∈ s.tasks.map Task.id then none
          else some ({ s with
            tasks := s.tasks ++ [⟨id, .running⟩]
            names := s.names ++ [(id, name)] }, [.spawned id name])
      | _ => none
  | .run =>
      match s.phase with
      | .spawning =>
          if s.tasks = [] then
            some ({ s with phase := .returned (.ok ()) }, [.returned (.ok ()) s.clock])
          else some ({ s with phase := .selecting }, [])
      | _ => none
  | .signal name => some ({ s with signals := s.signals ++ [name] }, [])
  | .ends id exit =>
      if s.holds id TaskState.live then
        some (s.turn id TaskState.live (.ended exit), [.ended id exit])
      else none
  | .elapse nanos => some ({ s with clock := s.clock + nanos }, [])
  | .receive name =>
      match s.phase with
      | .selecting =>
          if name ∈ s.signals then some (s.cancel (.ok ()), [.received name, .cancelled s.clock])
          else none
      | _ => none
  | .joinFirst id exit =>
      match s.phase with
      | .selecting =>
          if s.holds id (· == .ended exit) then
            let p := outcome s.names id exit
            some ((s.joined id).cancel (.error (endError p.1 p.2)), [.cancelled s.clock])
          else none
      | _ => none
  | .join id exit =>
      match s.phase with
      | .draining _ _ => if s.holds id (· == .ended exit) then some (s.joined id, []) else none
      | _ => none
  | .drained =>
      match s.phase with
      | .draining result _ =>
          if s.tasks = [] then
            some ({ s with phase := .returned result }, [.returned result s.clock])
          else none
      | _ => none
  | .expire =>
      match s.phase with
      | .draining result since =>
          if s.tasks ≠ [] ∧ since + s.budget.deadline ≤ s.clock then
            some ({ s.abortAll with phase := .aborting result since },
              .stragglers (s.names.map Prod.snd).mergeSort ::
                s.runningIds.map fun id => .aborted id s.clock)
          else none
      | _ => none
  | .stops id =>
      if s.holds id (· == .aborting) then some (s.turn id (· == .aborting) .stopped, []) else none
  | .reap id =>
      match s.phase with
      | .aborting _ _ => if s.holds id fun st => !st.live then some (s.remove id, []) else none
      | _ => none
  | .stopped =>
      match s.phase with
      | .aborting result _ =>
          if s.tasks = [] then
            some ({ s with phase := .returned result }, [.returned result s.clock])
          else none
      | _ => none

end Supervisor

/-- What a step can do. -/
inductive Took (s : Supervisor) : Action → Supervisor → List Event → Prop
  | spawn {id : TaskId} {name : String} (hp : s.phase = .spawning)
      (h : id ∉ s.tasks.map Task.id) :
      Took s (.spawn id name) { s with
        tasks := s.tasks ++ [⟨id, .running⟩]
        names := s.names ++ [(id, name)] } [.spawned id name]
  | empty (hp : s.phase = .spawning) (h : s.tasks = []) :
      Took s .run { s with phase := .returned (.ok ()) } [.returned (.ok ()) s.clock]
  | run (hp : s.phase = .spawning) (h : s.tasks ≠ []) :
      Took s .run { s with phase := .selecting } []
  | signal (name : String) : Took s (.signal name) { s with signals := s.signals ++ [name] } []
  | ends {id : TaskId} {exit : Exit} (h : s.holds id TaskState.live = true) :
      Took s (.ends id exit) (s.turn id TaskState.live (.ended exit)) [.ended id exit]
  | elapse (nanos : ℕ) : Took s (.elapse nanos) { s with clock := s.clock + nanos } []
  | receive {name : String} (hp : s.phase = .selecting) (h : name ∈ s.signals) :
      Took s (.receive name) (s.cancel (.ok ())) [.received name, .cancelled s.clock]
  | joinFirst {id : TaskId} {exit : Exit} (hp : s.phase = .selecting)
      (h : s.holds id (· == .ended exit) = true) :
      Took s (.joinFirst id exit)
        ((s.joined id).cancel (.error
          (endError (outcome s.names id exit).1 (outcome s.names id exit).2))) [.cancelled s.clock]
  | join {id : TaskId} {exit : Exit} {result : Outcome} {since : ℕ}
      (hp : s.phase = .draining result since) (h : s.holds id (· == .ended exit) = true) :
      Took s (.join id exit) (s.joined id) []
  | drained {result : Outcome} {since : ℕ} (hp : s.phase = .draining result since)
      (h : s.tasks = []) :
      Took s .drained { s with phase := .returned result } [.returned result s.clock]
  | expire {result : Outcome} {since : ℕ} (hp : s.phase = .draining result since)
      (h : s.tasks ≠ []) (hclock : since + s.budget.deadline ≤ s.clock) :
      Took s .expire { s.abortAll with phase := .aborting result since }
        (.stragglers (s.names.map Prod.snd).mergeSort ::
          s.runningIds.map fun id => .aborted id s.clock)
  | stops {id : TaskId} (h : s.holds id (· == .aborting) = true) :
      Took s (.stops id) (s.turn id (· == .aborting) .stopped) []
  | reap {id : TaskId} {result : Outcome} {since : ℕ} (hp : s.phase = .aborting result since)
      (h : s.holds id (fun st => !st.live) = true) : Took s (.reap id) (s.remove id) []
  | stopped {result : Outcome} {since : ℕ} (hp : s.phase = .aborting result since)
      (h : s.tasks = []) :
      Took s .stopped { s with phase := .returned result } [.returned result s.clock]

theorem step_took {s s' : Supervisor} {a : Action} {es : List Event}
    (h : s.step a = some (s', es)) : Took s a s' es := by
  cases a with
  | spawn id name =>
      simp only [Supervisor.step] at h
      split at h
      · split_ifs at h with hid
        cases h
        exact .spawn ‹_› hid
      · cases h
  | run =>
      simp only [Supervisor.step] at h
      split at h
      · split_ifs at h with hempty
        · cases h
          exact .empty ‹_› hempty
        · cases h
          exact .run ‹_› hempty
      · cases h
  | signal name =>
      cases h
      exact .signal name
  | ends id exit =>
      simp only [Supervisor.step] at h
      split_ifs at h with hid
      cases h
      exact .ends hid
  | elapse nanos =>
      cases h
      exact .elapse nanos
  | receive name =>
      simp only [Supervisor.step] at h
      split at h
      · split_ifs at h with hname
        cases h
        exact .receive ‹_› hname
      · cases h
  | joinFirst id exit =>
      simp only [Supervisor.step] at h
      split at h
      · split_ifs at h with hid
        cases h
        exact .joinFirst ‹_› hid
      · cases h
  | join id exit =>
      simp only [Supervisor.step] at h
      split at h
      · split_ifs at h with hid
        cases h
        exact .join ‹_› hid
      · cases h
  | drained =>
      simp only [Supervisor.step] at h
      split at h
      · split_ifs at h with hempty
        cases h
        exact .drained ‹_› hempty
      · cases h
  | expire =>
      simp only [Supervisor.step] at h
      split at h
      · split_ifs at h with hlate
        cases h
        exact .expire ‹_› hlate.1 hlate.2
      · cases h
  | stops id =>
      simp only [Supervisor.step] at h
      split_ifs at h with hid
      cases h
      exact .stops hid
  | reap id =>
      simp only [Supervisor.step] at h
      split at h
      · split_ifs at h with hid
        cases h
        exact .reap ‹_› hid
      · cases h
  | stopped =>
      simp only [Supervisor.step] at h
      split at h
      · split_ifs at h with hempty
        cases h
        exact .stopped ‹_› hempty
      · cases h

abbrev SupervisorRun (budget : ShutdownBudget) (C : Supervisor → Action → Prop) :
    List Event → Supervisor → Prop :=
  Run Supervisor.step C (.new budget)

variable {budget : ShutdownBudget} {log es : List Event} {s s' : Supervisor} {a : Action}

/-! ## What the log tells of the shutdown -/

def Event.cancelled? : Event → Option ℕ
  | cancelled instant => some instant
  | _ => none

/-- The event tells nothing of the shutdown. -/
def Event.inert : Event → Bool
  | received _ | cancelled _ | aborted _ _ => false
  | spawned _ _ | ended _ _ | stragglers _ | returned _ _ => true

/-- No shutdown has begun. -/
structure Quiet (log : List Event) : Prop where
  cancelled : log.filterMap Event.cancelled? = []
  received : ∀ signal, .received signal ∉ log
  aborted : ∀ id instant, .aborted id instant ∉ log

/-- What the result says: a signal was received, or a task had ended by itself when the
token was cancelled at `since`. -/
inductive Decided (log : List Event) (since : ℕ) : Outcome → Prop
  | signal {name : String} (h : .received name ∈ log) : Decided log since (.ok ())
  | task {id : TaskId} {name : String} {exit : Exit} {before after : List Event}
      (hlog : log = before ++ .cancelled since :: after) (hs : .spawned id name ∈ before)
      (he : .ended id exit ∈ before) (h : ∀ signal, .received signal ∉ log) :
      Decided log since (.error (endError name (exit.outcome name)))

/-- The token was cancelled once, at `since`, and nothing aborted before the deadline. -/
structure Settled (budget : ShutdownBudget) (log : List Event) (result : Outcome) (since : ℕ) :
    Prop where
  decided : Decided log since result
  cancelled : log.filterMap Event.cancelled? = [since]
  aborted : ∀ id instant, .aborted id instant ∈ log → since + budget.deadline ≤ instant

theorem Quiet.append (h : Quiet log) (hes : ∀ e ∈ es, e.inert = true) : Quiet (log ++ es) where
  cancelled := by
    rw [List.filterMap_append, h.cancelled, List.nil_append, List.filterMap_eq_nil_iff]
    intro e he
    have hinert := hes e he
    cases e <;> first | rfl | cases hinert
  received signal hmem := by
    rcases List.mem_append.mp hmem with hold | hnew
    · exact h.received signal hold
    · cases hes _ hnew
  aborted id instant hmem := by
    rcases List.mem_append.mp hmem with hold | hnew
    · exact h.aborted id instant hold
    · cases hes _ hnew

theorem Decided.append {result : Outcome} {since : ℕ} (h : Decided log since result)
    (hes : ∀ e ∈ es, ∀ signal, e ≠ .received signal) : Decided (log ++ es) since result := by
  cases h with
  | signal h => exact .signal (List.mem_append_left _ h)
  | @task id name exit before after hlog hs he h =>
      have hlog' : log ++ es = before ++ .cancelled since :: (after ++ es) := by
        rw [hlog, List.append_assoc, List.cons_append]
      refine .task hlog' hs he ?_
      intro signal hmem
      rcases List.mem_append.mp hmem with hold | hnew
      · exact h signal hold
      · exact hes _ hnew signal rfl

/-- Only aborts from the deadline on are added. -/
theorem Settled.append {result : Outcome} {since : ℕ} (h : Settled budget log result since)
    (hes : ∀ e ∈ es, e.inert = true ∨
      ∃ id instant, e = .aborted id instant ∧ since + budget.deadline ≤ instant) :
    Settled budget (log ++ es) result since where
  decided := by
    apply h.decided.append
    rintro e he signal rfl
    rcases hes _ he with hinert | ⟨id, instant, heq, -⟩
    · cases hinert
    · cases heq
  cancelled := by
    have hnil : es.filterMap Event.cancelled? = [] := by
      rw [List.filterMap_eq_nil_iff]
      intro e he
      rcases hes e he with hinert | ⟨id, instant, rfl, -⟩
      · cases e <;> first | rfl | cases hinert
      · rfl
    rw [List.filterMap_append, h.cancelled, hnil, List.append_nil]
  aborted id instant hmem := by
    rcases List.mem_append.mp hmem with hold | hnew
    · exact h.aborted id instant hold
    · rcases hes _ hnew with hinert | ⟨id', instant', heq, hle⟩
      · cases hinert
      · cases heq
        exact hle

/-! ## The invariant -/

/-- What the log has of a task in the set. -/
def TaskState.Recorded (log : List Event) (id : TaskId) : TaskState → Prop
  | running => True
  | aborting | stopped => ∃ instant, .aborted id instant ∈ log
  | ended exit => .ended id exit ∈ log

/-- The names are those of the tasks in the set, until the set is shut down. -/
def Phase.named : Phase → Bool
  | aborting _ _ | returned _ => false
  | _ => true

def Supervisor.Fits (log : List Event) (s : Supervisor) : Prop :=
  match s.phase with
  | .spawning =>
      s.shutdown = false ∧ Quiet log ∧ ∀ id name, .spawned id name ∈ log → id ∈ s.tasks.map Task.id
  | .selecting => s.shutdown = false ∧ Quiet log
  | .draining result since => s.shutdown = true ∧ Settled s.budget log result since
  | .aborting result since => s.shutdown = true ∧ Settled s.budget log result since
  | .returned result => s.tasks = [] ∧ ((result = .ok () ∧ ∀ id name, .spawned id name ∉ log) ∨
      s.shutdown = true ∧ ∃ since, Settled s.budget log result since)

structure Inv (log : List Event) (s : Supervisor) : Prop where
  nodup : (s.tasks.map Task.id).Nodup
  keys : s.phase.named = true → s.names.map Prod.fst = s.tasks.map Task.id
  names : ∀ p ∈ s.names, .spawned p.1 p.2 ∈ log
  live : ∀ id name, .spawned id name ∈ log → id ∈ s.tasks.map Task.id ∨
    (∃ exit, .ended id exit ∈ log) ∨ ∃ instant, .aborted id instant ∈ log
  recorded : ∀ t ∈ s.tasks, t.state.Recorded log t.id
  fits : s.Fits log

namespace Supervisor

@[simp] theorem turn_ids (s : Supervisor) (id : TaskId) (p : TaskState → Bool) (st : TaskState) :
    (s.turn id p st).tasks.map Task.id = s.tasks.map Task.id := by
  simp only [turn, List.map_map]
  apply List.map_congr_left
  intro t _
  simp only [Function.comp]
  split_ifs <;> rfl

@[simp] theorem abortAll_ids (s : Supervisor) :
    s.abortAll.tasks.map Task.id = s.tasks.map Task.id := by
  simp only [abortAll, List.map_map]
  apply List.map_congr_left
  intro t _
  simp only [Function.comp]
  split_ifs <;> rfl

@[simp] theorem remove_ids (s : Supervisor) (id : TaskId) :
    (s.remove id).tasks.map Task.id = (s.tasks.map Task.id).filter (· ≠ id) := by
  simp only [remove, List.filter_map]
  rfl

theorem mem_turn {id : TaskId} {p : TaskState → Bool} {st : TaskState} {t : Task}
    (h : t ∈ (s.turn id p st).tasks) : t ∈ s.tasks ∨ (t.id = id ∧ t.state = st ∧
      ∃ t₀ ∈ s.tasks, t₀.id = id ∧ p t₀.state = true) := by
  obtain ⟨t₀, ht₀, rfl⟩ := List.mem_map.mp h
  split_ifs with hif
  · exact .inr ⟨hif.1, rfl, t₀, ht₀, hif⟩
  · exact .inl ht₀

theorem holds_spec {id : TaskId} {p : TaskState → Bool} (h : s.holds id p = true) :
    ∃ t ∈ s.tasks, t.id = id ∧ p t.state = true := by
  simpa [holds] using h

end Supervisor

theorem TaskState.Recorded.append {id : TaskId} {st : TaskState} (h : st.Recorded log id)
    (es : List Event) : st.Recorded (log ++ es) id := by
  cases st with
  | running => trivial
  | ended exit => exact List.mem_append_left _ h
  | aborting => exact h.imp fun _ => List.mem_append_left _
  | stopped => exact h.imp fun _ => List.mem_append_left _

namespace Inv

open Supervisor

theorem live_append (hi : Inv log s) (es : List Event) {id : TaskId} {name : String}
    (h : .spawned id name ∈ log) : id ∈ s.tasks.map Task.id ∨
      (∃ exit, .ended id exit ∈ log ++ es) ∨ ∃ instant, .aborted id instant ∈ log ++ es := by
  rcases hi.live id name h with hin | ⟨exit, he⟩ | ⟨instant, ha⟩
  · exact .inl hin
  · exact .inr (.inl ⟨exit, List.mem_append_left _ he⟩)
  · exact .inr (.inr ⟨instant, List.mem_append_left _ ha⟩)

/-- A step that only moves the phase, the clock or the signals. -/
theorem quiet (hi : Inv log s) (htasks : s'.tasks = s.tasks) (hnames : s'.names = s.names)
    (hnamed : s'.phase.named = true → s.phase.named = true)
    (hes : ∀ e ∈ es, ∀ id name, e ≠ .spawned id name) (hfits : s'.Fits (log ++ es)) :
    Inv (log ++ es) s' where
  nodup := htasks ▸ hi.nodup
  keys h := by rw [hnames, htasks, hi.keys (hnamed h)]
  names p hp := List.mem_append_left _ (hi.names p (hnames ▸ hp))
  live id name h := by
    rcases List.mem_append.mp h with h | h
    · rw [htasks]
      exact hi.live_append es h
    · exact absurd rfl (hes _ h id name)
  recorded t ht := (hi.recorded t (htasks ▸ ht)).append es
  fits := hfits

/-- A task that ended was recorded, and its name is the one it was spawned with. -/
theorem ended_spec (hi : Inv log s) (hnamed : s.phase.named = true) {id : TaskId} {exit : Exit}
    (h : s.holds id (· == .ended exit) = true) : .ended id exit ∈ log ∧
      ∃ name, outcome s.names id exit = (name, exit.outcome name) ∧ .spawned id name ∈ log := by
  obtain ⟨t, ht, rfl, hstate⟩ := holds_spec h
  rw [beq_iff_eq] at hstate
  have hrecorded := hi.recorded t ht
  rw [hstate] at hrecorded
  refine ⟨hrecorded, ?_⟩
  have hkey : t.id ∈ s.names.map Prod.fst := hi.keys hnamed ▸ List.mem_map_of_mem ht
  cases hlook : s.names.lookup t.id with
  | none =>
      obtain ⟨p, hp, hid⟩ := List.mem_map.mp hkey
      rw [List.lookup_eq_none_iff] at hlook
      have hne := hlook p hp
      simp [hid] at hne
  | some name =>
      refine ⟨name, by simp [outcome, hlook], ?_⟩
      obtain ⟨before, after, hsplit, -⟩ := List.lookup_eq_some_iff.mp hlook
      exact hi.names (t.id, name) (by rw [hsplit]; simp)

/-- A joined task had ended. -/
theorem remove (hi : Inv log s) (id : TaskId) (hgone : ∀ name, .spawned id name ∈ log →
    (∃ exit, .ended id exit ∈ log ++ es) ∨ ∃ instant, .aborted id instant ∈ log ++ es)
    (htasks : s'.tasks = (s.remove id).tasks)
    (hnames : s'.names = s.names ∨ s'.names = s.names.filter fun p => p.1 ≠ id)
    (hkeys : s'.phase.named = true → s'.names.map Prod.fst = s'.tasks.map Task.id)
    (hes : ∀ e ∈ es, ∀ id name, e ≠ .spawned id name) (hfits : s'.Fits (log ++ es)) :
    Inv (log ++ es) s' where
  nodup := by
    rw [htasks, remove_ids]
    exact hi.nodup.filter _
  keys := hkeys
  names p hp := by
    apply List.mem_append_left
    rcases hnames with heq | heq <;> rw [heq] at hp
    · exact hi.names p hp
    · exact hi.names p (List.mem_filter.mp hp).1
  live id' name h := by
    rcases List.mem_append.mp h with h | h
    · rw [htasks, remove_ids]
      by_cases hid : id' = id
      · exact .inr (hgone name (hid ▸ h) |>.imp (hid ▸ ·) (hid ▸ ·))
      · rcases hi.live_append es h with hin | hrest
        · exact .inl (List.mem_filter.mpr ⟨hin, by simpa using hid⟩)
        · exact .inr hrest
    · exact absurd rfl (hes _ h id' name)
  recorded t ht := by
    rw [htasks] at ht
    exact (hi.recorded t (List.mem_filter.mp ht).1).append es
  fits := hfits

theorem init (budget : ShutdownBudget) : Inv [] (.new budget) := by
  constructor <;> simp [Supervisor.new, Supervisor.Fits]
  constructor <;> simp

/-- A task changes its state. -/
theorem turn (hi : Inv log s) {id : TaskId} {p : TaskState → Bool} {st : TaskState}
    (hst : ∀ t ∈ s.tasks, t.id = id → p t.state = true → st.Recorded (log ++ es) id)
    (hes : ∀ e ∈ es, ∀ id name, e ≠ .spawned id name)
    (hfits : (s.turn id p st).Fits (log ++ es)) : Inv (log ++ es) (s.turn id p st) where
  nodup := by rw [turn_ids]; exact hi.nodup
  keys h := by rw [turn_ids]; exact hi.keys h
  names q hq := List.mem_append_left _ (hi.names q hq)
  live id' name h := by
    rw [turn_ids]
    rcases List.mem_append.mp h with h | h
    · exact hi.live_append es h
    · exact absurd rfl (hes _ h id' name)
  recorded t ht := by
    rcases mem_turn ht with hold | ⟨hid, hstate, t₀, ht₀, hid₀, hp⟩
    · exact (hi.recorded t hold).append es
    · rw [hid, hstate]
      exact hst t₀ ht₀ hid₀ hp
  fits := hfits

/-- What the phase says of the log survives a step that keeps phase and tasks. -/
theorem fits_inert (h : s.Fits log) (hphase : s'.phase = s.phase)
    (hshutdown : s'.shutdown = s.shutdown) (hbudget : s'.budget = s.budget)
    (hids : s'.tasks.map Task.id = s.tasks.map Task.id)
    (hes : ∀ e ∈ es, e.inert = true ∧ ∀ id name, e ≠ .spawned id name) : s'.Fits (log ++ es) := by
  have hinert : ∀ e ∈ es, e.inert = true := fun e he => (hes e he).1
  have hold : ∀ {id name}, .spawned id name ∈ log ++ es → .spawned id name ∈ log := by
    intro id name hmem
    rcases List.mem_append.mp hmem with hmem | hmem
    · exact hmem
    · exact absurd rfl ((hes _ hmem).2 id name)
  unfold Supervisor.Fits at h ⊢
  rw [hphase, hshutdown, hbudget, hids]
  cases hp : s.phase with
  | spawning =>
      rw [hp] at h
      exact ⟨h.1, h.2.1.append hinert, fun id name hmem => h.2.2 id name (hold hmem)⟩
  | selecting =>
      rw [hp] at h
      exact ⟨h.1, h.2.append hinert⟩
  | draining result since =>
      rw [hp] at h
      exact ⟨h.1, h.2.append fun e he => .inl (hinert e he)⟩
  | aborting result since =>
      rw [hp] at h
      exact ⟨h.1, h.2.append fun e he => .inl (hinert e he)⟩
  | returned result =>
      rw [hp] at h
      obtain ⟨hempty, hcases⟩ := h
      rw [hempty, List.map_nil, List.map_eq_nil_iff] at hids
      refine ⟨hids, ?_⟩
      rcases hcases with ⟨hok, hnone⟩ | ⟨hshut, since, hset⟩
      · exact .inl ⟨hok, fun id name hmem => hnone id name (hold hmem)⟩
      · exact .inr ⟨hshut, since, hset.append fun e he => .inl (hinert e he)⟩

/-- A task is spawned while tasks are. -/
theorem spawned (hi : Inv log s) {id : TaskId} {name : String} (hp : s.phase = .spawning)
    (hid : id ∉ s.tasks.map Task.id) :
    Inv (log ++ [.spawned id name])
      { s with tasks := s.tasks ++ [⟨id, .running⟩], names := s.names ++ [(id, name)] } := by
  have hfits := hi.fits
  unfold Supervisor.Fits at hfits
  rw [hp] at hfits
  obtain ⟨hshut, hquiet, hall⟩ := hfits
  have hlive : ∀ id' name', .spawned id' name' ∈ log ++ [.spawned id name] →
      id' ∈ (s.tasks ++ [Task.mk id .running]).map Task.id := by
    intro id' name' hmem
    rw [List.map_append]
    rcases List.mem_append.mp hmem with hmem | hmem
    · exact List.mem_append_left _ (hall id' name' hmem)
    · simp only [List.mem_singleton, Event.spawned.injEq] at hmem
      simp [hmem.1]
  constructor
  case nodup =>
    rw [List.map_append, List.nodup_append]
    refine ⟨hi.nodup, by simp, ?_⟩
    intro x hx y hy hxy
    simp only [List.map_cons, List.map_nil, List.mem_singleton] at hy
    exact hid (hy ▸ hxy ▸ hx)
  case keys =>
    intro _
    rw [List.map_append, List.map_append, hi.keys (by rw [hp]; rfl)]
    rfl
  case names =>
    intro p hmem
    rcases List.mem_append.mp hmem with hmem | hmem
    · exact List.mem_append_left _ (hi.names p hmem)
    · rw [List.mem_singleton] at hmem
      subst hmem
      simp
  case live => exact fun id' name' hmem => .inl (hlive id' name' hmem)
  case recorded =>
    intro t ht
    rcases List.mem_append.mp ht with ht | ht
    · exact (hi.recorded t ht).append _
    · rw [List.mem_singleton] at ht
      subst ht
      trivial
  case fits =>
    unfold Supervisor.Fits
    rw [hp]
    exact ⟨hshut, hquiet.append (by simp [Event.inert]), hlive⟩

/-- The task whose end is the first to be seen is joined, and its exit is the error. -/
theorem joinedFirst (hi : Inv log s) {id : TaskId} {exit : Exit} (hp : s.phase = .selecting)
    (hended : s.holds id (· == .ended exit) = true) :
    Inv (log ++ [.cancelled s.clock])
      ((s.joined id).cancel (.error
        (endError (outcome s.names id exit).1 (outcome s.names id exit).2))) := by
  obtain ⟨hmem, name, hout, hspawned⟩ := hi.ended_spec (by rw [hp]; rfl) hended
  have hkeys := hi.keys (by rw [hp]; rfl)
  have hfits := hi.fits
  unfold Supervisor.Fits at hfits
  rw [hp] at hfits
  refine hi.remove id ?_ rfl (.inr rfl) ?_ (by simp) ?_
  · intro _ _
    exact .inl ⟨exit, List.mem_append_left _ hmem⟩
  · intro _
    simp only [Supervisor.cancel, Supervisor.joined, remove_ids, ← hkeys, List.filter_map]
    rfl
  · rw [hout]
    refine ⟨rfl, .task rfl hspawned hmem ?_, ?_, ?_⟩
    · intro signal hsig
      simp [hfits.2.received] at hsig
    · rw [List.filterMap_append, hfits.2.cancelled]
      rfl
    · intro id' instant hab
      simp [hfits.2.aborted] at hab

/-- A task that ended during the drain is joined. -/
theorem joined (hi : Inv log s) {id : TaskId} {exit : Exit} {result : Outcome} {since : ℕ}
    (hp : s.phase = .draining result since) (hended : s.holds id (· == .ended exit) = true) :
    Inv (log ++ []) (s.joined id) := by
  obtain ⟨hmem, -⟩ := hi.ended_spec (by rw [hp]; rfl) hended
  have hkeys := hi.keys (by rw [hp]; rfl)
  have hfits := hi.fits
  unfold Supervisor.Fits at hfits
  rw [hp] at hfits
  refine hi.remove id ?_ rfl (.inr rfl) ?_ (by simp) ?_
  · intro _ _
    exact .inl ⟨exit, List.mem_append_left _ hmem⟩
  · intro _
    simp only [Supervisor.joined, remove_ids, ← hkeys, List.filter_map]
    rfl
  · unfold Supervisor.Fits
    simp only [Supervisor.joined, Supervisor.remove, hp]
    exact ⟨hfits.1, hfits.2.append (by simp)⟩

/-- A task that is no longer live is reaped behind the aborts. -/
theorem reaped (hi : Inv log s) {id : TaskId} {result : Outcome} {since : ℕ}
    (hp : s.phase = .aborting result since) (hdone : s.holds id (fun st => !st.live) = true) :
    Inv (log ++ []) (s.remove id) := by
  obtain ⟨t, ht, rfl, hstate⟩ := holds_spec hdone
  have hrec := hi.recorded t ht
  have hfits := hi.fits
  unfold Supervisor.Fits at hfits
  rw [hp] at hfits
  refine hi.remove t.id ?_ rfl (.inl rfl) ?_ (by simp) ?_
  · intro _ _
    cases hst : t.state with
    | running => rw [hst] at hstate; cases hstate
    | aborting => rw [hst] at hstate; cases hstate
    | stopped =>
        rw [hst] at hrec
        exact .inr (hrec.imp fun _ => List.mem_append_left _)
    | ended exit =>
        rw [hst] at hrec
        exact .inl ⟨exit, List.mem_append_left _ hrec⟩
  · intro hnamed
    simp [Supervisor.remove, hp, Phase.named] at hnamed
  · unfold Supervisor.Fits
    simp only [Supervisor.remove, hp]
    exact ⟨hfits.1, hfits.2.append (by simp)⟩

/-- The deadline passes, and what still runs is aborted. -/
theorem expired (hi : Inv log s) {result : Outcome} {since : ℕ}
    (hp : s.phase = .draining result since) (hclock : since + s.budget.deadline ≤ s.clock) :
    Inv (log ++ (.stragglers (s.names.map Prod.snd).mergeSort ::
        s.runningIds.map fun id => .aborted id s.clock))
      { s.abortAll with phase := .aborting result since } := by
  have habort : ∀ id ∈ s.runningIds, .aborted id s.clock ∈
      log ++ (.stragglers (s.names.map Prod.snd).mergeSort ::
        s.runningIds.map fun id => .aborted id s.clock) := by
    intro id hid
    exact List.mem_append_right _ (List.mem_cons_of_mem _ (List.mem_map_of_mem hid))
  have hfits := hi.fits
  unfold Supervisor.Fits at hfits
  rw [hp] at hfits
  constructor
  case nodup => simpa using hi.nodup
  case keys => simp [Phase.named]
  case names => exact fun p hmem => List.mem_append_left _ (hi.names p hmem)
  case live =>
    intro id name hmem
    change id ∈ s.abortAll.tasks.map Task.id ∨ _
    rw [abortAll_ids]
    rcases List.mem_append.mp hmem with hmem | hmem
    · exact hi.live_append _ hmem
    · simp at hmem
  case recorded =>
    intro t ht
    obtain ⟨t₀, ht₀, rfl⟩ := List.mem_map.mp ht
    split_ifs with hrun
    · refine ⟨s.clock, habort t₀.id ?_⟩
      exact List.mem_map_of_mem (List.mem_filter.mpr ⟨ht₀, by simpa using hrun⟩)
    · exact (hi.recorded t₀ ht₀).append _
  case fits =>
    refine ⟨hfits.1, hfits.2.append ?_⟩
    intro e he
    rw [List.mem_cons] at he
    rcases he with rfl | he
    · exact .inl rfl
    · obtain ⟨id, -, rfl⟩ := List.mem_map.mp he
      exact .inr ⟨id, s.clock, rfl, hclock⟩

/-- The shutdown returns what it decided, with no task left. -/
theorem finished (hi : Inv log s) {result : Outcome} {since : ℕ}
    (hsettled : s.shutdown = true ∧ Settled s.budget log result since) (hempty : s.tasks = []) :
    Inv (log ++ [.returned result s.clock]) { s with phase := .returned result } := by
  refine hi.quiet rfl rfl (by simp [Phase.named]) (by simp) ?_
  exact ⟨hempty, .inr ⟨hsettled.1, since, hsettled.2.append (by simp [Event.inert])⟩⟩

theorem step (hi : Inv log s) (h : Took s a s' es) : Inv (log ++ es) s' := by
  have hfits := hi.fits
  cases h with
  | spawn hp hid => exact hi.spawned hp hid
  | empty hp hempty =>
      refine hi.quiet rfl rfl (by simp [Phase.named]) (by simp) ?_
      unfold Supervisor.Fits at hfits
      rw [hp] at hfits
      refine ⟨hempty, .inl ⟨rfl, ?_⟩⟩
      intro id name hmem
      rw [List.mem_append, List.mem_singleton] at hmem
      rcases hmem with hmem | hmem
      · have hin := hfits.2.2 id name hmem
        rw [hempty] at hin
        cases hin
      · cases hmem
  | run hp hne =>
      refine hi.quiet rfl rfl (by simp [hp, Phase.named]) (by simp) ?_
      unfold Supervisor.Fits at hfits
      rw [hp] at hfits
      exact ⟨hfits.1, hfits.2.1.append (by simp)⟩
  | signal name =>
      exact hi.quiet rfl rfl id (by simp) (fits_inert hfits rfl rfl rfl rfl (by simp))
  | elapse nanos =>
      exact hi.quiet rfl rfl id (by simp) (fits_inert hfits rfl rfl rfl rfl (by simp))
  | @ends id exit hlive =>
      refine hi.turn ?_ (by simp) (fits_inert hfits rfl rfl rfl (turn_ids ..) (by simp [Event.inert]))
      intro t _ _ _
      simp [TaskState.Recorded]
  | @stops id haborting =>
      refine hi.turn ?_ (by simp) (fits_inert hfits rfl rfl rfl (turn_ids ..) (by simp))
      intro t ht hid hstate
      rw [beq_iff_eq] at hstate
      have hrec : TaskState.stopped.Recorded log id := by
        have haborted := hi.recorded t ht
        rwa [hstate, hid] at haborted
      exact hrec.append []
  | @receive name hp hname =>
      refine hi.quiet rfl rfl (by simp [hp, Phase.named]) (by simp) ?_
      unfold Supervisor.Fits at hfits
      rw [hp] at hfits
      refine ⟨rfl, .signal (show Event.received name ∈ _ by simp), ?_, ?_⟩
      · rw [List.filterMap_append, hfits.2.cancelled]
        rfl
      · intro id instant hmem
        simp [hfits.2.aborted] at hmem
  | joinFirst hp hended => exact hi.joinedFirst hp hended
  | join hp hended => exact hi.joined hp hended
  | drained hp hempty =>
      unfold Supervisor.Fits at hfits
      rw [hp] at hfits
      exact hi.finished hfits hempty
  | stopped hp hempty =>
      unfold Supervisor.Fits at hfits
      rw [hp] at hfits
      exact hi.finished hfits hempty
  | reap hp hdone => exact hi.reaped hp hdone
  | expire hp hne hclock => exact hi.expired hp hclock

theorem of_run {C : Supervisor → Action → Prop} (h : SupervisorRun budget C log s) : Inv log s :=
  h.invariant (init budget) fun _ _ _ _ _ _ hi _ hs => hi.step (step_took hs)

end Inv

theorem Took.same_budget (h : Took s a s' es) : s'.budget = s.budget := by
  cases h <;> rfl

theorem budget_of_run {C : Supervisor → Action → Prop} (h : SupervisorRun budget C log s) :
    s.budget = budget :=
  h.safe (I := fun s => s.budget = budget) rfl fun _ _ _ _ hi _ hs =>
    (step_took hs).same_budget.trans hi

/-- When `run` returns, every task has ended or was aborted, and none before the deadline
after the one cancellation. A signal makes it `Ok`; otherwise the error is that of a task
that had ended by itself before the cancellation, under the name it was spawned with. -/
theorem supervisor_returned {result : Outcome} (h : SupervisorRun budget Free log s)
    (hr : s.phase = .returned result) :
    s.tasks = [] ∧
      (∀ id name, .spawned id name ∈ log →
        (∃ exit, .ended id exit ∈ log) ∨ ∃ instant, .aborted id instant ∈ log) ∧
      ((result = .ok () ∧ ∀ id name, .spawned id name ∉ log) ∨
        ∃ since, s.shutdown = true ∧ log.filterMap Event.cancelled? = [since] ∧
          (∀ id instant, .aborted id instant ∈ log → since + budget.deadline ≤ instant) ∧
          ((result = .ok () ∧ ∃ signal, .received signal ∈ log) ∨
            ∃ id name exit before after, log = before ++ .cancelled since :: after ∧
              .spawned id name ∈ before ∧ .ended id exit ∈ before ∧
              (∀ signal, .received signal ∉ log) ∧
              result = .error (endError name (exit.outcome name)))) := by
  have hi := Inv.of_run h
  have hbudget := budget_of_run h
  have hfits := hi.fits
  unfold Supervisor.Fits at hfits
  rw [hr] at hfits
  obtain ⟨hempty, hcases⟩ := hfits
  refine ⟨hempty, ?_, ?_⟩
  · intro id name hspawned
    have hlive := hi.live id name hspawned
    rw [hempty] at hlive
    exact hlive.resolve_left List.not_mem_nil
  · rcases hcases with hidle | ⟨hshut, since, hset⟩
    · exact .inl hidle
    · refine .inr ⟨since, hshut, hset.cancelled, hbudget ▸ hset.aborted, ?_⟩
      cases hset.decided with
      | signal hsig => exact .inl ⟨rfl, _, hsig⟩
      | task hlog hs he hno => exact .inr ⟨_, _, _, _, _, hlog, hs, he, hno, rfl⟩

def shortBudget : ShutdownBudget := ⟨5, 3⟩

/-- The cron task panics while the signal is on its way; the server has to be aborted. -/
def stuckServer : List Action :=
  [.spawn 1 "server", .spawn 2 "cron", .spawn 3 "jobs", .run, .elapse 4,
    .ends 2 (.panicked "task 2 panicked"), .joinFirst 2 (.panicked "task 2 panicked"),
    .signal "SIGTERM", .ends 3 .ok, .join 3 .ok, .elapse 8, .expire, .stops 1, .reap 1, .stopped]

theorem supervisor_returned_stuck : ∃ (log : List Event) (s : Supervisor) (result : Outcome),
    SupervisorRun shortBudget Free log s ∧ s.phase = .returned result ∧
      s.tasks = [] ∧
      (∀ id name, .spawned id name ∈ log →
        (∃ exit, .ended id exit ∈ log) ∨ ∃ instant, .aborted id instant ∈ log) ∧
      ((result = .ok () ∧ ∀ id name, .spawned id name ∉ log) ∨
        ∃ since, s.shutdown = true ∧ log.filterMap Event.cancelled? = [since] ∧
          (∀ id instant, .aborted id instant ∈ log → since + shortBudget.deadline ≤ instant) ∧
          ((result = .ok () ∧ ∃ signal, .received signal ∈ log) ∨
            ∃ id name exit before after, log = before ++ .cancelled since :: after ∧
              .spawned id name ∈ before ∧ .ended id exit ∈ before ∧
              (∀ signal, .received signal ∉ log) ∧
              result = .error (endError name (exit.outcome name)))) := by
  obtain ⟨log, s, hrun, hp⟩ := exists_free_run Supervisor.step (.new shortBudget) stuckServer
    (fun _ s => match s.phase with
      | .returned _ => true
      | _ => false) (by decide)
  cases hphase : s.phase with
  | returned result =>
      exact ⟨log, s, result, hrun, hphase, supervisor_returned hrun hphase⟩
  | _ => rw [hphase] at hp; cases hp

/-! ## On time -/

/-- At `instant` the shutdown can go on: every task was joined, or the timeout fires. -/
def Supervisor.due (s : Supervisor) (instant : ℕ) : Bool :=
  match s.phase with
  | .draining _ since => s.tasks = [] ∨ since + s.budget.deadline ≤ instant
  | .aborting _ _ => s.tasks = []
  | _ => false

/-- The supervisor is polled as soon as its shutdown can go on: time passes only while it
cannot, and the timeout looks at its tasks first. -/
def Supervisor.prompt (s : Supervisor) : Action → Bool
  | .elapse nanos => ∀ d < nanos, s.due (s.clock + d) = false
  | .expire => s.tasks.all fun t => t.state.live
  | _ => true

/-- The steps of `run_until` itself. -/
def Action.own : Action → Bool
  | receive _ | joinFirst _ _ | join _ _ | drained | expire | reap _ | stopped => true
  | spawn _ _ | run | signal _ | ends _ _ | elapse _ | stops _ => false

/-- Whatever is aborted is aborted at the deadline, and only then may the return be later. -/
structure Timed (deadline : ℕ) (log : List Event) (since : ℕ) : Prop where
  aborted : ∀ id i, .aborted id i ∈ log → i = since + deadline
  returned : ∀ result i, .returned result i ∈ log →
    i ≤ since + deadline ∨ ∃ id, .aborted id (since + deadline) ∈ log

def Supervisor.OnTime (log : List Event) (s : Supervisor) : Prop :=
  match s.phase with
  | .spawning | .selecting => ∀ result i, .returned result i ∉ log
  | .draining _ since =>
      s.clock ≤ since + s.budget.deadline ∧ (∀ id i, .aborted id i ∉ log) ∧
        ∀ result i, .returned result i ∉ log
  | .aborting _ since =>
      (∃ id, .aborted id (since + s.budget.deadline) ∈ log) ∧ Timed s.budget.deadline log since
  | .returned _ => (∃ result i, .returned result i ∈ log) ∧
      ∀ since, .cancelled since ∈ log → Timed s.budget.deadline log since

theorem Settled.since_eq {result : Outcome} {since i : ℕ} (h : Settled budget log result since)
    (hmem : .cancelled i ∈ log) : i = since := by
  have hin : i ∈ log.filterMap Event.cancelled? := List.mem_filterMap.mpr ⟨_, hmem, rfl⟩
  rw [h.cancelled, List.mem_singleton] at hin
  exact hin

theorem Timed.append {deadline since : ℕ} (h : Timed deadline log since)
    (hes : ∀ e ∈ es, (∀ id i, e ≠ .aborted id i) ∧ ∀ result i, e = .returned result i →
      i ≤ since + deadline ∨ ∃ id, .aborted id (since + deadline) ∈ log) :
    Timed deadline (log ++ es) since where
  aborted id i hmem := by
    rcases List.mem_append.mp hmem with hmem | hmem
    · exact h.aborted id i hmem
    · exact absurd rfl ((hes _ hmem).1 id i)
  returned result i hmem := by
    have hret : i ≤ since + deadline ∨ ∃ id, .aborted id (since + deadline) ∈ log := by
      rcases List.mem_append.mp hmem with hmem | hmem
      · exact h.returned result i hmem
      · exact (hes _ hmem).2 result i rfl
    exact hret.imp_right fun ⟨id, hid⟩ => ⟨id, List.mem_append_left _ hid⟩

namespace OnTime

open Supervisor

/-- A step that keeps the phase and adds no abort and no return. -/
theorem keeps (h : s.OnTime log) (hphase : s'.phase = s.phase) (hbudget : s'.budget = s.budget)
    (hclock : ∀ result since, s.phase = .draining result since →
      s'.clock ≤ since + s.budget.deadline)
    (hes : ∀ e ∈ es, (∀ id i, e ≠ .aborted id i) ∧ (∀ i, e ≠ .cancelled i) ∧
      ∀ result i, e ≠ .returned result i) : s'.OnTime (log ++ es) := by
  have hret : ∀ {result i}, .returned result i ∈ log ++ es → .returned result i ∈ log := by
    intro result i hmem
    rcases List.mem_append.mp hmem with hmem | hmem
    · exact hmem
    · exact absurd rfl ((hes _ hmem).2.2 result i)
  have htimed : ∀ {since}, Timed s.budget.deadline log since →
      Timed s.budget.deadline (log ++ es) since := fun ht =>
    ht.append fun e he => ⟨(hes e he).1, fun result i heq => absurd heq ((hes e he).2.2 result i)⟩
  unfold Supervisor.OnTime at h ⊢
  rw [hphase, hbudget]
  cases hp : s.phase with
  | spawning => rw [hp] at h; exact fun result i hmem => h result i (hret hmem)
  | selecting => rw [hp] at h; exact fun result i hmem => h result i (hret hmem)
  | draining result since =>
      rw [hp] at h
      refine ⟨hclock result since hp, ?_, fun result i hmem => h.2.2 result i (hret hmem)⟩
      intro id i hmem
      rcases List.mem_append.mp hmem with hmem | hmem
      · exact h.2.1 id i hmem
      · exact (hes _ hmem).1 id i rfl
  | aborting result since =>
      rw [hp] at h
      obtain ⟨⟨id, hid⟩, ht⟩ := h
      exact ⟨⟨id, List.mem_append_left _ hid⟩, htimed ht⟩
  | returned result =>
      rw [hp] at h
      obtain ⟨⟨r, i, hin⟩, ht⟩ := h
      refine ⟨⟨r, i, List.mem_append_left _ hin⟩, fun since hmem => ?_⟩
      rcases List.mem_append.mp hmem with hmem | hmem
      · exact htimed (ht since hmem)
      · exact absurd rfl ((hes _ hmem).2.1 since)

/-- The shutdown begins. -/
theorem begins {result : Outcome} (hquiet : Quiet log) (hret : ∀ r i, .returned r i ∉ log)
    (hphase : s'.phase = .draining result s'.clock)
    (hes : ∀ e ∈ es, (∀ id i, e ≠ .aborted id i) ∧ ∀ r i, e ≠ .returned r i) :
    s'.OnTime (log ++ es) := by
  unfold Supervisor.OnTime
  rw [hphase]
  refine ⟨Nat.le_add_right _ _, fun id i hmem => ?_, fun r i hmem => ?_⟩
  · rcases List.mem_append.mp hmem with hmem | hmem
    · exact hquiet.aborted id i hmem
    · exact (hes _ hmem).1 id i rfl
  · rcases List.mem_append.mp hmem with hmem | hmem
    · exact hret r i hmem
    · exact (hes _ hmem).2 r i rfl

/-- Time stops at the deadline until the timeout fires. -/
theorem elapse_le {nanos since : ℕ} {result : Outcome} (hp : s.phase = .draining result since)
    (hle : s.clock ≤ since + s.budget.deadline) (hc : s.prompt (.elapse nanos) = true) :
    s.clock + nanos ≤ since + s.budget.deadline := by
  cases nanos with
  | zero => exact hle
  | succ n =>
      have hbefore := of_decide_eq_true hc n (Nat.lt_succ_self n)
      simp only [due, hp, decide_eq_false_iff_not, not_or] at hbefore
      omega

/-- What was aborted has no place in the set before the timeout. -/
theorem running_of_live (hi : Inv log s) (hnone : ∀ id i, .aborted id i ∉ log) {t : Task}
    (ht : t ∈ s.tasks) (hlive : t.state.live = true) : t.state = .running := by
  have hrec := hi.recorded t ht
  cases hst : t.state with
  | running => rfl
  | aborting =>
      rw [hst] at hrec
      obtain ⟨i, hmem⟩ := hrec
      exact absurd hmem (hnone t.id i)
  | stopped => rw [hst] at hlive; cases hlive
  | ended exit => rw [hst] at hlive; cases hlive

/-- The timeout fires: what runs is aborted now, which is the deadline. -/
theorem expires {result : Outcome} {since : ℕ} (hi : Inv log s)
    (hnone : ∀ id i, .aborted id i ∉ log) (hret : ∀ r i, .returned r i ∉ log)
    (hnow : s.clock = since + s.budget.deadline) (hne : s.tasks ≠ [])
    (hlive : ∀ t ∈ s.tasks, t.state.live = true) :
    ({ s.abortAll with phase := .aborting result since } : Supervisor).OnTime
      (log ++ (.stragglers (s.names.map Prod.snd).mergeSort ::
        s.runningIds.map fun id => .aborted id s.clock)) := by
  obtain ⟨t, ht⟩ := List.exists_mem_of_ne_nil _ hne
  have hrunning := running_of_live hi hnone ht (hlive t ht)
  have hid : t.id ∈ s.runningIds :=
    List.mem_map_of_mem (List.mem_filter.mpr ⟨ht, by simpa using hrunning⟩)
  refine ⟨⟨t.id, ?_⟩, ⟨fun id i hmem => ?_, fun r i hmem => ?_⟩⟩
  · change Event.aborted t.id (since + s.budget.deadline) ∈ _
    rw [← hnow]
    exact List.mem_append_right _ (List.mem_cons_of_mem _ (List.mem_map_of_mem hid))
  · rw [List.mem_append, List.mem_cons] at hmem
    rcases hmem with hmem | hmem | hmem
    · exact absurd hmem (hnone id i)
    · cases hmem
    · obtain ⟨id', -, heq⟩ := List.mem_map.mp hmem
      cases heq
      exact hnow
  · rw [List.mem_append, List.mem_cons] at hmem
    rcases hmem with hmem | hmem | hmem
    · exact absurd hmem (hret r i)
    · cases hmem
    · obtain ⟨id', -, heq⟩ := List.mem_map.mp hmem
      cases heq

/-- `run` returns, by the deadline or after aborts. -/
theorem returns {result : Outcome} {since : ℕ} (hset : Settled s.budget log result since)
    (ht : Timed s.budget.deadline log since)
    (hret : s.clock ≤ since + s.budget.deadline ∨
      ∃ id, .aborted id (since + s.budget.deadline) ∈ log) :
    ({ s with phase := .returned result } : Supervisor).OnTime
      (log ++ [.returned result s.clock]) := by
  refine ⟨⟨result, s.clock, by simp⟩, fun i hmem => ?_⟩
  have hsince : i = since := hset.since_eq (by simpa using hmem)
  subst hsince
  exact ht.append (by simpa using hret)

theorem step (hi : Inv log s) (ho : s.OnTime log) (hc : s.prompt a = true) (h : Took s a s' es) :
    s'.OnTime (log ++ es) := by
  have hclock : ∀ result since, s.phase = .draining result since →
      s.clock ≤ since + s.budget.deadline := by
    intro result since hp
    unfold Supervisor.OnTime at ho
    rw [hp] at ho
    exact ho.1
  have hfits := hi.fits
  unfold Supervisor.Fits at hfits
  cases h with
  | spawn => exact keeps ho rfl rfl hclock (by simp)
  | signal => exact keeps ho rfl rfl hclock (by simp)
  | ends => exact keeps ho rfl rfl hclock (by simp)
  | stops => exact keeps ho rfl rfl hclock (by simp)
  | join => exact keeps ho rfl rfl hclock (by simp)
  | reap => exact keeps ho rfl rfl hclock (by simp)
  | elapse nanos =>
      exact keeps ho rfl rfl (fun result since hp => elapse_le hp (hclock result since hp) hc)
        (by simp)
  | empty hp =>
      rw [hp] at hfits
      refine ⟨⟨.ok (), s.clock, by simp⟩, fun since hmem => ?_⟩
      have hin : since ∈ log.filterMap Event.cancelled? :=
        List.mem_filterMap.mpr ⟨.cancelled since, by simpa using hmem, rfl⟩
      rw [hfits.2.1.cancelled] at hin
      cases hin
  | run hp =>
      unfold Supervisor.OnTime at ho
      rw [hp] at ho
      simpa [Supervisor.OnTime] using ho
  | receive hp =>
      unfold Supervisor.OnTime at ho
      rw [hp] at ho hfits
      exact begins hfits.2 ho rfl (by simp)
  | joinFirst hp =>
      unfold Supervisor.OnTime at ho
      rw [hp] at ho hfits
      exact begins hfits.2 ho rfl (by simp)
  | @drained result since hp =>
      unfold Supervisor.OnTime at ho
      rw [hp] at ho hfits
      exact returns hfits.2 ⟨fun id i hmem => absurd hmem (ho.2.1 id i),
        fun r i hmem => absurd hmem (ho.2.2 r i)⟩ (.inl ho.1)
  | @expire result since hp hne hle =>
      unfold Supervisor.OnTime at ho
      rw [hp] at ho
      exact expires hi ho.2.1 ho.2.2 (Nat.le_antisymm ho.1 hle) hne (List.all_eq_true.mp hc)
  | @stopped result since hp =>
      unfold Supervisor.OnTime at ho
      rw [hp] at ho hfits
      exact returns hfits.2 ho.2 (.inr ho.1)

/-- A supervisor whose shutdown can go on has a step of its own. -/
theorem steps_of_due (hi : Inv log s) (ho : s.OnTime log) (hdue : s.due s.clock = true) :
    ∃ a : Action, a.own = true ∧ s.prompt a = true ∧ (s.step a).isSome = true := by
  unfold Supervisor.OnTime at ho
  unfold Supervisor.due at hdue
  cases hp : s.phase with
  | spawning => rw [hp] at hdue; cases hdue
  | selecting => rw [hp] at hdue; cases hdue
  | returned result => rw [hp] at hdue; cases hdue
  | aborting result since =>
      rw [hp, decide_eq_true_eq] at hdue
      exact ⟨.stopped, rfl, rfl, by simp [Supervisor.step, hp, hdue]⟩
  | draining result since =>
      rw [hp] at ho
      rw [hp, decide_eq_true_eq] at hdue
      by_cases hempty : s.tasks = []
      · exact ⟨.drained, rfl, rfl, by simp [Supervisor.step, hp, hempty]⟩
      · have hlate := hdue.resolve_left hempty
        by_cases hlive : ∀ t ∈ s.tasks, t.state.live = true
        · exact ⟨.expire, rfl, List.all_eq_true.mpr hlive,
            by simp [Supervisor.step, hp, hempty, hlate]⟩
        · push Not at hlive
          obtain ⟨t, ht, hdead⟩ := hlive
          have hrec := hi.recorded t ht
          cases hst : t.state with
          | running => rw [hst] at hdead; exact absurd rfl hdead
          | aborting => rw [hst] at hdead; exact absurd rfl hdead
          | stopped =>
              rw [hst] at hrec
              obtain ⟨i, hmem⟩ := hrec
              exact absurd hmem (ho.2.1 t.id i)
          | ended exit =>
              have hholds : s.holds t.id (· == .ended exit) = true :=
                List.any_eq_true.mpr ⟨t, ht, by simp [hst]⟩
              exact ⟨.join t.id exit, rfl, rfl, by simp [Supervisor.step, hp, hholds]⟩

theorem of_run (h : SupervisorRun budget (fun s a => s.prompt a = true) log s) :
    s.OnTime log := by
  have hboth : Inv log s ∧ s.OnTime log := by
    refine h.invariant (I := fun log s => Inv log s ∧ s.OnTime log) ⟨.init budget, ?_⟩ ?_
    · simp [Supervisor.new, Supervisor.OnTime]
    · intro log s a s' es _ hi hprompt hs
      have htook := step_took hs
      exact ⟨hi.1.step htook, step hi.1 hi.2 hprompt htook⟩
  exact hboth.2

/-- After the cancellation nothing is out of time, and past the deadline `run` has returned
or aborted. -/
theorem timed {since : ℕ} (hi : Inv log s) (ho : s.OnTime log) (hc : .cancelled since ∈ log) :
    Timed s.budget.deadline log since ∧ (since + s.budget.deadline < s.clock →
      (∃ result i, .returned result i ∈ log) ∨
        ∃ id, .aborted id (since + s.budget.deadline) ∈ log) := by
  have hfits := hi.fits
  have hin : since ∈ log.filterMap Event.cancelled? := List.mem_filterMap.mpr ⟨_, hc, rfl⟩
  unfold Supervisor.Fits at hfits
  unfold Supervisor.OnTime at ho
  cases hp : s.phase with
  | spawning =>
      rw [hp] at hfits
      rw [hfits.2.1.cancelled] at hin
      cases hin
  | selecting =>
      rw [hp] at hfits
      rw [hfits.2.cancelled] at hin
      cases hin
  | draining result since' =>
      rw [hp] at ho hfits
      obtain rfl := hfits.2.since_eq hc
      refine ⟨⟨fun id i hmem => absurd hmem (ho.2.1 id i), fun r i hmem => absurd hmem (ho.2.2 r i)⟩,
        fun hpast => ?_⟩
      exact absurd ho.1 (Nat.not_le_of_lt hpast)
  | aborting result since' =>
      rw [hp] at ho hfits
      obtain rfl := hfits.2.since_eq hc
      exact ⟨ho.2, fun _ => .inr ho.1⟩
  | returned result =>
      rw [hp] at ho
      exact ⟨ho.2 since hc, fun _ => .inl ho.1⟩

end OnTime

/-- A supervisor that is polled in time aborts nothing before or after the deadline, and
returns by the deadline unless it has to abort something. Past the deadline it has done one
or the other, and time waits only for a step that it can take. -/
theorem shutdown_on_time {since : ℕ}
    (h : SupervisorRun budget (fun s a => s.prompt a = true) log s)
    (hc : .cancelled since ∈ log) :
    (∀ id i, .aborted id i ∈ log → i = since + budget.deadline) ∧
      (∀ result i, .returned result i ∈ log → i ≤ since + budget.deadline ∨
        ∃ id, .aborted id (since + budget.deadline) ∈ log) ∧
      (since + budget.deadline < s.clock → (∃ result i, .returned result i ∈ log) ∨
        ∃ id, .aborted id (since + budget.deadline) ∈ log) ∧
      (s.due s.clock = true →
        ∃ a : Action, a.own = true ∧ s.prompt a = true ∧ (s.step a).isSome = true) := by
  have hi := Inv.of_run h
  have ho := OnTime.of_run h
  have hbudget := budget_of_run h
  subst hbudget
  obtain ⟨ht, hpast⟩ := OnTime.timed hi ho hc
  exact ⟨ht.aborted, ht.returned, hpast, OnTime.steps_of_due hi ho⟩

/-- The deadline passes with the server still running. -/
theorem shutdown_on_time_stuck : ∃ (log : List Event) (s : Supervisor),
    SupervisorRun shortBudget (fun s a => s.prompt a = true) log s ∧ .cancelled 4 ∈ log ∧
      4 + shortBudget.deadline < s.clock ∧
      (∀ id i, .aborted id i ∈ log → i = 4 + shortBudget.deadline) ∧
      (∀ result i, .returned result i ∈ log → i ≤ 4 + shortBudget.deadline ∨
        ∃ id, .aborted id (4 + shortBudget.deadline) ∈ log) ∧
      ((∃ result i, .returned result i ∈ log) ∨
        ∃ id, .aborted id (4 + shortBudget.deadline) ∈ log) := by
  obtain ⟨log, s, hrun, hp⟩ := exists_run Supervisor.step Supervisor.prompt (.new shortBudget)
    (stuckServer ++ [.elapse 1]) (fun log s => s.clock == 13 && log.any fun e => match e with
      | .cancelled i => i == 4
      | _ => false) (by decide)
  rw [Bool.and_eq_true, beq_iff_eq] at hp
  obtain ⟨hclock, hany⟩ := hp
  obtain ⟨e, he, htest⟩ := List.any_eq_true.mp hany
  have hc : .cancelled 4 ∈ log := by
    cases e with
    | cancelled i => rw [beq_iff_eq] at htest; exact htest ▸ he
    | _ => cases htest
  have hpast : 4 + shortBudget.deadline < s.clock := by
    rw [hclock]
    decide
  obtain ⟨haborted, hreturned, hdone, -⟩ := shutdown_on_time hrun hc
  exact ⟨log, s, hrun, hc, hpast, haborted, hreturned, hdone hpast⟩

end Cja.Tasks
