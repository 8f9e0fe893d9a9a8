import Cja.Lib.StepRun

/-!
# Refreshing secrets

A refresh goes through the tracked secrets one after the other: it reads the
version it knows, asks the server for another one, parses what comes, replaces
the value, stores the version and notes the time. Any number of refreshes may be
at work on the same entries, since the clones of a `Refresher` share them.
-/
namespace Cja.Secret

/-! ## The client -/

inductive SetecError
  | notFound
  | accessDenied
  | versionClaimed
  | invalidRequest (body : String)
  | server (status : ℕ) (body : String)
  | transport (text : String)
  | decode (text : String)
deriving Repr, DecidableEq

structure SecretValue where
  value : List UInt8
  version : ℕ
deriving Repr, DecidableEq

/-- `value` is what the base64 text decodes to, or what is wrong with it. -/
structure RawSecretValue where
  value : Except String (List UInt8)
  version : ℕ

inductive Response
  /-- Dial, TLS, HTTP or the timeout. -/
  | unreachable (text : String)
  /-- `json` is what the body reads as, or what is wrong with it. -/
  | answer (status : ℕ) (body : String) (json : Except String RawSecretValue)

def RawSecretValue.decode (raw : RawSecretValue) : Except SetecError SecretValue :=
  match raw.value with
  | .ok bytes => .ok ⟨bytes, raw.version⟩
  | .error e => .error (.decode ("secret value is not base64: " ++ e))

/-- `Client::get_if_changed` -/
def getIfChanged : Response → Except SetecError (Option SecretValue)
  | .unreachable text => .error (.transport text)
  | .answer status body json =>
      if status = 304 then .ok none
      else if status < 200 ∨ 300 ≤ status then
        .error (match status with
          | 404 => .notFound
          | 403 => .accessDenied
          | 412 => .versionClaimed
          | 400 => .invalidRequest body
          | _ => .server status body)
      else
        match json with
        | .error e => .error (.decode ("get: " ++ e))
        | .ok raw => raw.decode.map some

/-! ## The entries -/

inductive Error
  | setec (name : String) (source : SetecError)
  | parse (name : String) (version : ℕ) (source : String)
deriving Repr, DecidableEq

structure Entry (V : Type) where
  value : V
  version : ℕ
  checkedAt : ℕ
deriving Repr, DecidableEq

/-- The secrets of a store, by position. `content` are the bytes of a version: the server
never gives the number of a version to other bytes. -/
structure Store (V : Type) where
  tracked : List String
  fromSecret : ℕ → List UInt8 → Except String V
  content : String → ℕ → List UInt8

variable {V : Type}

def Store.name (S : Store V) (i : ℕ) : String := S.tracked.getD i ""

def Store.parse (S : Store V) (i : ℕ) (value : SecretValue) : Except Error V :=
  match S.fromSecret i value.value with
  | .ok v => .ok v
  | .error e => .error (.parse (S.name i) value.version e)

/-! ## A refresh -/

inductive Phase
  | reading
  | requesting (known : ℕ)
  | applying (value : SecretValue)
  /-- The value is replaced. -/
  | storing (version : ℕ)
  | marking
  | returned
deriving Repr, DecidableEq

/-- A call of `refresh`, with the activations that the server had seen when it began. -/
structure Call where
  began : ℕ
  index : ℕ
  phase : Phase
  failures : List Error
deriving Repr, DecidableEq

/-- `Err` is the error `Refresh` with the failures. -/
def Call.result (call : Call) : Except (List Error) Unit :=
  if call.failures.isEmpty then .ok () else .error call.failures

structure State (V : Type) where
  active : String → Option ℕ
  /-- The number of activations, and the last one of a secret. -/
  clock : ℕ
  activated : String → ℕ
  entries : ℕ → Entry V
  calls : ℕ → Option Call

/-- What `load` leaves: every entry holds the parsed bytes of its version. -/
structure Boot (S : Store V) where
  active : String → Option ℕ
  entries : ℕ → Entry V
  parsed : ∀ i, i < S.tracked.length →
    S.fromSecret i (S.content (S.name i) (entries i).version) = .ok (entries i).value

def State.init {S : Store V} (b : Boot S) : State V :=
  ⟨b.active, 0, fun _ => 0, b.entries, fun _ => none⟩

/-- What a refresh does to an entry. -/
inductive Event (V : Type)
  | answered (c i : ℕ) (response : Except SetecError (Option SecretValue))
  | wrote (c i : ℕ) (value : V)
  | stored (c i : ℕ) (version : ℕ)
  | checked (c i : ℕ) (now : ℕ)
  | failed (c i : ℕ) (error : Error)

def Event.call : Event V → ℕ
  | .answered c .. | .wrote c .. | .stored c .. | .checked c .. | .failed c .. => c

def Event.index : Event V → ℕ
  | .answered _ i _ | .wrote _ i _ | .stored _ i _ | .checked _ i _ | .failed _ i _ => i

/-- The server answers with the active version, or that it is the known one. -/
def State.respond (S : Store V) (s : State V) (name : String) (known : ℕ) : Response :=
  match s.active name with
  | none => .answer 404 "not found" (.error "no secret")
  | some version =>
      if version = known then .answer 304 "" (.error "no body")
      else .answer 200 "" (.ok ⟨.ok (S.content name version), version⟩)

def State.setCall (s : State V) (c : ℕ) (call : Call) : State V :=
  { s with calls := Function.update s.calls c (some call) }

def State.setEntry (s : State V) (i : ℕ) (entry : Entry V) : State V :=
  { s with entries := Function.update s.entries i entry }

/-- The head of the loop. -/
def Store.enter (S : Store V) (call : Call) (index : ℕ) : Call :=
  { call with
    index := index
    phase := if index < S.tracked.length then .reading else .returned }

/-- The loop goes on behind an entry that failed. -/
def Store.skip (S : Store V) (call : Call) (error : Error) : Call :=
  S.enter { call with failures := call.failures ++ [error] } (call.index + 1)

inductive Action
  | activate (name : String) (version : ℕ)
  | begin (c : ℕ)
  | read (c : ℕ)
  /-- The server handles the request, or it fails with this response. -/
  | request (c : ℕ) (failure : Option Response)
  | apply (c : ℕ)
  | store (c : ℕ)
  | mark (c : ℕ) (now : ℕ)

/-- The response to a request; a failure is not one that the client takes for an answer. -/
def State.response (S : Store V) (s : State V) (name : String) (known : ℕ) :
    Option Response → Option (Except SetecError (Option SecretValue))
  | none => some (getIfChanged (s.respond S name known))
  | some failure =>
      match getIfChanged failure with
      | .error e => some (.error e)
      | .ok _ => none

def advance (S : Store V) (s : State V) (c : ℕ) (call : Call) :
    Action → Option (State V × List (Event V))
  | .read _ =>
      match call.phase with
      | .reading =>
          some (s.setCall c
            { call with phase := .requesting (s.entries call.index).version }, [])
      | _ => none
  | .request _ failure =>
      match call.phase with
      | .requesting known =>
          match s.response S (S.name call.index) known failure with
          | none => none
          | some (.error e) =>
              let error := Error.setec (S.name call.index) e
              some (s.setCall c (S.skip call error),
                [.answered c call.index (.error e), .failed c call.index error])
          | some (.ok none) =>
              some (s.setCall c { call with phase := .marking },
                [.answered c call.index (.ok none)])
          | some (.ok (some value)) =>
              some (s.setCall c { call with phase := .applying value },
                [.answered c call.index (.ok (some value))])
      | _ => none
  | .apply _ =>
      match call.phase with
      | .applying value =>
          match S.parse call.index value with
          | .error error =>
              some (s.setCall c (S.skip call error), [.failed c call.index error])
          | .ok v =>
              some ((s.setEntry call.index { s.entries call.index with value := v }).setCall c
                { call with phase := .storing value.version }, [.wrote c call.index v])
      | _ => none
  | .store _ =>
      match call.phase with
      | .storing version =>
          some ((s.setEntry call.index
              { s.entries call.index with version := version }).setCall c
            { call with phase := .marking }, [.stored c call.index version])
      | _ => none
  | .mark _ now =>
      match call.phase with
      | .marking =>
          some ((s.setEntry call.index
              { s.entries call.index with checkedAt := now }).setCall c
            (S.enter call (call.index + 1)), [.checked c call.index now])
      | _ => none
  | _ => none

/-- The refresh that takes the step. -/
def Action.call : Action → Option ℕ
  | .read c | .request c _ | .apply c | .store c | .mark c _ => some c
  | _ => none

def step (S : Store V) (s : State V) (a : Action) : Option (State V × List (Event V)) :=
  match a with
  | .activate name version =>
      some ({ s with
        active := Function.update s.active name (some version)
        clock := s.clock + 1
        activated := Function.update s.activated name (s.clock + 1) }, [])
  | .begin c =>
      match s.calls c with
      | none => some (s.setCall c (S.enter ⟨s.clock, 0, .reading, []⟩ 0), [])
      | some _ => none
  | a =>
      (a.call).bind fun c => (s.calls c).bind fun call => advance S s c call a

/-! ## Convergence -/

def eventsOf (c i : ℕ) (log : List (Event V)) : List (Event V) :=
  log.filter fun e => e.call == c && e.index == i

def Entry.apply (entry : Entry V) : Event V → Entry V
  | .wrote _ _ value => { entry with value := value }
  | .stored _ _ version => { entry with version := version }
  | .checked _ _ now => { entry with checkedAt := now }
  | _ => entry

def failuresOf (c : ℕ) (log : List (Event V)) : List Error :=
  log.filterMap fun
    | .failed c' _ error => if c' = c then some error else none
    | _ => none

/-- What a refresh does to one entry, by the response it gets. -/
inductive Handled (S : Store V) (c i : ℕ) : List (Event V) → Prop
  | refused {e : SetecError} :
      Handled S c i [.answered c i (.error e), .failed c i (.setec (S.name i) e)]
  | unchanged {now : ℕ} : Handled S c i [.answered c i (.ok none), .checked c i now]
  | unparsed {value : SecretValue} {error : Error} : S.parse i value = .error error →
      Handled S c i [.answered c i (.ok (some value)), .failed c i error]
  | rotated {value : SecretValue} {v : V} {now : ℕ} : S.parse i value = .ok v →
      Handled S c i [.answered c i (.ok (some value)), .wrote c i v,
        .stored c i value.version, .checked c i now]

/-- No refresh is in progress. -/
def State.Quiet (s : State V) : Prop :=
  ∀ c call, s.calls c = some call → call.phase = .returned

/-- The value of an entry is the parse of the bytes of this version. -/
def Store.Parsed (S : Store V) (s : State V) (i version : ℕ) : Prop :=
  S.fromSecret i (S.content (S.name i) version) = .ok (s.entries i).value

structure Convergent (S : Store V) (b : Boot S) (log : List (Event V)) (s : State V) : Prop where
  parsed : s.Quiet → ∀ i, i < S.tracked.length → S.Parsed s i (s.entries i).version
  /-- After a refresh that began behind the last activation of a secret. -/
  active : s.Quiet → ∀ c call, s.calls c = some call → call.result = .ok () →
    ∀ i, i < S.tracked.length → s.activated (S.name i) ≤ call.began →
      s.active (S.name i) = some (s.entries i).version
  /-- An entry changes by what the refreshes did to it. -/
  accounted : ∀ i, s.entries i =
    (log.filter fun e => e.index == i).foldl Entry.apply (b.entries i)
  /-- A refresh that fails for an entry does nothing else to it. -/
  kept : ∀ c i error, .failed c i error ∈ log →
    ∃ response, eventsOf c i log = [.answered c i response, .failed c i error]
  /-- A refresh that returned went through every entry by its own response. -/
  handled : ∀ c call, s.calls c = some call → call.phase = .returned →
    ∀ i, i < S.tracked.length → Handled S c i (eventsOf c i log)
  failures : ∀ c call, s.calls c = some call → call.failures = failuresOf c log

abbrev RefreshRun (S : Store V) (b : Boot S) (C : State V → Action → Prop) :
    List (Event V) → State V → Prop :=
  StepRun.Run (step S) C (State.init b)

/-- A refresh, without failures so far, that began behind the last activation of the
secret and has found the entry to hold the active version, or stored it. -/
structure Confirmed (S : Store V) (s : State V) (call : Call) (i : ℕ) : Prop where
  began : s.activated (S.name i) ≤ call.began
  failures : call.failures = []
  passed : i < call.index ∨ (call.index = i ∧
    (call.phase = .marking ∨
      ∃ known, call.phase = .requesting known ∧ s.active (S.name i) = some known))

/-- A version is stored while the value is that of the version, or of one that another
refresh has still to store; and while the version is active, or no refresh has confirmed
the entry since the activation. -/
structure Settled (S : Store V) (s : State V) (c i version : ℕ) : Prop where
  parsed : S.Parsed s i version ∨ ∃ c' call' version', c' ≠ c ∧ s.calls c' = some call' ∧
    call'.index = i ∧ call'.phase = .storing version' ∧ S.Parsed s i version'
  active : s.active (S.name i) = some version ∨
    ∀ c' call', s.calls c' = some call' → ¬ Confirmed S s call' i

def Orderly (S : Store V) (s : State V) : Action → Prop
  | .store c => ∀ call version, s.calls c = some call → call.phase = .storing version →
      Settled S s c call.index version
  | _ => True

/-! ## What a step does -/

/-- What a step does to the refresh that takes it and to its entry. -/
inductive CallStep (S : Store V) (s : State V) (c : ℕ) (call : Call) :
    Call → Entry V → List (Event V) → Prop
  | read (hphase : call.phase = .reading) :
      CallStep S s c call { call with phase := .requesting (s.entries call.index).version }
        (s.entries call.index) []
  | refused {known : ℕ} {e : SetecError} (hphase : call.phase = .requesting known) :
      CallStep S s c call (S.skip call (.setec (S.name call.index) e)) (s.entries call.index)
        [.answered c call.index (.error e), .failed c call.index (.setec (S.name call.index) e)]
  | unchanged {known : ℕ} (hphase : call.phase = .requesting known)
      (hactive : s.active (S.name call.index) = some known) :
      CallStep S s c call { call with phase := .marking } (s.entries call.index)
        [.answered c call.index (.ok none)]
  | changed {known : ℕ} {value : SecretValue} (hphase : call.phase = .requesting known)
      (hactive : s.active (S.name call.index) = some value.version)
      (hvalue : value.value = S.content (S.name call.index) value.version) :
      CallStep S s c call { call with phase := .applying value } (s.entries call.index)
        [.answered c call.index (.ok (some value))]
  | unparsed {value : SecretValue} {error : Error} (hphase : call.phase = .applying value)
      (hparse : S.parse call.index value = .error error) :
      CallStep S s c call (S.skip call error) (s.entries call.index) [.failed c call.index error]
  | wrote {value : SecretValue} {v : V} (hphase : call.phase = .applying value)
      (hparse : S.parse call.index value = .ok v) :
      CallStep S s c call { call with phase := .storing value.version }
        { s.entries call.index with value := v } [.wrote c call.index v]
  | stored {version : ℕ} (hphase : call.phase = .storing version) :
      CallStep S s c call { call with phase := .marking }
        { s.entries call.index with version := version } [.stored c call.index version]
  | marked {now : ℕ} (hphase : call.phase = .marking) :
      CallStep S s c call (S.enter call (call.index + 1))
        { s.entries call.index with checkedAt := now } [.checked c call.index now]

inductive Stepped (S : Store V) (s : State V) (a : Action) : State V → List (Event V) → Prop
  | activated {name : String} {version : ℕ} :
      Stepped S s a { s with
        active := Function.update s.active name (some version)
        clock := s.clock + 1
        activated := Function.update s.activated name (s.clock + 1) } []
  | began {c : ℕ} (ha : a = .begin c) (hcall : s.calls c = none) :
      Stepped S s a (s.setCall c (S.enter ⟨s.clock, 0, .reading, []⟩ 0)) []
  | advanced {c : ℕ} {call call' : Call} {entry : Entry V} {es : List (Event V)}
      (hcall : s.calls c = some call) (hstep : CallStep S s c call call' entry es)
      (hstore : ∀ version, call.phase = .storing version → a = .store c) :
      Stepped S s a ((s.setEntry call.index entry).setCall c call') es

section

variable {S : Store V} {b : Boot S} {s s' : State V} {c i : ℕ} {call call' : Call}
variable {entry : Entry V} {log es : List (Event V)} {a : Action} {name : String} {known : ℕ}

theorem getIfChanged_respond {response : Except SetecError (Option SecretValue)}
    (h : getIfChanged (s.respond S name known) = response) :
    (∃ e, response = .error e) ∨ (response = .ok none ∧ s.active name = some known) ∨
      ∃ value, response = .ok (some value) ∧ s.active name = some value.version ∧
        value.value = S.content name value.version := by
  subst h
  unfold State.respond
  cases hactive : s.active name with
  | none => exact Or.inl ⟨.notFound, rfl⟩
  | some version =>
      dsimp only
      split
      · rename_i heq
        exact Or.inr (Or.inl ⟨rfl, congrArg some heq⟩)
      · exact Or.inr (Or.inr ⟨⟨S.content name version, version⟩, rfl, rfl, rfl⟩)

theorem setEntry_self : s.setEntry i (s.entries i) = s := by
  rw [State.setEntry, Function.update_eq_self]

/-- A step that leaves the entry. -/
theorem Stepped.still (hcall : s.calls c = some call)
    (hstep : CallStep S s c call call' (s.entries call.index) es)
    (hstore : ∀ version, call.phase = .storing version → a = .store c) :
    Stepped S s a (s.setCall c call') es := by
  have h := Stepped.advanced hcall hstep hstore
  rwa [setEntry_self] at h

theorem advance_stepped (hcall : s.calls c = some call) (ha : a.call = some c)
    (h : advance S s c call a = some (s', es)) : Stepped S s a s' es := by
  cases a with
  | activate name version => cases h
  | begin c' => cases h
  | read c' =>
      simp only [advance] at h
      split at h
      · rename_i hphase
        simp only [Option.some.injEq, Prod.mk.injEq] at h
        obtain ⟨rfl, rfl⟩ := h
        exact Stepped.still hcall (CallStep.read hphase) fun version => by simp [hphase]
      · cases h
  | request c' failure =>
      simp only [advance] at h
      split at h
      · rename_i known hphase
        cases hresponse : s.response S (S.name call.index) known failure with
        | none =>
            rw [hresponse] at h
            cases h
        | some response =>
            rw [hresponse] at h
            have hanswer : (∃ e, response = .error e) ∨
                (response = .ok none ∧ s.active (S.name call.index) = some known) ∨
                ∃ value, response = .ok (some value) ∧
                  s.active (S.name call.index) = some value.version ∧
                  value.value = S.content (S.name call.index) value.version := by
              cases failure with
              | none => exact getIfChanged_respond (Option.some.inj hresponse)
              | some failure =>
                  simp only [State.response] at hresponse
                  split at hresponse
                  · rename_i e he
                    exact Or.inl ⟨e, (Option.some.inj hresponse).symm⟩
                  · cases hresponse
            obtain ⟨e, rfl⟩ | ⟨rfl, hactive⟩ | ⟨value, rfl, hactive, hvalue⟩ := hanswer
            · simp only [Option.some.injEq, Prod.mk.injEq] at h
              obtain ⟨rfl, rfl⟩ := h
              exact Stepped.still hcall (CallStep.refused (e := e) hphase) fun version => by simp [hphase]
            · simp only [Option.some.injEq, Prod.mk.injEq] at h
              obtain ⟨rfl, rfl⟩ := h
              exact Stepped.still hcall (CallStep.unchanged hphase hactive) fun version => by simp [hphase]
            · simp only [Option.some.injEq, Prod.mk.injEq] at h
              obtain ⟨rfl, rfl⟩ := h
              exact Stepped.still hcall (CallStep.changed hphase hactive hvalue) fun version => by simp [hphase]
      · cases h
  | apply c' =>
      simp only [advance] at h
      split at h
      · rename_i value hphase
        split at h
        · rename_i error hparse
          simp only [Option.some.injEq, Prod.mk.injEq] at h
          obtain ⟨rfl, rfl⟩ := h
          exact Stepped.still hcall (CallStep.unparsed hphase hparse) fun version => by simp [hphase]
        · rename_i v hparse
          simp only [Option.some.injEq, Prod.mk.injEq] at h
          obtain ⟨rfl, rfl⟩ := h
          exact Stepped.advanced hcall (CallStep.wrote hphase hparse)
            (fun version => by simp [hphase])
      · cases h
  | store c' =>
      simp only [advance] at h
      split at h
      · rename_i version hphase
        simp only [Option.some.injEq, Prod.mk.injEq] at h
        obtain ⟨rfl, rfl⟩ := h
        exact Stepped.advanced hcall (CallStep.stored hphase) fun _ _ => by cases ha; rfl
      · cases h
  | mark c' now =>
      simp only [advance] at h
      split at h
      · rename_i hphase
        simp only [Option.some.injEq, Prod.mk.injEq] at h
        obtain ⟨rfl, rfl⟩ := h
        exact Stepped.advanced hcall (CallStep.marked hphase)
          (fun version => by simp [hphase])
      · cases h

theorem step_stepped (h : step S s a = some (s', es)) : Stepped S s a s' es := by
  cases a with
  | activate name version =>
      simp only [step, Option.some.injEq, Prod.mk.injEq] at h
      obtain ⟨rfl, rfl⟩ := h
      exact Stepped.activated
  | begin c =>
      simp only [step] at h
      split at h
      · rename_i hcall
        simp only [Option.some.injEq, Prod.mk.injEq] at h
        obtain ⟨rfl, rfl⟩ := h
        exact Stepped.began rfl hcall
      · cases h
  | _ =>
      obtain ⟨call, hcall, h⟩ := Option.bind_eq_some_iff.1 h
      exact advance_stepped hcall rfl h

/-! ## The account of a refresh -/

/-- What a refresh did so far to the entry at hand. -/
inductive Pending (S : Store V) (c i : ℕ) : Phase → List (Event V) → Prop
  | reading : Pending S c i .reading []
  | requesting {known : ℕ} : Pending S c i (.requesting known) []
  | applying {value : SecretValue} :
      Pending S c i (.applying value) [.answered c i (.ok (some value))]
  | storing {value : SecretValue} {v : V} (hparse : S.parse i value = .ok v) :
      Pending S c i (.storing value.version)
        [.answered c i (.ok (some value)), .wrote c i v]
  | unchanged : Pending S c i .marking [.answered c i (.ok none)]
  | rotated {value : SecretValue} {v : V} (hparse : S.parse i value = .ok v) :
      Pending S c i .marking [.answered c i (.ok (some value)), .wrote c i v,
        .stored c i value.version]
  | returned : Pending S c i .returned []

/-- The events of a refresh, entry by entry. -/
structure Account (S : Store V) (c : ℕ) (call : Call) (log : List (Event V)) : Prop where
  below : ∀ i, i < call.index → Handled S c i (eventsOf c i log)
  here : Pending S c call.index call.phase (eventsOf c call.index log)
  above : ∀ i, call.index < i → eventsOf c i log = []
  returned : call.phase = .returned → S.tracked.length ≤ call.index
  failures : call.failures = failuresOf c log

theorem eventsOf_append : eventsOf c i (log ++ es) = eventsOf c i log ++ eventsOf c i es :=
  List.filter_append ..

theorem failuresOf_append : failuresOf c (log ++ es) = failuresOf c log ++ failuresOf c es :=
  List.filterMap_append ..

theorem eventsOf_own (h : ∀ e ∈ es, e.call = c ∧ e.index = i) : eventsOf c i es = es := by
  rw [eventsOf, List.filter_eq_self]
  intro e he
  simp [h e he]

theorem eventsOf_other {i' : ℕ} (h : ∀ e ∈ es, e.call = c ∧ e.index = i) (hne : i' ≠ i) :
    eventsOf c i' es = [] := by
  rw [eventsOf, List.filter_eq_nil_iff]
  intro e he hmem
  simp only [Bool.and_eq_true, beq_iff_eq] at hmem
  exact hne (hmem.2.symm.trans (h e he).2)

theorem CallStep.own (h : CallStep S s c call call' entry es) :
    ∀ e ∈ es, e.call = c ∧ e.index = call.index := by
  cases h <;> simp [Event.call, Event.index]

/-- The refresh stays at its entry. -/
theorem Account.stay (h : Account S c call log)
    (hes : ∀ e ∈ es, e.call = c ∧ e.index = call.index) (hindex : call'.index = call.index)
    (hhere : Pending S c call.index call'.phase (eventsOf c call.index log ++ es))
    (hreturned : call'.phase ≠ .returned)
    (hfailures : call'.failures = call.failures ++ failuresOf c es) :
    Account S c call' (log ++ es) := by
  have hother : ∀ i, i ≠ call.index → eventsOf c i (log ++ es) = eventsOf c i log := by
    intro i hne
    rw [eventsOf_append, eventsOf_other hes hne, List.append_nil]
  constructor
  · intro i hi
    rw [hindex] at hi
    rw [hother i hi.ne]
    exact h.below i hi
  · rw [hindex, eventsOf_append, eventsOf_own hes]
    exact hhere
  · intro i hi
    rw [hindex] at hi
    rw [hother i hi.ne']
    exact h.above i hi
  · intro hphase
    exact absurd hphase hreturned
  · rw [failuresOf_append, hfailures, h.failures]

/-- The entry at hand is handled, and the refresh goes to the next one. -/
theorem Account.pass {call₀ : Call} (h : Account S c call log)
    (hes : ∀ e ∈ es, e.call = c ∧ e.index = call.index)
    (hhere : Handled S c call.index (eventsOf c call.index log ++ es))
    (hfailures : call₀.failures = call.failures ++ failuresOf c es) :
    Account S c (S.enter call₀ (call.index + 1)) (log ++ es) := by
  have hother : ∀ i, i ≠ call.index → eventsOf c i (log ++ es) = eventsOf c i log := by
    intro i hne
    rw [eventsOf_append, eventsOf_other hes hne, List.append_nil]
  have hnext : eventsOf c (call.index + 1) (log ++ es) = [] := by
    rw [hother _ (Nat.succ_ne_self _), h.above _ (Nat.lt_succ_self _)]
  constructor
  · intro i hi
    obtain hlt | heq := Nat.lt_succ_iff_lt_or_eq.1 hi
    · rw [hother i hlt.ne]
      exact h.below i hlt
    · rw [heq, eventsOf_append, eventsOf_own hes]
      exact hhere
  · change Pending S c (call.index + 1) _ (eventsOf c (call.index + 1) (log ++ es))
    rw [hnext, Store.enter]
    split
    · exact Pending.reading
    · exact Pending.returned
  · intro i hi
    have hlt : call.index < i := Nat.lt_of_succ_lt hi
    rw [hother i hlt.ne', h.above i hlt]
  · intro hphase
    simp only [Store.enter] at hphase
    split at hphase
    · cases hphase
    · rename_i hend
      exact not_lt.1 hend
  · rw [failuresOf_append, ← h.failures]
    exact hfailures

theorem Account.step (h : Account S c call log) (hs : CallStep S s c call call' entry es) :
    Account S c call' (log ++ es) := by
  have hown := hs.own
  have hhere := h.here
  generalize hevents : eventsOf c call.index log = events at hhere
  cases hs with
  | read hphase =>
      rw [hphase] at hhere
      cases hhere
      refine h.stay hown rfl ?_ (by simp) (by simp [failuresOf])
      rw [hevents]
      exact Pending.requesting
  | refused hphase =>
      rw [hphase] at hhere
      cases hhere
      refine h.pass hown ?_ (by simp [failuresOf])
      rw [hevents]
      exact Handled.refused
  | unchanged hphase hactive =>
      rw [hphase] at hhere
      cases hhere
      refine h.stay hown rfl ?_ (by simp) (by simp [failuresOf])
      rw [hevents]
      exact Pending.unchanged
  | changed hphase hactive hvalue =>
      rw [hphase] at hhere
      cases hhere
      refine h.stay hown rfl ?_ (by simp) (by simp [failuresOf])
      rw [hevents]
      exact Pending.applying
  | unparsed hphase hparse =>
      rw [hphase] at hhere
      cases hhere
      refine h.pass hown ?_ (by simp [failuresOf])
      rw [hevents]
      exact Handled.unparsed hparse
  | wrote hphase hparse =>
      rw [hphase] at hhere
      cases hhere
      refine h.stay hown rfl ?_ (by simp) (by simp [failuresOf])
      rw [hevents]
      exact Pending.storing hparse
  | stored hphase =>
      rw [hphase] at hhere
      cases hhere with
      | storing hparse =>
          refine h.stay hown rfl ?_ (by simp) (by simp [failuresOf])
          rw [hevents]
          exact Pending.rotated hparse
  | marked hphase =>
      rw [hphase] at hhere
      cases hhere with
      | unchanged =>
          refine h.pass hown ?_ (by simp [failuresOf])
          rw [hevents]
          exact Handled.unchanged
      | rotated hparse =>
          refine h.pass hown ?_ (by simp [failuresOf])
          rw [hevents]
          exact Handled.rotated hparse

theorem eventsOf_call {c' : ℕ} (h : ∀ e ∈ es, e.call = c) (hne : c' ≠ c) :
    eventsOf c' i es = [] := by
  rw [eventsOf, List.filter_eq_nil_iff]
  intro e he hmem
  simp only [Bool.and_eq_true, beq_iff_eq] at hmem
  exact hne (hmem.1.symm.trans (h e he))

theorem failuresOf_call {c' : ℕ} (h : ∀ e ∈ es, e.call = c) (hne : c' ≠ c) :
    failuresOf c' es = [] := by
  rw [failuresOf, List.filterMap_eq_nil_iff]
  intro e he
  split
  · rename_i hfailed
    have hc := h _ he
    exact if_neg fun heq => hne (heq.symm.trans hc)
  · rfl

/-- The steps of another refresh. -/
theorem Account.other {c' : ℕ} (h : Account S c' call log) (hes : ∀ e ∈ es, e.call = c)
    (hne : c' ≠ c) : Account S c' call (log ++ es) := by
  have hevents : ∀ i, eventsOf c' i (log ++ es) = eventsOf c' i log := by
    intro i
    rw [eventsOf_append, eventsOf_call hes hne, List.append_nil]
  constructor
  · intro i hi
    rw [hevents]
    exact h.below i hi
  · rw [hevents]
    exact h.here
  · intro i hi
    rw [hevents]
    exact h.above i hi
  · exact h.returned
  · rw [failuresOf_append, failuresOf_call hes hne, List.append_nil]
    exact h.failures

/-- Every refresh has its account, and the entries are what the refreshes made of them. -/
structure Accounts (S : Store V) (b : Boot S) (log : List (Event V)) (s : State V) : Prop where
  account : ∀ c call, s.calls c = some call → Account S c call log
  begun : ∀ e ∈ log, (s.calls e.call).isSome
  entries : ∀ i, s.entries i =
    (log.filter fun e => e.index == i).foldl Entry.apply (b.entries i)

theorem setCall_calls {c' : ℕ} (h : (s.setCall c call).calls c' = some call') :
    (c' = c ∧ call' = call) ∨ (c' ≠ c ∧ s.calls c' = some call') := by
  by_cases hc : c' = c
  · subst hc
    have hself : some call = some call' := (Function.update_self c' _ s.calls).symm.trans h
    exact Or.inl ⟨rfl, (Option.some.inj hself).symm⟩
  · exact Or.inr ⟨hc, (Function.update_of_ne hc ..).symm.trans h⟩

theorem setCall_isSome {c' : ℕ} (h : (s.calls c').isSome) :
    ((s.setCall c call).calls c').isSome := by
  change (Function.update s.calls c (some call) c').isSome
  rw [Function.update_apply]
  split
  · rfl
  · exact h

/-- The entry at hand changes as its events say. -/
theorem CallStep.entry_eq (h : CallStep S s c call call' entry es) :
    entry = es.foldl Entry.apply (s.entries call.index) := by
  cases h <;> rfl

theorem Accounts.init : Accounts S b [] (State.init b) := by
  constructor
  · intro c call hcall
    cases hcall
  · intro e he
    cases he
  · intro i
    rfl

theorem Accounts.step (h : Accounts S b log s) (hs : Stepped S s a s' es) :
    Accounts S b (log ++ es) s' := by
  cases hs with
  | activated =>
      rw [List.append_nil]
      exact ⟨h.account, h.begun, h.entries⟩
  | @began c ha hcall =>
      rw [List.append_nil]
      constructor
      · intro c' call' hc'
        obtain ⟨rfl, rfl⟩ | ⟨-, hc'⟩ := setCall_calls hc'
        · have hnone : ∀ e ∈ log, e.call ≠ c' := by
            intro e he heq
            have hsome := h.begun e he
            rw [heq, hcall] at hsome
            cases hsome
          have hevents : ∀ i, eventsOf c' i log = [] := by
            intro i
            rw [eventsOf, List.filter_eq_nil_iff]
            intro e he hmem
            simp only [Bool.and_eq_true, beq_iff_eq] at hmem
            exact hnone e he hmem.1
          constructor
          · intro i hi
            cases hi
          · rw [hevents, Store.enter]
            dsimp only
            split
            · exact Pending.reading
            · exact Pending.returned
          · intro i _
            exact hevents i
          · intro hphase
            simp only [Store.enter] at hphase
            split at hphase
            · cases hphase
            · rename_i hend
              exact not_lt.1 hend
          · symm
            rw [failuresOf, Store.enter, List.filterMap_eq_nil_iff]
            intro e he
            split
            · exact if_neg (hnone _ he)
            · rfl
        · exact h.account c' call' hc'
      · intro e he
        exact setCall_isSome (h.begun e he)
      · exact h.entries
  | @advanced c call call' entry es hcall hstep hstore =>
      have hown := hstep.own
      constructor
      · intro c' call'' hc'
        obtain ⟨rfl, rfl⟩ | ⟨hne, hc'⟩ := setCall_calls hc'
        · exact (h.account c' call hcall).step hstep
        · exact (h.account c' call'' hc').other (fun e he => (hown e he).1) hne
      · intro e he
        obtain he | he := List.mem_append.1 he
        · exact setCall_isSome (h.begun e he)
        · apply setCall_isSome
          rw [(hown e he).1]
          exact Option.isSome_iff_exists.2 ⟨call, hcall⟩
      · intro i
        rw [List.filter_append, List.foldl_append, ← h.entries i]
        by_cases hi : i = call.index
        · have hall : (es.filter fun e => e.index == i) = es := by
            rw [List.filter_eq_self]
            intro e he
            rw [(hown e he).2, hi, beq_self_eq_true]
          rw [hall, hi]
          exact (Function.update_self ..).trans hstep.entry_eq
        · have hnil : (es.filter fun e => e.index == i) = [] := by
            rw [List.filter_eq_nil_iff]
            intro e he heq
            rw [(hown e he).2, beq_iff_eq] at heq
            exact hi heq.symm
          rw [hnil]
          exact Function.update_of_ne hi ..

/-- A failure is the end of what the refresh does to the entry. -/
theorem Accounts.kept {error : Error} (h : Accounts S b log s)
    (hmem : Event.failed c i error ∈ log) :
    ∃ response, eventsOf c i log = [.answered c i response, .failed c i error] := by
  obtain ⟨call, hcall⟩ := Option.isSome_iff_exists.1 (h.begun _ hmem)
  have haccount := h.account c call hcall
  have hown : Event.failed c i error ∈ eventsOf c i log := by
    rw [eventsOf, List.mem_filter]
    exact ⟨hmem, by simp [Event.call, Event.index]⟩
  generalize hevents : eventsOf c i log = events at hown
  obtain hlt | heq | hgt := lt_trichotomy i call.index
  · have hhandled := haccount.below i hlt
    rw [hevents] at hhandled
    cases hhandled <;> simp at hown <;> exact ⟨_, by rw [hown]⟩
  · have hpending := haccount.here
    rw [← heq, hevents] at hpending
    generalize call.phase = phase at hpending
    cases hpending <;> simp at hown
  · rw [haccount.above i hgt] at hevents
    rw [← hevents] at hown
    cases hown

/-! ## Values and versions -/

/-- The value of an entry is that of its version, or that of a version still to be stored. -/
def Sound (S : Store V) (s : State V) (i : ℕ) : Prop :=
  S.Parsed s i (s.entries i).version ∨ ∃ c call version, s.calls c = some call ∧
    call.index = i ∧ call.phase = .storing version ∧ S.Parsed s i version

structure Values (S : Store V) (s : State V) : Prop where
  sound : ∀ i, i < S.tracked.length → Sound S s i
  /-- The server gave the bytes of the version. -/
  content : ∀ c call value, s.calls c = some call → call.phase = .applying value →
    value.value = S.content (S.name call.index) value.version

theorem parse_eq_ok {value : SecretValue} {v : V} :
    S.parse i value = .ok v ↔ S.fromSecret i value.value = .ok v := by
  unfold Store.parse
  cases S.fromSecret i value.value <;> simp

/-- An entry that the step leaves alone, by a refresh that has no version to store there. -/
theorem Sound.frame (h : Sound S s i) (hcall : s.calls c = some call)
    (hentry : s'.entries i = s.entries i)
    (hcalls : s'.calls = Function.update s.calls c (some call'))
    (hphase : call.index = i → ∀ version, call.phase ≠ .storing version) : Sound S s' i := by
  obtain h | ⟨c', call'', version, hc', hindex, hstoring, hparsed⟩ := h
  · left
    unfold Store.Parsed at h ⊢
    rw [hentry]
    exact h
  · right
    have hne : c' ≠ c := by
      rintro rfl
      rw [hcall] at hc'
      cases hc'
      exact hphase hindex version hstoring
    refine ⟨c', call'', version, ?_, hindex, hstoring, ?_⟩
    · rw [hcalls, Function.update_of_ne hne]
      exact hc'
    · unfold Store.Parsed at hparsed ⊢
      rw [hentry]
      exact hparsed

/-- The part of `Settled` on values keeps every entry sound. -/
theorem Sound.step (h : Sound S s i) (hcall : s.calls c = some call)
    (hs : CallStep S s c call call' entry es)
    (hcontent : ∀ value, call.phase = .applying value →
      value.value = S.content (S.name call.index) value.version)
    (hsettled : ∀ version, call.phase = .storing version → Settled S s c call.index version) :
    Sound S ((s.setEntry call.index entry).setCall c call') i := by
  by_cases hi : call.index = i
  · subst hi
    have hself : ∀ entry : Entry V, ((s.setEntry call.index entry).setCall c call').entries
        call.index = entry := fun entry => Function.update_self ..
    cases hs with
    | wrote hphase hparse =>
        right
        refine ⟨c, _, _, Function.update_self .., rfl, rfl, ?_⟩
        rw [Store.Parsed, hself, ← hcontent _ hphase]
        exact parse_eq_ok.1 hparse
    | @stored version hphase =>
        obtain hparsed | ⟨c', call'', version', hne, hc', hindex, hstoring, hparsed⟩ :=
          (hsettled version hphase).parsed
        · left
          unfold Store.Parsed at hparsed ⊢
          rw [hself]
          exact hparsed
        · right
          refine ⟨c', call'', version', (Function.update_of_ne hne ..).trans hc', hindex,
            hstoring, ?_⟩
          unfold Store.Parsed at hparsed ⊢
          rw [hself]
          exact hparsed
    | marked hphase =>
        obtain hparsed | ⟨c', call'', version', hc', hindex, hstoring, hparsed⟩ := h
        · left
          unfold Store.Parsed at hparsed ⊢
          rw [hself]
          exact hparsed
        · right
          have hne : c' ≠ c := by
            rintro rfl
            rw [hcall] at hc'
            cases hc'
            rw [hphase] at hstoring
            cases hstoring
          refine ⟨c', call'', version', (Function.update_of_ne hne ..).trans hc', hindex,
            hstoring, ?_⟩
          unfold Store.Parsed at hparsed ⊢
          rw [hself]
          exact hparsed
    | read hphase => exact h.frame hcall (hself _) rfl fun _ version => by rw [hphase]; simp
    | refused hphase => exact h.frame hcall (hself _) rfl fun _ version => by rw [hphase]; simp
    | unchanged hphase => exact h.frame hcall (hself _) rfl fun _ version => by rw [hphase]; simp
    | changed hphase => exact h.frame hcall (hself _) rfl fun _ version => by rw [hphase]; simp
    | unparsed hphase => exact h.frame hcall (hself _) rfl fun _ version => by rw [hphase]; simp
  · exact h.frame hcall (Function.update_of_ne (Ne.symm hi) ..) rfl fun heq => absurd heq hi

theorem enter_phase (call : Call) (index : ℕ) :
    (S.enter call index).phase = .reading ∨ (S.enter call index).phase = .returned := by
  unfold Store.enter
  dsimp only
  split
  · exact Or.inl rfl
  · exact Or.inr rfl

theorem enter_not_applying {value : SecretValue} (call : Call) (index : ℕ) :
    (S.enter call index).phase ≠ .applying value := by
  obtain h | h := enter_phase (S := S) call index <;> rw [h] <;> simp

theorem Values.init : Values S (State.init b) := by
  constructor
  · intro i hi
    exact Or.inl (b.parsed i hi)
  · intro c call value hcall
    cases hcall

theorem settled_of_orderly (ho : Orderly S s a) (hcall : s.calls c = some call)
    (hstore : ∀ version, call.phase = .storing version → a = .store c) (version : ℕ)
    (hphase : call.phase = .storing version) : Settled S s c call.index version := by
  have ha := hstore version hphase
  subst ha
  exact ho call version hcall hphase

theorem CallStep.content (hs : CallStep S s c call call' entry es) {value : SecretValue}
    (hphase : call'.phase = .applying value) :
    value.value = S.content (S.name call'.index) value.version := by
  cases hs with
  | changed _ _ hvalue =>
      cases hphase
      exact hvalue
  | refused => exact absurd hphase (enter_not_applying _ _)
  | unparsed => exact absurd hphase (enter_not_applying _ _)
  | marked => exact absurd hphase (enter_not_applying _ _)
  | read => cases hphase
  | unchanged => cases hphase
  | wrote => cases hphase
  | stored => cases hphase

theorem Values.step (h : Values S s) (ho : Orderly S s a) (hs : Stepped S s a s' es) :
    Values S s' := by
  cases hs with
  | activated => exact ⟨h.sound, h.content⟩
  | @began c ha hcall =>
      constructor
      · intro i hi
        obtain hparsed | ⟨c', call', version, hc', hindex, hstoring, hparsed⟩ := h.sound i hi
        · exact Or.inl hparsed
        · have hne : c' ≠ c := by
            rintro rfl
            rw [hcall] at hc'
            cases hc'
          exact Or.inr ⟨c', call', version, (Function.update_of_ne hne ..).trans hc', hindex,
            hstoring, hparsed⟩
      · intro c' call' value hc' hphase
        obtain ⟨rfl, rfl⟩ | ⟨-, hc'⟩ := setCall_calls hc'
        · exact absurd hphase (enter_not_applying _ _)
        · exact h.content c' call' value hc' hphase
  | @advanced c call call' entry es hcall hstep hstore =>
      constructor
      · intro i hi
        exact (h.sound i hi).step hcall hstep (fun value => h.content c call value hcall)
          (settled_of_orderly ho hcall hstore)
      · intro c' call'' value hc' hphase
        obtain ⟨rfl, rfl⟩ | ⟨-, hc'⟩ := setCall_calls hc'
        · exact hstep.content hphase
        · exact h.content c' call'' value hc' hphase

/-! ## Active versions -/

/-- What a refresh knows of the active versions. -/
structure Actives (S : Store V) (s : State V) : Prop where
  began : ∀ c call, s.calls c = some call → call.began ≤ s.clock
  /-- The version at hand is active, unless there was an activation. -/
  served : ∀ c call version, s.calls c = some call →
    (call.phase = .storing version ∨ ∃ value, call.phase = .applying value ∧
      value.version = version) →
    s.activated (S.name call.index) ≤ call.began → s.active (S.name call.index) = some version
  confirmed : ∀ c call i, s.calls c = some call → Confirmed S s call i →
    s.active (S.name i) = some (s.entries i).version

theorem Actives.init : Actives S (State.init b) := by
  constructor
  · intro c call hcall
    cases hcall
  · intro c call version hcall
    cases hcall
  · intro c call i hcall
    cases hcall

/-- A refresh that still counts as begun behind the activations of a secret was not there
before the last of them, which was of another secret. -/
theorem name_ne_of_began {clock began : ℕ} {activated : String → ℕ} {name' : String}
    (hclock : began ≤ clock) (h : Function.update activated name (clock + 1) name' ≤ began) :
    name' ≠ name := by
  rintro rfl
  rw [Function.update_self] at h
  omega

theorem Actives.activate {version : ℕ} (h : Actives S s)
    (hactive : s'.active = Function.update s.active name (some version))
    (hclock : s'.clock = s.clock + 1)
    (hactivated : s'.activated = Function.update s.activated name (s.clock + 1))
    (hentries : s'.entries = s.entries) (hcalls : s'.calls = s.calls) : Actives S s' := by
  constructor
  · intro c call hcall
    rw [hcalls] at hcall
    rw [hclock]
    exact (h.began c call hcall).trans (Nat.le_succ _)
  · intro c call version' hcall hphase hbegan
    rw [hcalls] at hcall
    rw [hactivated] at hbegan
    have hne := name_ne_of_began (h.began c call hcall) hbegan
    rw [Function.update_of_ne hne] at hbegan
    rw [hactive, Function.update_of_ne hne]
    exact h.served c call version' hcall hphase hbegan
  · intro c call i hcall hconfirmed
    rw [hcalls] at hcall
    have hbegan := hconfirmed.began
    rw [hactivated] at hbegan
    have hne := name_ne_of_began (h.began c call hcall) hbegan
    rw [Function.update_of_ne hne] at hbegan
    rw [hactive, Function.update_of_ne hne, hentries]
    have hpassed := hconfirmed.passed
    rw [hactive, Function.update_of_ne hne] at hpassed
    exact h.confirmed c call i hcall ⟨hbegan, hconfirmed.failures, hpassed⟩

/-- A version changes by being stored. -/
theorem CallStep.version (hs : CallStep S s c call call' entry es) :
    entry.version = (s.entries call.index).version ∨ call.phase = .storing entry.version := by
  cases hs with
  | stored hphase => exact Or.inr hphase
  | _ => exact Or.inl rfl

theorem CallStep.began (hs : CallStep S s c call call' entry es) : call'.began = call.began := by
  cases hs <;> rfl

/-- The version that a refresh has at hand after its step. -/
theorem CallStep.served {version : ℕ} (h : Actives S s) (hcall : s.calls c = some call)
    (hs : CallStep S s c call call' entry es)
    (hphase : call'.phase = .storing version ∨ ∃ value, call'.phase = .applying value ∧
      value.version = version)
    (hbegan : s.activated (S.name call'.index) ≤ call'.began) :
    s.active (S.name call'.index) = some version := by
  have henter : ∀ (call : Call) (index : ℕ), ¬ ((S.enter call index).phase = .storing version ∨
      ∃ value, (S.enter call index).phase = .applying value ∧ value.version = version) := by
    intro call index
    obtain h | h := enter_phase (S := S) call index <;> rw [h] <;> simp
  cases hs with
  | changed _ hactive =>
      obtain hphase | ⟨value, hphase, rfl⟩ := hphase
      · cases hphase
      · cases hphase
        exact hactive
  | wrote happlying =>
      obtain hphase | ⟨value, hphase, rfl⟩ := hphase
      · cases hphase
        exact h.served c call _ hcall (Or.inr ⟨_, happlying, rfl⟩) hbegan
      · cases hphase
  | refused => exact absurd hphase (henter _ _)
  | unparsed => exact absurd hphase (henter _ _)
  | marked => exact absurd hphase (henter _ _)
  | read => simp at hphase
  | unchanged => simp at hphase
  | stored => simp at hphase

/-- What a refresh confirmed by its step was active all along. -/
theorem CallStep.confirmed (h : Actives S s) (hcall : s.calls c = some call)
    (hs : CallStep S s c call call' entry es) (hconfirmed : Confirmed S s call' i) :
    s.active (S.name i) = some (Function.update s.entries call.index entry i).version := by
  have hbegan := hconfirmed.began
  rw [hs.began] at hbegan
  have hfailures := hconfirmed.failures
  have hbelow : i < call.index → call.failures = [] →
      s.active (S.name i) = some (Function.update s.entries call.index entry i).version := by
    intro hlt hnil
    rw [Function.update_of_ne hlt.ne]
    exact h.confirmed c call i hcall ⟨hbegan, hnil, Or.inl hlt⟩
  cases hs with
  | read =>
      obtain hlt | ⟨rfl, hmarking | ⟨known, hknown, hactive⟩⟩ := hconfirmed.passed
      · exact hbelow hlt hfailures
      · cases hmarking
      · cases hknown
        rw [Function.update_self]
        exact hactive
  | refused => simp [Store.skip, Store.enter] at hfailures
  | unparsed => simp [Store.skip, Store.enter] at hfailures
  | unchanged hphase hactive =>
      obtain hlt | ⟨rfl, -⟩ := hconfirmed.passed
      · exact hbelow hlt hfailures
      · rw [Function.update_self]
        exact h.confirmed c call call.index hcall
          ⟨hbegan, hfailures, Or.inr ⟨rfl, Or.inr ⟨_, hphase, hactive⟩⟩⟩
  | changed =>
      obtain hlt | ⟨rfl, hmarking | ⟨known, hknown, -⟩⟩ := hconfirmed.passed
      · exact hbelow hlt hfailures
      · cases hmarking
      · cases hknown
  | wrote =>
      obtain hlt | ⟨rfl, hmarking | ⟨known, hknown, -⟩⟩ := hconfirmed.passed
      · exact hbelow hlt hfailures
      · cases hmarking
      · cases hknown
  | @stored version hphase =>
      obtain hlt | ⟨rfl, -⟩ := hconfirmed.passed
      · exact hbelow hlt hfailures
      · rw [Function.update_self]
        exact h.served c call version hcall (Or.inl hphase) hbegan
  | marked hphase =>
      obtain hlt | ⟨rfl, hphase'⟩ := hconfirmed.passed
      · obtain hlt | rfl := Nat.lt_succ_iff_lt_or_eq.1 hlt
        · exact hbelow hlt hfailures
        · rw [Function.update_self]
          exact h.confirmed c call call.index hcall
            ⟨hbegan, hfailures, Or.inr ⟨rfl, Or.inl hphase⟩⟩
      · obtain henter | henter := enter_phase (S := S) call (call.index + 1) <;>
          simp [henter] at hphase'

theorem Actives.step (h : Actives S s) (ho : Orderly S s a) (hs : Stepped S s a s' es) :
    Actives S s' := by
  cases hs with
  | activated => exact h.activate rfl rfl rfl rfl rfl
  | @began c ha hcall =>
      constructor
      · intro c' call' hc'
        obtain ⟨rfl, rfl⟩ | ⟨-, hc'⟩ := setCall_calls hc'
        · exact le_rfl
        · exact h.began c' call' hc'
      · intro c' call' version hc' hphase hbegan
        obtain ⟨rfl, rfl⟩ | ⟨-, hc'⟩ := setCall_calls hc'
        · obtain henter | henter := enter_phase (S := S) ⟨s.clock, 0, .reading, []⟩ 0 <;>
            simp [henter] at hphase
        · exact h.served c' call' version hc' hphase hbegan
      · intro c' call' i hc' hconfirmed
        obtain ⟨rfl, rfl⟩ | ⟨-, hc'⟩ := setCall_calls hc'
        · obtain hlt | ⟨-, hphase⟩ := hconfirmed.passed
          · cases hlt
          · obtain henter | henter := enter_phase (S := S) ⟨s.clock, 0, .reading, []⟩ 0 <;>
              simp [henter] at hphase
        · exact h.confirmed c' call' i hc'
            ⟨hconfirmed.began, hconfirmed.failures, hconfirmed.passed⟩
  | @advanced c call call' entry es hcall hstep hstore =>
      constructor
      · intro c' call'' hc'
        obtain ⟨rfl, rfl⟩ | ⟨-, hc'⟩ := setCall_calls hc'
        · rw [hstep.began]
          exact h.began c' call hcall
        · exact h.began c' call'' hc'
      · intro c' call'' version hc' hphase hbegan
        obtain ⟨rfl, rfl⟩ | ⟨-, hc'⟩ := setCall_calls hc'
        · exact CallStep.served (s := s) h hcall hstep hphase hbegan
        · exact h.served c' call'' version hc' hphase hbegan
      · intro c' call'' i hc' hconfirmed
        have hsame : Confirmed S s call'' i :=
          ⟨hconfirmed.began, hconfirmed.failures, hconfirmed.passed⟩
        obtain ⟨rfl, rfl⟩ | ⟨-, hc'⟩ := setCall_calls hc'
        · exact hstep.confirmed h hcall hsame
        · have hold := h.confirmed c' call'' i hc' hsame
          by_cases hi : i = call.index
          · subst hi
            change s.active (S.name call.index) =
              some (Function.update s.entries call.index entry call.index).version
            rw [Function.update_self]
            obtain hkept | hphase := hstep.version
            · rw [hkept]
              exact hold
            · obtain hactive | hnone :=
                (settled_of_orderly ho hcall hstore _ hphase).active
              · exact hactive
              · exact absurd hsame (hnone c' call'' hc')
          · exact hold.trans (by rw [← Function.update_of_ne hi entry s.entries]; rfl)

/-! ## The refreshes of a run -/

theorem run_accounts {C : State V → Action → Prop} (h : RefreshRun S b C log s) :
    Accounts S b log s :=
  h.invariant Accounts.init fun _ _ _ _ _ _ hi _ hs => hi.step (step_stepped hs)

/-- What an orderly run keeps of the values and the versions. -/
theorem run_orderly (h : RefreshRun S b (Orderly S) log s) : Values S s ∧ Actives S s := by
  apply h.safe (I := fun s => Values S s ∧ Actives S s)
  · exact ⟨Values.init, Actives.init⟩
  · intro s a s' es hi ho hs
    exact ⟨hi.1.step ho (step_stepped hs), hi.2.step ho (step_stepped hs)⟩

theorem Account.convergent (h : Account S c call log) (hreturned : call.phase = .returned) :
    S.tracked.length ≤ call.index ∧ ∀ i, i < S.tracked.length → Handled S c i (eventsOf c i log) :=
  ⟨h.returned hreturned, fun i hi => h.below i (hi.trans_le (h.returned hreturned))⟩

theorem result_ok (h : call.result = .ok ()) : call.failures = [] := by
  unfold Call.result at h
  split at h
  · exact List.isEmpty_iff.1 ‹_›
  · cases h

theorem convergent_of_invariants (haccounts : Accounts S b log s) (hvalues : Values S s)
    (hactives : Actives S s) : Convergent S b log s := by
  constructor
  · intro hquiet i hi
    obtain hparsed | ⟨c, call, version, hcall, -, hstoring, -⟩ := hvalues.sound i hi
    · exact hparsed
    · rw [hquiet c call hcall] at hstoring
      cases hstoring
  · intro hquiet c call hcall hresult i hi hbegan
    have hend := ((haccounts.account c call hcall).convergent (hquiet c call hcall)).1
    exact hactives.confirmed c call i hcall
      ⟨hbegan, result_ok hresult, Or.inl (hi.trans_le hend)⟩
  · exact haccounts.entries
  · intro c i error hmem
    exact haccounts.kept hmem
  · intro c call hcall hreturned
    exact ((haccounts.account c call hcall).convergent hreturned).2
  · intro c call hcall
    exact (haccounts.account c call hcall).failures

/-- In a run whose versions are stored in order, the entries hold what they report, and
report the active versions behind a refresh. -/
theorem refresh_converges (h : RefreshRun S b (Orderly S) log s) : Convergent S b log s :=
  convergent_of_invariants (run_accounts h) (run_orderly h).1 (run_orderly h).2

/-! ## Refreshes one after the other -/

/-- A refresh begins while no other is in progress. -/
def Alone (s : State V) (a : Action) : Prop :=
  ∀ c, a = .begin c → s.Quiet

/-- At most one refresh is in progress; it began last, and has replaced the value whose
version it is to store. -/
structure Solo (S : Store V) (s : State V) : Prop where
  single : ∀ c c' call call', s.calls c = some call → s.calls c' = some call' →
    call.phase ≠ .returned → call'.phase ≠ .returned → c' = c
  last : ∀ c c' call call', s.calls c = some call → s.calls c' = some call' →
    call.phase ≠ .returned → call'.began ≤ call.began
  storing : ∀ c call version, s.calls c = some call → call.phase = .storing version →
    S.Parsed s call.index version

theorem Solo.orderly (h : Solo S s) (hactives : Actives S s) (a : Action) : Orderly S s a := by
  cases a with
  | store c =>
      intro call version hcall hphase
      constructor
      · exact Or.inl (h.storing c call version hcall hphase)
      · by_cases hbegan : s.activated (S.name call.index) ≤ call.began
        · exact Or.inl (hactives.served c call version hcall (Or.inl hphase) hbegan)
        · right
          intro c' call' hcall' hconfirmed
          have hlast := h.last c c' call call' hcall hcall' (by rw [hphase]; simp)
          exact hbegan (hconfirmed.began.trans hlast)
  | _ => trivial

theorem CallStep.not_returned (hs : CallStep S s c call call' entry es) :
    call.phase ≠ .returned := by
  cases hs <;> simp_all

theorem CallStep.storing {version : ℕ} (hs : CallStep S s c call call' entry es)
    (hcontent : ∀ value, call.phase = .applying value →
      value.value = S.content (S.name call.index) value.version)
    (hphase : call'.phase = .storing version) :
    call'.index = call.index ∧
      S.fromSecret call.index (S.content (S.name call.index) version) = .ok entry.value := by
  have henter : ∀ (call : Call) (index : ℕ), (S.enter call index).phase ≠ .storing version := by
    intro call index
    obtain h | h := enter_phase (S := S) call index <;> rw [h] <;> simp
  cases hs with
  | wrote happlying hparse =>
      cases hphase
      rw [← hcontent _ happlying]
      exact ⟨rfl, parse_eq_ok.1 hparse⟩
  | refused => exact absurd hphase (henter _ _)
  | unparsed => exact absurd hphase (henter _ _)
  | marked => exact absurd hphase (henter _ _)
  | read => cases hphase
  | unchanged => cases hphase
  | changed => cases hphase
  | stored => cases hphase

theorem Solo.begin (h : Solo S s) (hactives : Actives S s) (hquiet : s.Quiet)
    (hbegan : call.began = s.clock) (hstoring : ∀ version, call.phase ≠ .storing version) :
    Solo S (s.setCall c call) := by
  constructor
  · intro c₁ c₂ call₁ call₂ h₁ h₂ hbusy₁ hbusy₂
    obtain ⟨rfl, rfl⟩ | ⟨-, h₁⟩ := setCall_calls h₁
    · obtain ⟨rfl, rfl⟩ | ⟨-, h₂⟩ := setCall_calls h₂
      · rfl
      · exact absurd (hquiet c₂ call₂ h₂) hbusy₂
    · exact absurd (hquiet c₁ call₁ h₁) hbusy₁
  · intro c₁ c₂ call₁ call₂ h₁ h₂ hbusy
    obtain ⟨rfl, rfl⟩ | ⟨-, h₁⟩ := setCall_calls h₁
    · obtain ⟨rfl, rfl⟩ | ⟨-, h₂⟩ := setCall_calls h₂
      · exact le_rfl
      · rw [hbegan]
        exact hactives.began c₂ call₂ h₂
    · exact absurd (hquiet c₁ call₁ h₁) hbusy
  · intro c' call' version hc' hphase
    obtain ⟨rfl, rfl⟩ | ⟨-, hc'⟩ := setCall_calls hc'
    · exact absurd hphase (hstoring version)
    · exact h.storing c' call' version hc' hphase

theorem Solo.advance (h : Solo S s) (hvalues : Values S s) (hcall : s.calls c = some call)
    (hs : CallStep S s c call call' entry es) :
    Solo S ((s.setEntry call.index entry).setCall c call') := by
  have hbusy := hs.not_returned
  constructor
  · intro c₁ c₂ call₁ call₂ h₁ h₂ hbusy₁ hbusy₂
    obtain ⟨rfl, rfl⟩ | ⟨-, h₁'⟩ := setCall_calls h₁
    · obtain ⟨rfl, rfl⟩ | ⟨-, h₂'⟩ := setCall_calls h₂
      · rfl
      · exact h.single c₁ c₂ call call₂ hcall h₂' hbusy hbusy₂
    · obtain ⟨rfl, rfl⟩ | ⟨-, h₂'⟩ := setCall_calls h₂
      · exact h.single c₁ c₂ call₁ call h₁' hcall hbusy₁ hbusy
      · exact h.single c₁ c₂ call₁ call₂ h₁' h₂' hbusy₁ hbusy₂
  · intro c₁ c₂ call₁ call₂ h₁ h₂ hbusy₁
    obtain ⟨rfl, rfl⟩ | ⟨-, h₁'⟩ := setCall_calls h₁
    · rw [hs.began]
      obtain ⟨rfl, rfl⟩ | ⟨-, h₂'⟩ := setCall_calls h₂
      · exact hs.began.le
      · exact h.last c₁ c₂ call call₂ hcall h₂' hbusy
    · obtain ⟨rfl, rfl⟩ | ⟨-, h₂'⟩ := setCall_calls h₂
      · rw [hs.began]
        exact h.last c₁ c₂ call₁ call h₁' hcall hbusy₁
      · exact h.last c₁ c₂ call₁ call₂ h₁' h₂' hbusy₁
  · intro c' call'' version hc' hphase
    obtain ⟨rfl, rfl⟩ | ⟨hne, hc'⟩ := setCall_calls hc'
    · obtain ⟨hindex, hparsed⟩ :=
        hs.storing (fun value => hvalues.content c' call value hcall) hphase
      rw [Store.Parsed, hindex, hparsed]
      change _ = Except.ok (Function.update s.entries call.index entry call.index).value
      rw [Function.update_self]
    · exact absurd (h.single c c' call call'' hcall hc' hbusy (by rw [hphase]; simp)) hne

theorem Solo.step (h : Solo S s) (hvalues : Values S s) (hactives : Actives S s)
    (halone : Alone s a) (hs : Stepped S s a s' es) : Solo S s' := by
  cases hs with
  | activated => exact ⟨h.single, h.last, h.storing⟩
  | began ha hcall =>
      apply h.begin hactives (halone _ ha)
      · rfl
      · intro version
        obtain henter | henter := enter_phase (S := S) ⟨s.clock, 0, .reading, []⟩ 0 <;>
          rw [henter] <;> simp
  | advanced hcall hstep => exact h.advance hvalues hcall hstep

theorem Solo.init : Solo S (State.init b) := by
  constructor
  · intro c c' call call' hcall
    cases hcall
  · intro c c' call call' hcall
    cases hcall
  · intro c call version hcall
    cases hcall

/-- Refreshes that do not overlap store their versions in order. -/
theorem orderly_of_alone (h : RefreshRun S b Alone log s) : RefreshRun S b (Orderly S) log s := by
  apply h.strengthen (I := fun s => Values S s ∧ Actives S s ∧ Solo S s)
  · exact ⟨Values.init, Actives.init, Solo.init⟩
  · intro s a s' es hi halone hs
    obtain ⟨hvalues, hactives, hsolo⟩ := hi
    have ho := hsolo.orderly hactives a
    exact ⟨hvalues.step ho (step_stepped hs), hactives.step ho (step_stepped hs),
      hsolo.step hvalues hactives halone (step_stepped hs)⟩
  · intro s a hi _
    exact hi.2.2.orderly hi.2.1 a

/-- One refresh at a time converges. -/
theorem alone_converges (h : RefreshRun S b Alone log s) : Convergent S b log s :=
  convergent_of_invariants (run_accounts h) (run_orderly (orderly_of_alone h)).1
    (run_orderly (orderly_of_alone h)).2

/-! ## One secret -/

/-- The calls of a run whose refreshes are numbered below `n`. -/
theorem calls_eq_none {n : ℕ} (h : RefreshRun S b (fun _ a => ∀ c, a = .begin c → c < n) log s)
    (hc : n ≤ c) : s.calls c = none := by
  apply h.safe (I := fun s => s.calls c = none) rfl
  intro s a s' es hnone hbegin hs
  cases step_stepped hs with
  | activated => exact hnone
  | began ha hcall =>
      have hlt := hbegin _ ha
      exact (Function.update_of_ne (by omega) ..).trans hnone
  | @advanced c' call call' entry es hcall hstep =>
      have hne : c ≠ c' := by
        rintro rfl
        rw [hnone] at hcall
        cases hcall
      exact (Function.update_of_ne hne ..).trans hnone

end

/-- One secret of raw bytes, whose versions are single bytes. -/
def bytesStore : Store (List UInt8) :=
  ⟨["attic/app/token"], fun _ bytes => .ok bytes, fun _ version => [version.toUInt8]⟩

def bytesBoot : Boot bytesStore :=
  ⟨fun _ => some 1, fun _ => ⟨[1], 1, 0⟩, fun _ _ => rfl⟩

/-- A refresh that finds another version. -/
def rotation (c : ℕ) : List Action :=
  [.begin c, .read c, .request c none, .apply c, .store c, .mark c 7]

/-- Every version is stored over its own value and while it is active. -/
def Current [DecidableEq V] (S : Store V) (s : State V) : Action → Bool
  | .store c =>
      match s.calls c with
      | none => true
      | some call =>
          match call.phase with
          | .storing version =>
              decide (S.fromSecret call.index (S.content (S.name call.index) version) =
                .ok (s.entries call.index).value) &&
              decide (s.active (S.name call.index) = some version)
          | _ => true
  | _ => true

theorem orderly_of_current [DecidableEq V] {S : Store V} {s : State V} {a : Action}
    (h : Current S s a = true) : Orderly S s a := by
  cases a with
  | store c =>
      intro call version hcall hphase
      simp only [Current, hcall, hphase, Bool.and_eq_true, decide_eq_true_eq] at h
      exact ⟨Or.inl h.1, Or.inl h.2⟩
  | _ => trivial

theorem refresh_converges_once : ∃ log s,
    RefreshRun bytesStore bytesBoot (Orderly bytesStore) log s ∧
    Convergent bytesStore bytesBoot log s ∧ s.entries 0 = ⟨[2], 2, 7⟩ := by
  obtain ⟨log, s, hrun, hp⟩ := StepRun.exists_run (step bytesStore) (Current bytesStore)
    (State.init bytesBoot) (.activate "attic/app/token" 2 :: rotation 0)
    (fun _ s => decide (s.entries 0 = ⟨[2], 2, 7⟩)) (by decide)
  have horderly := hrun.mono fun s a => orderly_of_current (s := s) (a := a)
  exact ⟨log, s, horderly, refresh_converges horderly, of_decide_eq_true hp⟩

/-- Version 2 is answered to a refresh that is slow, version 3 to one that overtakes it:
the slow one stores its version over the value of the other. -/
def overtaken : List Action :=
  [.activate "attic/app/token" 2, .begin 0, .read 0, .request 0 none,
    .activate "attic/app/token" 3, .begin 1, .read 1, .request 1 none,
    .apply 0, .apply 1, .store 1, .mark 1 7, .store 0, .mark 0 8]

theorem not_refresh_converges : ∃ log s,
    RefreshRun bytesStore bytesBoot StepRun.Free log s ∧ s.Quiet ∧
    s.entries 0 = ⟨[3], 2, 8⟩ ∧ s.active "attic/app/token" = some 3 ∧
    ¬ Convergent bytesStore bytesBoot log s := by
  obtain ⟨log, s, hrun, hp⟩ := StepRun.exists_run (step bytesStore)
    (fun _ a => match a with | .begin c => decide (c < 2) | _ => true)
    (State.init bytesBoot) overtaken
    (fun _ s => decide (s.entries 0 = ⟨[3], 2, 8⟩ ∧ s.active "attic/app/token" = some 3 ∧
      s.calls 0 = some ⟨1, 1, .returned, []⟩ ∧ s.calls 1 = some ⟨2, 1, .returned, []⟩))
    (by decide)
  obtain ⟨hentry, hactive, hslow, hfast⟩ := of_decide_eq_true hp
  have hquiet : s.Quiet := by
    intro c call hcall
    by_cases hc : 2 ≤ c
    · have hbelow := hrun.mono (D := fun _ a => ∀ c, a = .begin c → c < 2) (by
        intro s a ha c heq
        subst heq
        exact of_decide_eq_true ha)
      rw [calls_eq_none hbelow hc] at hcall
      cases hcall
    · obtain rfl | rfl : c = 0 ∨ c = 1 := by omega
      · rw [hslow] at hcall
        cases hcall
        rfl
      · rw [hfast] at hcall
        cases hcall
        rfl
  refine ⟨log, s, hrun.free, hquiet, hentry, hactive, ?_⟩
  intro hconvergent
  have hparsed := hconvergent.parsed hquiet 0 (by decide)
  rw [Store.Parsed, hentry] at hparsed
  exact absurd hparsed (by decide)

end Cja.Secret
