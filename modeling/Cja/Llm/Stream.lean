import Cja.Lib.StepRun
import Cja.Llm.Usage

/-!
# The completion event of a streamed reply

The consumer polls the stream or drops it, at any moment, also while a poll waits for the
body. A poll meets events of the body until it has an item to yield. The completion event
comes from the polls that end the body and from the destructor; `emitted` keeps it to one.
-/
namespace Cja.Llm

/-- What a poll meets: data, another frame, an error of the body, nothing for the idle
timeout, or the end. -/
inductive BodyEvent
  | data (bytes : List UInt8)
  | nonData
  | failed (error : LibraryText)
  | idle
  | ended

def BodyEvent.terminal : BodyEvent → Bool
  | .data _ | .nonData => false
  | .failed _ | .idle | .ended => true

/-- The fields of the event that do not come from a clock. -/
structure Completion where
  status : ℕ
  inputTokens : ℕ
  outputTokens : ℕ
deriving Repr, DecidableEq

/-- What happens to a stream, as its body, its consumer and the subscriber see it. -/
inductive StreamEvent
  | met (e : BodyEvent)
  | item (result : Except HttpError (List UInt8))
  | finished
  | completed (c : Completion)
  | dropped

structure StreamState where
  scanner : UsageScanner
  status : ℕ
  ended : Bool
  emitted : Bool

def completion (status : ℕ) (usage : Option Tokens) : Completion where
  status := status
  inputTokens := (usage.map fun u => u.1).getD 0
  outputTokens := (usage.map fun u => u.2).getD 0

def StreamState.emitCompletion (s : StreamState) : StreamState × List StreamEvent :=
  if s.emitted then (s, [])
  else ({ s with emitted := true }, [.completed (completion s.status s.scanner.last)])

/-- The destructor. -/
def StreamState.drop (s : StreamState) : StreamState × List StreamEvent :=
  if s.scanner.done then s.emitCompletion else (s, [])

/-- Where the state is: with the stream between two polls, in the future of a poll, or gone. -/
inductive Held
  | stream
  | poll
  | gone
deriving DecidableEq

structure Streaming where
  held : Held
  state : StreamState

inductive StreamAction
  | poll
  | meets (e : BodyEvent)
  | drop

/-- An error of the body ends it, with an item. -/
def StreamState.fail (s : StreamState) (e : BodyEvent) (error : HttpError) :
    Streaming × List StreamEvent :=
  let r := { s with ended := true }.emitCompletion
  (⟨.stream, r.1⟩, .met e :: (r.2 ++ [.item (.error error)]))

/-- One event in the loop of `stream_next_item`. -/
def StreamState.meets (json : Text → Option Json) (idleTimeout : DurationText) (s : StreamState) :
    BodyEvent → Streaming × List StreamEvent
  | .data bytes =>
      (⟨.stream, { s with scanner := (s.scanner.scan json bytes).1 }⟩,
        [.met (.data bytes), .item (.ok bytes)])
  | .nonData => (⟨.poll, s⟩, [.met .nonData])
  | .failed error => s.fail (.failed error) (.wrapped error.text)
  | .idle => s.fail .idle (.wrapped (TransportError.timeout idleTimeout).display)
  | .ended =>
      let r := s.emitCompletion
      (⟨.gone, r.1.drop.1⟩, .met .ended :: (r.2 ++ .finished :: r.1.drop.2))

def streamStep (json : Text → Option Json) (idleTimeout : DurationText) (st : Streaming) :
    StreamAction → Option (Streaming × List StreamEvent)
  | .poll =>
      if st.held = .stream then
        if st.state.ended then some (⟨.gone, st.state.drop.1⟩, .finished :: st.state.drop.2)
        else some (⟨.poll, st.state⟩, [])
      else none
  | .meets e => if st.held = .poll then some (st.state.meets json idleTimeout e) else none
  | .drop =>
      if st.held = .gone then none
      else some (⟨.gone, st.state.drop.1⟩, .dropped :: st.state.drop.2)

def intoBoxedStream (status : ℕ) : Streaming := ⟨.stream, ⟨{}, status, false, false⟩⟩

abbrev StreamRun (json : Text → Option Json) (idleTimeout : DurationText) (status : ℕ) :=
  StepRun.Run (streamStep json idleTimeout) StepRun.Free (intoBoxedStream status)

/-! ## What the events say -/

def StreamEvent.read (json : Text → Option Json) (scanner : UsageScanner) :
    StreamEvent → UsageScanner
  | .met (.data bytes) => (scanner.scan json bytes).1
  | _ => scanner

/-- The scanner over the data frames so far. -/
def scannerOf (json : Text → Option Json) (log : List StreamEvent) : UsageScanner :=
  log.foldl (StreamEvent.read json) {}

def StreamEvent.isTerminal : StreamEvent → Bool
  | .met e => e.terminal
  | _ => false

def StreamEvent.isCompleted : StreamEvent → Bool
  | .completed _ => true
  | _ => false

def StreamEvent.isDropped : StreamEvent → Bool
  | .dropped => true
  | _ => false

def StreamEvent.isError : StreamEvent → Bool
  | .item (.error _) => true
  | _ => false

variable {json : Text → Option Json} {idleTimeout : DurationText} {status : ℕ}
  {log es before after : List StreamEvent} {st st' : Streaming} {a : StreamAction}
  {s : StreamState}

/-- What the state knows of the events so far. -/
structure Tracked (json : Text → Option Json) (status : ℕ) (log : List StreamEvent)
    (st : Streaming) : Prop where
  scanner : st.state.scanner = scannerOf json log
  status : st.state.status = status
  count : log.countP StreamEvent.isCompleted = if st.state.emitted then 1 else 0
  emitted : st.state.emitted =
    (log.any StreamEvent.isTerminal || (log.any StreamEvent.isDropped && st.state.scanner.done))
  ended : st.held ≠ .gone → st.state.ended = st.state.emitted
  kept : st.held ≠ .gone → log.any StreamEvent.isDropped = false
  polled : st.held = .poll → st.state.ended = false
  failed : log.any StreamEvent.isError = true → st.held ≠ .gone → st.state.ended = true

theorem emitCompletion_fresh (h : s.emitted = false) :
    s.emitCompletion =
      ({ s with emitted := true }, [.completed (completion s.status s.scanner.last)]) := by
  unfold StreamState.emitCompletion
  rw [h, if_neg Bool.false_ne_true]

theorem drop_emitted (h : s.emitted = true) : s.drop = (s, []) := by
  unfold StreamState.drop StreamState.emitCompletion
  rw [h, if_pos rfl, ite_self]

theorem scannerOf_append (log es : List StreamEvent) :
    scannerOf json (log ++ es) = es.foldl (StreamEvent.read json) (scannerOf json log) := by
  unfold scannerOf
  rw [List.foldl_append]

/-- Everything a step can do. -/
inductive Stepped (json : Text → Option Json) : Streaming → Streaming → List StreamEvent → Prop
  | asks {s : StreamState} : s.ended = false → Stepped json ⟨.stream, s⟩ ⟨.poll, s⟩ []
  | finishes {s : StreamState} : s.ended = true →
      Stepped json ⟨.stream, s⟩ ⟨.gone, s⟩ [.finished]
  | data {s : StreamState} (bytes : List UInt8) :
      Stepped json ⟨.poll, s⟩ ⟨.stream, { s with scanner := (s.scanner.scan json bytes).1 }⟩
        [.met (.data bytes), .item (.ok bytes)]
  | nonData {s : StreamState} : Stepped json ⟨.poll, s⟩ ⟨.poll, s⟩ [.met .nonData]
  | fails {s : StreamState} {e : BodyEvent} {error : HttpError} : e.terminal = true →
      (∀ bytes, e ≠ .data bytes) →
      Stepped json ⟨.poll, s⟩ ⟨.stream, { s with ended := true, emitted := true }⟩
        [.met e, .completed (completion s.status s.scanner.last), .item (.error error)]
  | ends {s : StreamState} :
      Stepped json ⟨.poll, s⟩ ⟨.gone, { s with emitted := true }⟩
        [.met .ended, .completed (completion s.status s.scanner.last), .finished]
  | dropsDone {held : Held} {s : StreamState} : held ≠ .gone → s.scanner.done = true →
      s.emitted = false →
      Stepped json ⟨held, s⟩ ⟨.gone, { s with emitted := true }⟩
        [.dropped, .completed (completion s.status s.scanner.last)]
  | drops {held : Held} {s : StreamState} : held ≠ .gone →
      (s.scanner.done = true → s.emitted = true) →
      Stepped json ⟨held, s⟩ ⟨.gone, s⟩ [.dropped]

theorem Tracked.stepped (h : Tracked json status log st)
    (hs : streamStep json idleTimeout st a = some (st', es)) : Stepped json st st' es := by
  obtain ⟨held, s⟩ := st
  cases a with
  | poll =>
      simp only [streamStep] at hs
      split at hs
      · rename_i hheld
        subst hheld
        split at hs
        · rename_i hended
          have hemitted : s.emitted = true := by
            rw [← h.ended (by simp)]
            exact hended
          rw [drop_emitted hemitted] at hs
          cases hs
          exact .finishes hended
        · rename_i hended
          cases hs
          exact .asks (by simpa using hended)
      · cases hs
  | meets e =>
      simp only [streamStep] at hs
      split at hs
      · rename_i hheld
        subst hheld
        have hended : s.ended = false := h.polled rfl
        have hemitted : s.emitted = false := by
          rw [← hended]
          exact (h.ended (by simp)).symm
        have hfresh : ({ s with ended := true } : StreamState).emitted = false := hemitted
        cases e with
        | data bytes => cases hs; exact .data bytes
        | nonData => cases hs; exact .nonData
        | failed error =>
            simp only [StreamState.meets, StreamState.fail, emitCompletion_fresh hfresh] at hs
            cases hs
            exact .fails rfl (by simp)
        | idle =>
            simp only [StreamState.meets, StreamState.fail, emitCompletion_fresh hfresh] at hs
            cases hs
            exact .fails rfl (by simp)
        | ended =>
            simp only [StreamState.meets, emitCompletion_fresh hemitted] at hs
            rw [drop_emitted rfl] at hs
            cases hs
            exact .ends
      · cases hs
  | drop =>
      simp only [streamStep] at hs
      split at hs
      · cases hs
      · rename_i hheld
        cases hdone : s.scanner.done with
        | false =>
            simp only [StreamState.drop, hdone, Bool.false_eq_true, if_false] at hs
            cases hs
            exact .drops hheld (by simp [hdone])
        | true =>
            cases hemitted : s.emitted with
            | false =>
                simp only [StreamState.drop, hdone, if_true, emitCompletion_fresh hemitted] at hs
                cases hs
                exact .dropsDone hheld hdone hemitted
            | true =>
                rw [drop_emitted hemitted] at hs
                cases hs
                exact .drops hheld (fun _ => hemitted)

/-- The events of a step carry the scanner and the count on. -/
theorem Tracked.extend (h : Tracked json status log st)
    (hread : es.foldl (StreamEvent.read json) st.state.scanner = st'.state.scanner)
    (hstatus : st'.state.status = st.state.status)
    (hcount : (if st.state.emitted then 1 else 0) + es.countP StreamEvent.isCompleted =
      if st'.state.emitted then 1 else 0)
    (hemitted : st'.state.emitted = ((log ++ es).any StreamEvent.isTerminal ||
      ((log ++ es).any StreamEvent.isDropped && st'.state.scanner.done)))
    (hended : st'.held ≠ .gone → st'.state.ended = st'.state.emitted)
    (hkept : st'.held ≠ .gone → (log ++ es).any StreamEvent.isDropped = false)
    (hpolled : st'.held = .poll → st'.state.ended = false)
    (hfailed : (log ++ es).any StreamEvent.isError = true → st'.held ≠ .gone →
      st'.state.ended = true) : Tracked json status (log ++ es) st' := by
  refine ⟨?_, hstatus.trans h.status, ?_, hemitted, hended, hkept, hpolled, hfailed⟩
  · rw [scannerOf_append, ← h.scanner, hread]
  · rw [List.countP_append, h.count, hcount]

/-- A chunk or a frame without data ends nothing. -/
theorem Tracked.passes (h : Tracked json status log ⟨.poll, s⟩) {e : BodyEvent}
    (hes : es = [.met e] ∨ ∃ bytes, es = [.met e, .item (.ok bytes)]) (he : e.terminal = false) :
    s.emitted = (log ++ es).any StreamEvent.isTerminal ∧
      (log ++ es).any StreamEvent.isDropped = false ∧
      (log ++ es).any StreamEvent.isError = log.any StreamEvent.isError := by
  have hdropped : log.any StreamEvent.isDropped = false := h.kept (by simp)
  have hemitted := h.emitted
  rw [hdropped, Bool.false_and, Bool.or_false] at hemitted
  rw [List.any_append, List.any_append, List.any_append, ← hemitted, hdropped]
  rcases hes with rfl | ⟨bytes, rfl⟩
  · simp [StreamEvent.isTerminal, StreamEvent.isDropped, StreamEvent.isError, he]
  · simp [StreamEvent.isTerminal, StreamEvent.isDropped, StreamEvent.isError, he]

theorem Tracked.step (h : Tracked json status log st)
    (hs : Stepped json st st' es) : Tracked json status (log ++ es) st' := by
  cases hs with
  | @asks s hopen =>
      rw [List.append_nil]
      exact ⟨h.scanner, h.status, h.count, h.emitted, fun _ => h.ended (by simp),
        fun _ => h.kept (by simp), fun _ => hopen, fun he _ => h.failed he (by simp)⟩
  | @finishes s hclosed =>
      have hemitted := h.emitted
      refine h.extend rfl rfl rfl ?_ ?_ ?_ ?_ ?_
      · rw [List.any_append, List.any_append, hemitted]
        simp [StreamEvent.isTerminal, StreamEvent.isDropped]
      all_goals simp
  | @data s bytes =>
      obtain ⟨hemitted, hdropped, herror⟩ := h.passes (e := .data bytes) (.inr ⟨bytes, rfl⟩) rfl
      refine h.extend rfl rfl rfl ?_ ?_ ?_ ?_ ?_
      · rw [hdropped, Bool.false_and, Bool.or_false]
        exact hemitted
      · intro _
        exact h.ended (by simp)
      · intro _
        exact hdropped
      · intro hpoll
        cases hpoll
      · intro hlog _
        exact h.failed (herror ▸ hlog) (by simp)
  | @nonData s =>
      obtain ⟨hemitted, hdropped, herror⟩ := h.passes (e := .nonData) (.inl rfl) rfl
      refine h.extend rfl rfl rfl ?_ ?_ ?_ ?_ ?_
      · rw [hdropped, Bool.false_and, Bool.or_false]
        exact hemitted
      · intro _
        exact h.ended (by simp)
      · intro _
        exact hdropped
      · intro _
        exact h.polled rfl
      · intro hlog _
        exact h.failed (herror ▸ hlog) (by simp)
  | @fails s e error hterminal hdata =>
      have hdropped : log.any StreamEvent.isDropped = false := h.kept (by simp)
      have hfresh : s.emitted = false := (h.ended (by simp)).symm.trans (h.polled rfl)
      have hread : StreamEvent.read json s.scanner (.met e) = s.scanner := by
        cases e with
        | data bytes => exact absurd rfl (hdata bytes)
        | _ => rfl
      refine h.extend ?_ rfl ?_ ?_ ?_ ?_ ?_ ?_
      · rw [List.foldl_cons, hread]
        rfl
      · dsimp only
        rw [hfresh]
        rfl
      · rw [List.any_append, List.any_append]
        simp [StreamEvent.isTerminal, hterminal]
      · intro _
        rfl
      · intro _
        rw [List.any_append, hdropped]
        rfl
      · intro hpoll
        cases hpoll
      · intro _ _
        rfl
  | @ends s =>
      have hfresh : s.emitted = false := (h.ended (by simp)).symm.trans (h.polled rfl)
      refine h.extend rfl rfl ?_ ?_ ?_ ?_ ?_ ?_
      · dsimp only
        rw [hfresh]
        rfl
      · rw [List.any_append, List.any_append]
        simp [StreamEvent.isTerminal, BodyEvent.terminal]
      all_goals simp
  | @dropsDone held s hheld hdone hfresh =>
      refine h.extend rfl rfl ?_ ?_ ?_ ?_ ?_ ?_
      · dsimp only
        rw [hfresh]
        rfl
      · rw [List.any_append, List.any_append]
        simp [StreamEvent.isDropped, hdone]
      all_goals simp
  | @drops held s hheld hdone =>
      have hemitted := h.emitted
      refine h.extend rfl rfl rfl ?_ ?_ ?_ ?_ ?_
      · rw [List.any_append, List.any_append, hemitted]
        rw [hemitted, h.kept hheld, Bool.false_and, Bool.or_false] at hdone
        cases hscanned : s.scanner.done with
        | false => simp [StreamEvent.isTerminal]
        | true => simp [hdone hscanned]
      all_goals simp

theorem tracked_start : Tracked json status [] (intoBoxedStream status) := by
  constructor
  · rfl
  · rfl
  · rfl
  · rfl
  all_goals simp [intoBoxedStream]

theorem Tracked.of_run (h : StreamRun json idleTimeout status log st) :
    Tracked json status log st :=
  h.invariant tracked_start fun _ _ _ _ _ _ hi _ hs => hi.step (hi.stepped hs)

/-! ## The event -/

/-- An element of two lists in a row stands in the first or in the second. -/
theorem mem_append_split {α : Type} {xs ys front back : List α} {x : α}
    (h : xs ++ ys = front ++ x :: back) :
    (∃ mid, xs = front ++ x :: mid ∧ back = mid ++ ys) ∨
      ∃ mid, front = xs ++ mid ∧ ys = mid ++ x :: back := by
  rw [List.append_eq_append_iff] at h
  cases h with
  | inl h =>
      obtain ⟨mid, hfront, hys⟩ := h
      exact Or.inr ⟨mid, hfront, hys⟩
  | inr h =>
      obtain ⟨mid, hxs, hback⟩ := h
      cases mid with
      | nil => exact Or.inr ⟨[], by simpa using hxs.symm, hback.symm⟩
      | cons y mid =>
          rw [List.cons_append, List.cons.injEq] at hback
          obtain ⟨rfl, hback⟩ := hback
          exact Or.inl ⟨mid, hxs, hback⟩

/-- The event of a stream: once, when the body is over or a finished stream is dropped, with
what the scanner has found by then; and no item behind an error. -/
structure Completes (json : Text → Option Json) (status : ℕ) (log : List StreamEvent) : Prop where
  once : log.countP StreamEvent.isCompleted ≤ 1
  exactly : (∃ c, .completed c ∈ log) ↔
    (∃ e, .met e ∈ log ∧ e.terminal = true) ∨
      (.dropped ∈ log ∧ (scannerOf json log).done = true)
  carries : ∀ front c back, log = front ++ .completed c :: back →
    c = completion status (scannerOf json front).last
  quiet : ∀ front error back, log = front ++ .item (.error error) :: back →
    ∀ result, .item result ∉ back

theorem not_completed {c : Completion} {xs front back : List StreamEvent}
    (h : ∀ x ∈ xs, x.isCompleted = false) : xs ≠ front ++ .completed c :: back := by
  intro heq
  have hfalse := h (.completed c) (by rw [heq]; simp)
  cases hfalse

/-- The event of a step is the second of what it does. -/
theorem completed_second {c c₀ : Completion} {x : StreamEvent} {xs front back : List StreamEvent}
    (hx : x.isCompleted = false) (hxs : ∀ y ∈ xs, y.isCompleted = false)
    (heq : x :: .completed c₀ :: xs = front ++ .completed c :: back) : front = [x] ∧ c = c₀ := by
  cases front with
  | nil =>
      rw [List.nil_append, List.cons.injEq] at heq
      rw [heq.1] at hx
      cases hx
  | cons y front =>
      rw [List.cons_append, List.cons.injEq] at heq
      obtain ⟨rfl, heq⟩ := heq
      cases front with
      | nil =>
          cases heq
          exact ⟨rfl, rfl⟩
      | cons z front =>
          rw [List.cons_append, List.cons.injEq] at heq
          exact absurd heq.2 (not_completed hxs)

theorem Stepped.carries {front back : List StreamEvent} {c : Completion}
    (h : Tracked json status log st) (hs : Stepped json st st' es)
    (heq : es = front ++ .completed c :: back) :
    c = completion status (scannerOf json (log ++ front)).last := by
  have hstate : ∀ x, StreamEvent.read json (scannerOf json log) x = scannerOf json log →
      completion st.state.status st.state.scanner.last =
        completion status (scannerOf json (log ++ [x])).last := by
    intro x hx
    rw [scannerOf_append, List.foldl_cons, List.foldl_nil, hx, h.status, h.scanner]
  cases hs with
  | asks _ => exact absurd heq (not_completed (by simp))
  | finishes _ => exact absurd heq (not_completed (by simp [StreamEvent.isCompleted]))
  | data bytes => exact absurd heq (not_completed (by simp [StreamEvent.isCompleted]))
  | nonData => exact absurd heq (not_completed (by simp [StreamEvent.isCompleted]))
  | @fails s e error hterminal hdata =>
      have hread : StreamEvent.read json (scannerOf json log) (.met e) = scannerOf json log := by
        cases e with
        | data bytes => exact absurd rfl (hdata bytes)
        | _ => rfl
      obtain ⟨rfl, rfl⟩ := completed_second rfl (by simp [StreamEvent.isCompleted]) heq
      exact hstate (.met e) hread
  | ends =>
      obtain ⟨rfl, rfl⟩ := completed_second rfl (by simp [StreamEvent.isCompleted]) heq
      exact hstate (.met .ended) rfl
  | dropsDone _ _ _ =>
      obtain ⟨rfl, rfl⟩ := completed_second rfl (by simp) heq
      exact hstate .dropped rfl
  | drops _ _ => exact absurd heq (not_completed (by simp [StreamEvent.isCompleted]))

/-- A stream that has failed yields no item. -/
theorem Stepped.silent {result : Except HttpError (List UInt8)} (h : Tracked json status log st)
    (hs : Stepped json st st' es) (herror : log.any StreamEvent.isError = true) :
    .item result ∉ es := by
  have hpoll : st.held ≠ .poll := by
    intro hheld
    have hopen := h.polled hheld
    rw [h.failed herror (by rw [hheld]; simp)] at hopen
    cases hopen
  cases hs with
  | asks _ => simp
  | finishes _ => simp
  | data bytes => exact absurd rfl hpoll
  | nonData => exact absurd rfl hpoll
  | fails _ _ => exact absurd rfl hpoll
  | ends => exact absurd rfl hpoll
  | dropsDone _ _ _ => simp
  | drops _ _ => simp

/-- An error is the last thing a step does. -/
theorem Stepped.error_last {front back : List StreamEvent} {error : HttpError}
    (hs : Stepped json st st' es) (heq : es = front ++ .item (.error error) :: back) :
    back = [] := by
  have hmem : .item (.error error) ∈ es := by
    rw [heq]
    simp
  cases hs with
  | @fails s e error' _ _ =>
      have hlength := congrArg List.length heq
      simp only [List.length_append, List.length_cons, List.length_nil] at hlength
      cases front with
      | nil => cases heq
      | cons x front =>
          cases front with
          | nil => cases heq
          | cons y front =>
              simp only [List.length_cons] at hlength
              exact List.length_eq_zero_iff.1 (by omega)
  | asks _ => simp at hmem
  | finishes _ => simp at hmem
  | data bytes => simp at hmem
  | nonData => simp at hmem
  | ends => simp at hmem
  | dropsDone _ _ _ => simp at hmem
  | drops _ _ => simp at hmem

theorem isError_of_mem {error : HttpError} (h : .item (.error error) ∈ log) :
    log.any StreamEvent.isError = true := List.any_eq_true.2 ⟨_, h, rfl⟩

theorem carries_run (h : StreamRun json idleTimeout status log st) :
    ∀ front c back, log = front ++ .completed c :: back →
      c = completion status (scannerOf json front).last := by
  induction h with
  | start =>
      intro front c back heq
      exact absurd heq (not_completed (by simp))
  | @snoc log es s s' a hrun _ hs ih =>
      have htracked := Tracked.of_run hrun
      intro front c back heq
      cases mem_append_split heq with
      | inl hold =>
          obtain ⟨mid, hlog, -⟩ := hold
          exact ih front c mid hlog
      | inr hnew =>
          obtain ⟨mid, rfl, hes⟩ := hnew
          exact (htracked.stepped hs).carries htracked hes

theorem quiet_run (h : StreamRun json idleTimeout status log st) :
    ∀ front error back, log = front ++ .item (.error error) :: back →
      ∀ result, .item result ∉ back := by
  induction h with
  | start =>
      intro front error back heq
      cases front <;> cases heq
  | @snoc log es s s' a hrun _ hs ih =>
      have htracked := Tracked.of_run hrun
      have hstepped := htracked.stepped hs
      intro front error back heq result
      cases mem_append_split heq with
      | inl hold =>
          obtain ⟨mid, hlog, rfl⟩ := hold
          have hmem : .item (.error error) ∈ log := by
            rw [hlog]
            simp
          have herror : log.any StreamEvent.isError = true := isError_of_mem hmem
          rw [List.mem_append, not_or]
          exact ⟨ih front error mid hlog result, hstepped.silent htracked herror⟩
      | inr hnew =>
          obtain ⟨mid, -, hes⟩ := hnew
          rw [hstepped.error_last hes]
          exact List.not_mem_nil

theorem any_completed : (∃ c, .completed c ∈ log) ↔ 0 < log.countP StreamEvent.isCompleted := by
  rw [List.countP_pos_iff]
  constructor
  · intro h
    obtain ⟨c, hc⟩ := h
    exact ⟨_, hc, rfl⟩
  · intro h
    obtain ⟨x, hx, hcompleted⟩ := h
    cases x with
    | completed c => exact ⟨c, hx⟩
    | _ => cases hcompleted

theorem any_terminal : (∃ e, .met e ∈ log ∧ e.terminal = true) ↔
    log.any StreamEvent.isTerminal = true := by
  rw [List.any_eq_true]
  constructor
  · intro h
    obtain ⟨e, he, hterminal⟩ := h
    exact ⟨_, he, hterminal⟩
  · intro h
    obtain ⟨x, hx, hterminal⟩ := h
    cases x with
    | met e => exact ⟨e, hx, hterminal⟩
    | _ => cases hterminal

theorem any_dropped : .dropped ∈ log ↔ log.any StreamEvent.isDropped = true := by
  rw [List.any_eq_true]
  constructor
  · intro h
    exact ⟨_, h, rfl⟩
  · intro h
    obtain ⟨x, hx, hdropped⟩ := h
    cases x with
    | dropped => exact hx
    | _ => cases hdropped

theorem stream_completes (h : StreamRun json idleTimeout status log st) :
    Completes json status log := by
  have htracked := Tracked.of_run h
  have hcount := htracked.count
  constructor
  · rw [hcount]
    split <;> omega
  · rw [any_completed, any_terminal, any_dropped, hcount, ← htracked.scanner, ← Bool.and_eq_true,
      ← Bool.or_eq_true, ← htracked.emitted]
    cases st.state.emitted <;> simp
  · exact carries_run h
  · exact quiet_run h

/-- The chunks up to the sentinel, and the stream dropped behind them. -/
def droppedAtDone : List StreamAction :=
  usageChunks.flatMap (fun chunk => [.poll, .meets (.data chunk)]) ++ [.drop]

theorem stream_completes_done : ∃ log st, StreamRun usageJson minute 200 log st ∧
    .completed ⟨200, 3, 2⟩ ∈ log ∧ Completes usageJson 200 log := by
  obtain ⟨log, st, hrun, hevent⟩ := StepRun.exists_free_run (streamStep usageJson minute)
    (intoBoxedStream 200) droppedAtDone
    (fun log _ => log.any fun x =>
      match x with
      | .completed c => c == ⟨200, 3, 2⟩
      | _ => false)
    (by decide +kernel)
  rw [List.any_eq_true] at hevent
  obtain ⟨x, hx, hcompleted⟩ := hevent
  refine ⟨log, st, hrun, ?_, stream_completes hrun⟩
  cases x with
  | completed c =>
      rw [beq_iff_eq] at hcompleted
      rw [← hcompleted]
      exact hx
  | _ => cases hcompleted

end Cja.Llm
