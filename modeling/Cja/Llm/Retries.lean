import Cja.Llm.Usage

/-!
# The attempt loop

`run_loop` sends a request again only where the attempt before it cannot have been billed
or was answered with a status that asks for it, within the attempts and the deadline of
the call. Instants and durations are nanoseconds, and an attempt takes what it takes. An
instant is bounded: a duration added to it panics where the sum is none.
-/
namespace Cja.Llm

/-! ## The body of an error -/

inductive BodyEnd
  | ended
  | failed
  /-- The deadline of the call passes first. -/
  | elapsed
deriving DecidableEq

/-- The frames of a body, without the bytes of those that are not data, and its end. -/
structure ReplyBody where
  frames : List (Option (List UInt8))
  ends : BodyEnd

/-- `read_capped`: the bytes read and whether the deadline passed. -/
def readCapped (ends : BodyEnd) : List (Option (List UInt8)) → List UInt8 → List UInt8 × Bool
  | [], buf => (buf, buf.length < maxErrorBody && ends == .elapsed)
  | some data :: frames, buf =>
      if buf.length < maxErrorBody then
        readCapped ends frames (buf ++ data.take (maxErrorBody - buf.length))
      else (buf, false)
  | none :: frames, buf =>
      if buf.length < maxErrorBody then readCapped ends frames buf else (buf, false)

def second : ℕ := 1000000000

/-- `read_error_body`; `retryAfter` is the header in seconds. -/
def readErrorBody (retryAfter : Option ℕ) (body : ReplyBody) : Option ErrorBody :=
  let r := readCapped body.ends body.frames []
  if r.2 then none
  else some ⟨fromUtf8Lossy r.1, retryAfter.map fun seconds => seconds * second⟩

/-! ## The loop -/

inductive Mode
  | unary
  | streaming
deriving DecidableEq

/-- What an attempt meets, and how long it takes. -/
structure Meeting where
  duration : ℕ
  connected : Connected
  built : Except LibraryText Unit
  sent : Sent
  retryAfter : Option ℕ
  body : ReplyBody
  collected : Collected

/-- In the streaming mode a success ends the attempt with its head. -/
def Meeting.attempt (mode : Mode) (requestTimeout : DurationText) (m : Meeting)
    (staleKeyAvailable : Bool) : Attempt where
  connected := m.connected
  built := m.built
  sent := m.sent
  errorBody := readErrorBody m.retryAfter m.body
  collected := if mode = .streaming then .complete else m.collected
  requestTimeout := requestTimeout
  staleKeyAvailable := staleKeyAvailable

structure RetryPolicy where
  maxAttempts : ℕ
  initialBackoff : ℕ
  maxBackoff : ℕ

/-- A draw between zero and a bound, for each attempt. -/
structure Jitter where
  draw : ℕ → ℕ → ℕ
  draw_le : ∀ attempt base, draw attempt base ≤ base

/-- A call that was begun at `begun`; `shown` is the request timeout as an error prints it. -/
structure Call where
  policy : RetryPolicy
  jitter : Jitter
  begun : ℕ
  requestTimeout : ℕ
  shown : DurationText
  connectTimeout : ℕ
  /-- The last instant that the platform represents. -/
  instantMax : ℕ
  mode : Mode
  bodyType : BodyType
  meets : ℕ → Meeting

def Call.deadline (c : Call) : ℕ := c.begun + c.requestTimeout

/-- `Instant + Duration`, which panics past the last instant. -/
def Call.plus (c : Call) (now duration : ℕ) : Option ℕ :=
  if now + duration ≤ c.instantMax then some (now + duration) else none

def u32Max : ℕ := 2 ^ 32 - 1

def durationMax : ℕ := 2 ^ 64 * second - 1

def RetryPolicy.backoff (policy : RetryPolicy) (attempt : ℕ) : ℕ :=
  min (min (policy.initialBackoff * min (2 ^ (attempt - 1)) u32Max) durationMax) policy.maxBackoff

def Call.delay (c : Call) (attempt : ℕ) : Option ℕ → ℕ
  | some after => min after c.policy.maxBackoff
  | none => c.jitter.draw attempt (c.policy.backoff attempt)

/-- `none` is the panic. -/
def retryableDelay (c : Call) (attempt : ℕ) (retryAfter : Option ℕ) (now : ℕ) :
    Option (Option ℕ) :=
  let delay := c.delay attempt retryAfter
  (c.plus now delay).map fun wake => if wake < c.deadline then some delay else none

/-- An attempt that was made, with the sleep after it. -/
structure Round where
  start : ℕ
  finish : ℕ
  meeting : Meeting
  staleKeyAvailable : Bool
  result : AttemptResult
  sleep : Option ℕ

inductive Outcome
  | returned (result : Except HttpError Unit)
  | panicked

structure Ran where
  rounds : List Round
  result : Outcome
  finish : ℕ

def Ran.after (round : Round) (r : Ran) : Ran := { r with rounds := round :: r.rounds }

/-- The loop is left with the last error. -/
def Call.leave (c : Call) (lastError : Option HttpError) (now : ℕ) : Ran :=
  ⟨[], .returned (.error
    (lastError.getD (.wrapped (TransportError.timeout c.shown).display))), now⟩

/-- An attempt whose connect panics sends nothing and is no round. -/
def attemptLoop (c : Call) : ℕ → ℕ → ℕ → Bool → Option HttpError → Ran
  | 0, _, now, _, lastError => c.leave lastError now
  | remaining + 1, attempt, now, staleKeyUsed, lastError =>
      if c.deadline ≤ now then c.leave lastError now
      else if c.plus now c.connectTimeout = none then ⟨[], .panicked, now⟩
      else
        let m := c.meets attempt
        let staleKeyAvailable := !staleKeyUsed && attempt < max c.policy.maxAttempts 1
        let result := runAttempt c.bodyType (m.attempt c.mode c.shown staleKeyAvailable)
        let round : Round := ⟨now, now + m.duration, m, staleKeyAvailable, result, none⟩
        match result with
        | .done => ⟨[round], .returned (.ok ()), round.finish⟩
        | .terminal error => (c.leave (some error) round.finish).after round
        | .retry error retryAfter staleKey =>
            match retryableDelay c attempt retryAfter round.finish with
            | none => ⟨[round], .panicked, round.finish⟩
            | some none => (c.leave (some error) round.finish).after round
            | some (some delay) =>
                (attemptLoop c remaining (attempt + 1) (round.finish + delay)
                  (staleKeyUsed || staleKey) (some error)).after
                  { round with sleep := if delay = 0 then none else some delay }

/-- `run_loop`, which comes to its first attempt at `now`. -/
def runLoop (c : Call) (now : ℕ) : Ran :=
  match c.plus c.begun c.requestTimeout with
  | none => ⟨[], .panicked, now⟩
  | some _ => attemptLoop c (max c.policy.maxAttempts 1) 1 now false none

/-! ## The discipline -/

variable {c : Call} {a : Attempt} {m : Meeting} {error : HttpError} {retryAfter : Option ℕ}
  {staleKey used : Bool} {remaining attempt now : ℕ} {lastError : Option HttpError}
  {bodyType : BodyType} {round : Round} {r : Ran}

def Round.ending (c : Call) (r : Round) : Ending :=
  (r.meeting.attempt c.mode c.shown r.staleKeyAvailable).ending

/-- The statuses that ask for another attempt. -/
def retriedStatus (bodyType : BodyType) (status : ℕ) (body : Text) : Prop :=
  status = 429 ∨ isServerError status = true ∨ isStaleVirtualKey bodyType status body = true

/-- The request was not sent, or its reply asks for another attempt. -/
inductive Again (bodyType : BodyType) : Ending → Prop
  | connectFailure : Again bodyType .connectFailure
  | queueReject : Again bodyType .queueReject
  | reply {status : ℕ} {body : Text} : retriedStatus bodyType status body →
      Again bodyType (.reply status body)

theorem classifyStatus_again {status : ℕ} {body : ErrorBody} {available : Bool}
    {error' : HttpError}
    (h : classifyStatus bodyType status body available error' = .retry error retryAfter staleKey) :
    retriedStatus bodyType status body.text ∧ (staleKey = true → available = true) := by
  unfold classifyStatus at h
  split at h
  · rename_i hstatus
    rw [Bool.or_eq_true, beq_iff_eq] at hstatus
    cases h
    constructor
    · cases hstatus with
      | inl hmany => exact Or.inl hmany
      | inr hserver => exact Or.inr (Or.inl hserver)
    · intro hfalse
      cases hfalse
  · split at h
    · rename_i hstale
      rw [Bool.and_eq_true] at hstale
      cases h
      exact ⟨Or.inr (Or.inr hstale.2), fun _ => hstale.1⟩
    · cases h

theorem Came.again {available : Bool} {ending : Ending} {result : AttemptResult}
    (h : Came bodyType available ending result)
    (hretry : result = .retry error retryAfter staleKey) :
    Again bodyType ending ∧ (staleKey = true → available = true) := by
  cases h with
  | connectTimeout | connect =>
      cases hretry
      exact ⟨.connectFailure, fun hfalse => by cases hfalse⟩
  | queueReject =>
      cases hretry
      exact ⟨.queueReject, fun hfalse => by cases hfalse⟩
  | build | postQueue | timeout | done => cases hretry
  | reply status body =>
      obtain ⟨hagain, havailable⟩ := classifyStatus_again hretry
      exact ⟨.reply hagain, havailable⟩

theorem runAttempt_again (h : runAttempt bodyType a = .retry error retryAfter staleKey) :
    Again bodyType a.ending ∧ (staleKey = true → a.staleKeyAvailable = true) :=
  (runAttempt_came bodyType a).again h

def AttemptResult.error? : AttemptResult → Option HttpError
  | .done => none
  | .retry error _ _ => some error
  | .terminal error => some error

def AttemptResult.isStaleRetry : AttemptResult → Bool
  | .retry _ _ staleKey => staleKey
  | .done | .terminal _ => false

/-- What holds of the rounds of a call. `safe` is what is asked of a round that another
one follows. -/
structure Careful (c : Call) (limit : ℕ) (safe : Round → Prop) (rounds : List Round) : Prop where
  attempts : rounds.length ≤ limit
  further : ∀ i round next, rounds[i]? = some round → rounds[i + 1]? = some next → safe round
  starts : ∀ round ∈ rounds, round.start < c.deadline
  sleeps : ∀ round ∈ rounds, ∀ delay, round.sleep = some delay → round.finish + delay < c.deadline

/-- An error after an attempt is the error of the last one. -/
def Ran.Reports (r : Ran) : Prop :=
  ∀ error, r.result = .returned (.error error) → r.rounds ≠ [] →
    ∃ last, r.rounds.getLast? = some last ∧ last.result.error? = some error

/-- A sum that is no instant: the deadline, the connect timeout after an instant before
it, or the longest backoff after the last attempt. -/
def Ran.Overflows (c : Call) (r : Ran) : Prop :=
  c.instantMax < c.deadline ∨ (∃ now < c.deadline, c.instantMax < now + c.connectTimeout) ∨
    ∃ last, r.rounds.getLast? = some last ∧ c.instantMax < last.finish + c.policy.maxBackoff

def staleRetries (rounds : List Round) : ℕ := rounds.countP fun r => r.result.isStaleRetry

/-- The discipline of a call. -/
structure RetryDiscipline (c : Call) (safe : Round → Prop) (r : Ran) : Prop where
  careful : Careful c (max 1 c.policy.maxAttempts) safe r.rounds
  staleOnce : staleRetries r.rounds ≤ 1
  reports : r.Reports
  overflows : r.result = .panicked → r.Overflows c

theorem Careful.single {safe : Round → Prop} (hstart : round.start < c.deadline)
    (hsleep : round.sleep = none) : Careful c (remaining + 1) safe [round] := by
  constructor
  · rw [List.length_singleton]
    omega
  · intro i r next _ hnext
    cases hnext
  · intro r hr
    rw [List.mem_singleton.1 hr]
    exact hstart
  · intro r hr delay hdelay
    rw [List.mem_singleton.1 hr, hsleep] at hdelay
    cases hdelay

theorem Careful.cons {safe : Round → Prop} {rounds : List Round}
    (h : Careful c remaining safe rounds) (hstart : round.start < c.deadline)
    (hsafe : safe round)
    (hsleep : ∀ delay, round.sleep = some delay → round.finish + delay < c.deadline) :
    Careful c (remaining + 1) safe (round :: rounds) := by
  constructor
  · rw [List.length_cons]
    have := h.attempts
    omega
  · intro i r next hr hnext
    cases i with
    | zero => cases hr; exact hsafe
    | succ i => exact h.further i r next hr hnext
  · intro r hr
    cases List.mem_cons.1 hr with
    | inl hr => rw [hr]; exact hstart
    | inr hr => exact h.starts r hr
  · intro r hr
    cases List.mem_cons.1 hr with
    | inl hr => rw [hr]; exact hsleep
    | inr hr => exact h.sleeps r hr

/-- Before any round, a loop that returns reports the error it was given. -/
structure Ends (c : Call) (lastError : Option HttpError) (r : Ran) : Prop where
  carried : r.rounds = [] → ∀ error, r.result = .returned (.error error) →
    error = lastError.getD (.wrapped (TransportError.timeout c.shown).display)
  reports : r.Reports
  overflows : r.result = .panicked → r.Overflows c

theorem Ends.leave : Ends c lastError (c.leave lastError now) := by
  refine ⟨fun _ error herror => ?_, fun _ _ hrounds => absurd rfl hrounds, fun hpanic => ?_⟩
  · cases herror
    rfl
  · cases hpanic

theorem Ran.after_getLast? (round : Round) (h : r.rounds ≠ []) :
    (r.after round).rounds.getLast? = r.rounds.getLast? := by
  unfold Ran.after
  cases hrounds : r.rounds with
  | nil => exact absurd hrounds h
  | cons first others => exact List.getLast?_cons_cons

theorem Ran.Overflows.after (h : r.Overflows c) (round : Round) : (r.after round).Overflows c := by
  obtain hdeadline | hconnect | ⟨last, hlast, hpast⟩ := h
  · exact Or.inl hdeadline
  · exact Or.inr (Or.inl hconnect)
  · have hrounds : r.rounds ≠ [] := by
      intro hnil
      rw [hnil] at hlast
      cases hlast
    exact Or.inr (Or.inr ⟨last, (after_getLast? round hrounds).trans hlast, hpast⟩)

/-- A round before a loop that was given its error. -/
theorem Ends.after (h : Ends c (some error) r) (hround : round.result.error? = some error) :
    Ends c lastError (r.after round) := by
  refine ⟨fun hnil => ?_, fun e he _ => ?_, fun hpanic => (h.overflows hpanic).after round⟩
  · cases hnil
  · by_cases hrounds : r.rounds = []
    · have hsame : e = error := h.carried hrounds e he
      refine ⟨round, ?_, hround.trans (congrArg some hsame.symm)⟩
      unfold Ran.after
      rw [hrounds]
      rfl
    · obtain ⟨last, hlast, herror⟩ := h.reports e he hrounds
      exact ⟨last, (Ran.after_getLast? round hrounds).trans hlast, herror⟩

theorem Call.plus_eq_none {duration : ℕ} :
    c.plus now duration = none ↔ c.instantMax < now + duration := by
  unfold Call.plus
  split <;> simp <;> omega

theorem RetryPolicy.backoff_le (policy : RetryPolicy) (attempt : ℕ) :
    policy.backoff attempt ≤ policy.maxBackoff := Nat.min_le_right _ _

theorem Call.delay_le (c : Call) (attempt : ℕ) (retryAfter : Option ℕ) :
    c.delay attempt retryAfter ≤ c.policy.maxBackoff := by
  cases retryAfter with
  | some after => exact Nat.min_le_right _ _
  | none => exact (c.jitter.draw_le _ _).trans (c.policy.backoff_le attempt)

theorem retryableDelay_panics (h : retryableDelay c attempt retryAfter now = none) :
    c.instantMax < now + c.policy.maxBackoff := by
  have hplus : c.plus now (c.delay attempt retryAfter) = none := Option.map_eq_none_iff.1 h
  have hpast := Call.plus_eq_none.1 hplus
  have hle := c.delay_le attempt retryAfter
  omega

theorem retryableDelay_lt {delay : ℕ}
    (h : retryableDelay c attempt retryAfter now = some (some delay)) :
    now + delay < c.deadline := by
  simp only [retryableDelay, Option.map_eq_some_iff] at h
  obtain ⟨wake, hplus, hwake⟩ := h
  unfold Call.plus at hplus
  split at hplus
  · cases hplus
    split at hwake
    · rename_i hlt
      cases hwake
      exact hlt
    · cases hwake
  · cases hplus

/-- What a loop keeps that begins with the stale key used or not. -/
structure Kept (c : Call) (remaining : ℕ) (used : Bool) (lastError : Option HttpError)
    (r : Ran) : Prop where
  careful : Careful c remaining (fun r => Again c.bodyType (r.ending c)) r.rounds
  staleOnce : staleRetries r.rounds ≤ if used then 0 else 1
  ends : Ends c lastError r

theorem Kept.leave : Kept c remaining used lastError (c.leave lastError now) := by
  refine ⟨⟨Nat.zero_le _, ?_, ?_, ?_⟩, Nat.zero_le _, Ends.leave⟩
  · intro i r next hr _
    cases hr
  · intro r hr
    cases hr
  · intro r hr
    cases hr

/-- The connect of an attempt panics. -/
theorem Kept.connectPanic (hstart : now < c.deadline)
    (hplus : c.plus now c.connectTimeout = none) :
    Kept c remaining used lastError ⟨[], .panicked, now⟩ := by
  have hleave : Kept c remaining used lastError (c.leave lastError now) := Kept.leave
  refine ⟨hleave.careful, hleave.staleOnce, ⟨fun _ error herror => ?_, ?_, fun _ => ?_⟩⟩
  · cases herror
  · intro error herror
    cases herror
  · exact Or.inr (Or.inl ⟨now, hstart, Call.plus_eq_none.1 hplus⟩)

theorem staleRetries_cons (round : Round) (rounds : List Round) :
    staleRetries (round :: rounds) =
      staleRetries rounds + if round.result.isStaleRetry then 1 else 0 := List.countP_cons

theorem staleRetries_single (hstale : round.result.isStaleRetry = true → used = false) :
    staleRetries [round] ≤ if used then 0 else 1 := by
  rw [staleRetries_cons]
  cases hretry : round.result.isStaleRetry with
  | false => simp [staleRetries]
  | true =>
      rw [hstale hretry]
      simp [staleRetries]

/-- A last round that fails. -/
theorem Kept.last (hstart : round.start < c.deadline) (hsleep : round.sleep = none)
    (hround : round.result.error? = some error)
    (hstale : round.result.isStaleRetry = true → used = false) :
    Kept c (remaining + 1) used lastError ((c.leave (some error) now).after round) :=
  ⟨Careful.single hstart hsleep, staleRetries_single hstale, Ends.leave.after hround⟩

/-- A last round after which the delay panics. -/
theorem Kept.delayPanic (hstart : round.start < c.deadline) (hsleep : round.sleep = none)
    (hpast : c.instantMax < round.finish + c.policy.maxBackoff)
    (hstale : round.result.isStaleRetry = true → used = false) :
    Kept c (remaining + 1) used lastError ⟨[round], .panicked, now⟩ := by
  refine ⟨Careful.single hstart hsleep, staleRetries_single hstale, ⟨fun hnil => ?_, ?_, ?_⟩⟩
  · cases hnil
  · intro error herror
    cases herror
  · exact fun _ => Or.inr (Or.inr ⟨round, rfl, hpast⟩)

/-- A round that another loop follows, begun with the stale key it left. -/
theorem Kept.after (h : Kept c remaining (used || round.result.isStaleRetry) (some error) r)
    (hstart : round.start < c.deadline) (hagain : Again c.bodyType (round.ending c))
    (hsleep : ∀ delay, round.sleep = some delay → round.finish + delay < c.deadline)
    (hround : round.result.error? = some error)
    (hstale : round.result.isStaleRetry = true → used = false) :
    Kept c (remaining + 1) used lastError (r.after round) := by
  refine ⟨h.careful.cons hstart hagain hsleep, ?_, h.ends.after hround⟩
  have hcount := h.staleOnce
  change staleRetries (round :: r.rounds) ≤ _
  rw [staleRetries_cons]
  cases hretry : round.result.isStaleRetry with
  | false =>
      rw [hretry, Bool.or_false] at hcount
      simpa using hcount
  | true =>
      rw [hretry, hstale hretry] at hcount
      rw [hstale hretry]
      simpa using hcount

/-- Every loop, from any attempt on. -/
theorem attemptLoop_kept (c : Call) (remaining attempt now : ℕ) (used : Bool)
    (lastError : Option HttpError) :
    Kept c remaining used lastError (attemptLoop c remaining attempt now used lastError) := by
  induction remaining generalizing attempt now used lastError with
  | zero => exact Kept.leave
  | succ remaining ih =>
      unfold attemptLoop
      by_cases hdeadline : c.deadline ≤ now
      · rw [if_pos hdeadline]
        exact Kept.leave
      · rw [if_neg hdeadline]
        have hstart : now < c.deadline := by omega
        by_cases hconnect : c.plus now c.connectTimeout = none
        · rw [if_pos hconnect]
          exact Kept.connectPanic hstart hconnect
        rw [if_neg hconnect]
        dsimp only
        generalize havailable : (!used && decide (attempt < max c.policy.maxAttempts 1)) = available
        cases hresult : runAttempt c.bodyType
            ((c.meets attempt).attempt c.mode c.shown available) with
        | done =>
            refine ⟨Careful.single hstart rfl, staleRetries_single ?_, ⟨fun hnil => ?_, ?_, ?_⟩⟩
            · intro hfalse
              cases hfalse
            · cases hnil
            · intro error hok
              cases hok
            · intro hpanic
              cases hpanic
        | terminal error =>
            exact Kept.last hstart rfl rfl (fun hfalse => by cases hfalse)
        | retry error retryAfter staleKey =>
            obtain ⟨hagain, hstale⟩ := runAttempt_again hresult
            have hunused : staleKey = true → used = false := by
              intro hkey
              have hfree := hstale hkey
              change available = true at hfree
              rw [← havailable, Bool.and_eq_true, Bool.not_eq_true'] at hfree
              exact hfree.1
            dsimp only
            cases hdelay : retryableDelay c attempt retryAfter
                (now + (c.meets attempt).duration) with
            | none => exact Kept.delayPanic hstart rfl (retryableDelay_panics hdelay) hunused
            | some pause =>
                cases pause with
                | none => exact Kept.last hstart rfl rfl hunused
                | some delay =>
                    have hrest := ih (attempt + 1) (now + (c.meets attempt).duration + delay)
                      (used || staleKey) (some error)
                    refine Kept.after hrest hstart hagain (fun d hd => ?_) rfl hunused
                    dsimp only at hd
                    split at hd
                    · cases hd
                    · cases hd
                      exact retryableDelay_lt hdelay

/-- Every call, with any policy, against any gateway. -/
theorem runLoop_disciplined (c : Call) (now : ℕ) :
    RetryDiscipline c (fun r => Again c.bodyType (r.ending c)) (runLoop c now) := by
  unfold runLoop
  cases hplus : c.plus c.begun c.requestTimeout with
  | none =>
      have hpast : c.instantMax < c.deadline := Call.plus_eq_none.1 hplus
      have hleave : Kept c (max 1 c.policy.maxAttempts) false none (c.leave none now) := Kept.leave
      refine ⟨hleave.careful, Nat.zero_le _, ?_, fun _ => Or.inl hpast⟩
      intro error herror
      cases herror
  | some deadline =>
      have hkept := attemptLoop_kept c (max c.policy.maxAttempts 1) 1 now false none
      refine ⟨?_, hkept.staleOnce, hkept.ends.reports, hkept.ends.overflows⟩
      rw [max_comm]
      exact hkept.careful

/-- The same, where the reply is complete. -/
def Round.AgainComplete (c : Call) (r : Round) : Prop :=
  Again c.bodyType (r.ending c) ∧
    ∀ status body, r.ending c = .reply status body → r.meeting.body.ends = .ended

/-- A 503 whose body breaks off, and then an answer. -/
def brokenBody : Call where
  policy := ⟨3, 500000000, 10 * second⟩
  jitter := ⟨fun _ _ => 0, fun _ _ => Nat.zero_le _⟩
  begun := 0
  requestTimeout := 60 * second
  shown := minute
  connectTimeout := 5 * second
  instantMax := 2 ^ 63 * second - 1
  mode := .unary
  bodyType := fun _ => none
  meets := fun attempt =>
    if attempt = 1 then
      ⟨second, .ready, .ok (), .response 503, none, ⟨[some (asciiBytes "busy".toList)], .failed⟩,
        .complete⟩
    else ⟨second, .ready, .ok (), .response 200, none, ⟨[], .ended⟩, .complete⟩

/-- A 429 that asks for all the time there is, which no maximum of the policy cuts. -/
def endlessBackoff : Call where
  policy := ⟨3, 500000000, durationMax⟩
  jitter := ⟨fun _ _ => 0, fun _ _ => Nat.zero_le _⟩
  begun := 0
  requestTimeout := 60 * second
  shown := minute
  connectTimeout := 5 * second
  instantMax := 2 ^ 63 * second - 1
  mode := .unary
  bodyType := fun _ => none
  meets := fun _ =>
    ⟨second, .ready, .ok (), .response 429, some (2 ^ 64 - 1), ⟨[], .ended⟩, .complete⟩

theorem runLoop_incomplete :
    (¬RetryDiscipline brokenBody (Round.AgainComplete brokenBody) (runLoop brokenBody 0)) ∧
      (runLoop endlessBackoff 0).rounds.length = 1 ∧
        (runLoop endlessBackoff 0).result = .panicked := by
  refine ⟨fun h => ?_, rfl, rfl⟩
  have hfirst := h.careful.further 0 _ _ rfl rfl
  have hended := hfirst.2 503 "busy".toList (by decide +kernel)
  cases hended

end Cja.Llm
