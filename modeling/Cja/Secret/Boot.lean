import Cja.Secret.Refresher

/-!
# Fetching a secret at boot

`fetch_at_boot` asks for a secret until it has an answer that another request would
not change, or the boot timeout runs out. Times are nanoseconds and the timers are
ideal: a request that is not answered at the deadline ends there, a sleep takes what
it is given. The deadline stands around the request and before the sleep; the first
reports the timeout without the failure before it, and `Answers` says when it does not
come to that.
-/
namespace Cja.Secret

/-! ## The function -/

/-- Every error of the client; a refresh meets no invalid URL. -/
inductive SourceError
  | setec (error : SetecError)
  | invalidUrl (text : String)
deriving Repr, DecidableEq

/-- `is_retryable` -/
def SourceError.isRetryable : SourceError → Bool
  | .setec (.transport _) => true
  | .setec (.server status _) => 500 ≤ status && status < 600
  | .setec .notFound | .setec .accessDenied | .setec .versionClaimed
  | .setec (.invalidRequest _) | .setec (.decode _) | .invalidUrl _ => false

inductive BootError
  | setec (name : String) (source : SourceError)
  | bootTimeout (name : String) (timeout : ℕ) (last : Option SourceError)
deriving Repr, DecidableEq

/-- One request: how long it takes, if it is ever answered, and the answer. -/
structure Attempt where
  duration : Option ℕ
  answer : Except SourceError SecretValue

def millis (n : ℕ) : ℕ := n * 1000000

def initialRetryWait : ℕ := millis 250

def maxRetryWait : ℕ := millis 4000

/-- `timeout_at`: the moment of the answer, if it comes by the deadline. -/
def timeoutAt (deadline now : ℕ) (attempt : Attempt) :
    Option (ℕ × Except SourceError SecretValue) :=
  attempt.duration.bind fun duration =>
    if now + duration ≤ deadline then some (now + duration, attempt.answer) else none

/-- A request with the wait after it. -/
structure Round where
  start : ℕ
  finish : ℕ
  answer : Option (Except SourceError SecretValue)
  wait : Option ℕ
deriving Repr

/-- What the function did, what it returns, and when. -/
structure Fetched where
  rounds : List Round
  result : Except BootError SecretValue
  finish : ℕ
deriving Repr

def Fetched.after (round : Round) (f : Fetched) : Fetched := { f with rounds := round :: f.rounds }

/-- The loop from attempt `n` on, at `now`, with the wait it has come to. -/
def fetchLoop (name : String) (timeout deadline : ℕ) (source : ℕ → Attempt) :
    ℕ → ℕ → ℕ → ℕ → Option Fetched
  | 0, _, _, _ => none
  | fuel + 1, n, now, wait =>
      match timeoutAt deadline now (source n) with
      | some (finish, .ok value) => some ⟨[⟨now, finish, some (.ok value), none⟩], .ok value, finish⟩
      | some (finish, .error error) =>
          if !error.isRetryable then
            some ⟨[⟨now, finish, some (.error error), none⟩], .error (.setec name error), finish⟩
          else if finish + wait ≥ deadline then
            some ⟨[⟨now, finish, some (.error error), none⟩],
              .error (.bootTimeout name timeout (some error)), finish⟩
          else
            (fetchLoop name timeout deadline source fuel (n + 1) (finish + wait)
              (min (wait * 2) maxRetryWait)).map
              (Fetched.after ⟨now, finish, some (.error error), some wait⟩)
      | none => some ⟨[⟨now, deadline, none, none⟩], .error (.bootTimeout name timeout none), deadline⟩

/-- `fetch_at_boot`, begun at `now`. Every sleep takes time, so there are no more rounds
than the timeout has nanoseconds. Ideal timers have no last instant: with a timeout such as
`Duration::MAX` the program panics before the first request, where `Instant::now() + timeout`
has no value. -/
def fetchAtBoot (name : String) (timeout : ℕ) (source : ℕ → Attempt) (now : ℕ) : Option Fetched :=
  fetchLoop name timeout (now + timeout) source (timeout + 1) 0 now initialRetryWait

/-! ## The course of a fetch -/

variable {name : String} {timeout deadline now t₀ : ℕ} {source : ℕ → Attempt} {n : ℕ} {f : Fetched}

/-- The wait after attempt `n`. -/
def waitAfter (n : ℕ) : ℕ := min (initialRetryWait * 2 ^ n) maxRetryWait

theorem waitAfter_zero : waitAfter 0 = initialRetryWait := by decide

theorem waitAfter_succ (n : ℕ) : waitAfter (n + 1) = min (waitAfter n * 2) maxRetryWait := by
  unfold waitAfter
  rw [pow_succ, ← mul_assoc]
  omega

theorem waitAfter_pos (n : ℕ) : 0 < waitAfter n := by
  have hpow : 0 < 2 ^ n := Nat.two_pow_pos n
  unfold waitAfter initialRetryWait maxRetryWait millis
  omega

/-- How a fetch goes on from attempt `n`. -/
inductive Course (name : String) (timeout deadline : ℕ) (source : ℕ → Attempt) :
    ℕ → ℕ → Fetched → Prop
  | value {n now finish : ℕ} {value : SecretValue} :
      timeoutAt deadline now (source n) = some (finish, .ok value) →
      Course name timeout deadline source n now
        ⟨[⟨now, finish, some (.ok value), none⟩], .ok value, finish⟩
  | permanent {n now finish : ℕ} {error : SourceError} :
      timeoutAt deadline now (source n) = some (finish, .error error) →
      error.isRetryable = false →
      Course name timeout deadline source n now
        ⟨[⟨now, finish, some (.error error), none⟩], .error (.setec name error), finish⟩
  | noTime {n now finish : ℕ} {error : SourceError} :
      timeoutAt deadline now (source n) = some (finish, .error error) →
      error.isRetryable = true → deadline ≤ finish + waitAfter n →
      Course name timeout deadline source n now
        ⟨[⟨now, finish, some (.error error), none⟩],
          .error (.bootTimeout name timeout (some error)), finish⟩
  | unanswered {n now : ℕ} : timeoutAt deadline now (source n) = none →
      Course name timeout deadline source n now
        ⟨[⟨now, deadline, none, none⟩], .error (.bootTimeout name timeout none), deadline⟩
  | retry {n now finish : ℕ} {error : SourceError} {rest : Fetched} :
      timeoutAt deadline now (source n) = some (finish, .error error) →
      error.isRetryable = true → finish + waitAfter n < deadline →
      Course name timeout deadline source (n + 1) (finish + waitAfter n) rest →
      Course name timeout deadline source n now
        (rest.after ⟨now, finish, some (.error error), some (waitAfter n)⟩)

theorem timeoutAt_some {attempt : Attempt} {finish : ℕ} {answer : Except SourceError SecretValue}
    (h : timeoutAt deadline now attempt = some (finish, answer)) :
    attempt.answer = answer ∧ now ≤ finish ∧ finish ≤ deadline ∧
      ∃ duration, attempt.duration = some duration ∧ finish = now + duration := by
  unfold timeoutAt at h
  rw [Option.bind_eq_some_iff] at h
  obtain ⟨duration, hduration, h⟩ := h
  split at h
  · cases h
    exact ⟨rfl, by omega, by omega, duration, hduration, rfl⟩
  · cases h

theorem timeoutAt_of_answered {attempt : Attempt} {duration : ℕ}
    (h : attempt.duration = some duration) (hin : now + duration ≤ deadline) :
    timeoutAt deadline now attempt = some (now + duration, attempt.answer) := by
  unfold timeoutAt
  rw [h, Option.bind_some, if_pos hin]

/-- With a round for each nanosecond the loop comes to its end. -/
theorem fetchLoop_course (fuel : ℕ) (hnow : now ≤ deadline) (hfuel : deadline < now + fuel) :
    ∃ f, fetchLoop name timeout deadline source fuel n now (waitAfter n) = some f ∧
      Course name timeout deadline source n now f := by
  induction fuel generalizing n now with
  | zero => omega
  | succ fuel ih =>
      unfold fetchLoop
      cases hattempt : timeoutAt deadline now (source n) with
      | none => exact ⟨_, rfl, .unanswered hattempt⟩
      | some answered =>
          obtain ⟨finish, answer⟩ := answered
          have hfinish := (timeoutAt_some hattempt).2.1
          cases answer with
          | ok value => exact ⟨_, rfl, .value hattempt⟩
          | error error =>
              cases hretry : error.isRetryable with
              | false =>
                  refine ⟨_, ?_, .permanent hattempt hretry⟩
                  simp only [hretry, Bool.not_false, if_true]
              | true =>
                  by_cases hwait : deadline ≤ finish + waitAfter n
                  · refine ⟨_, ?_, .noTime hattempt hretry hwait⟩
                    simp only [hretry, Bool.not_true, Bool.false_eq_true, if_false,
                      ge_iff_le, if_pos hwait]
                  · have hpos := waitAfter_pos n
                    obtain ⟨rest, hrest, hcourse⟩ :=
                      @ih (finish + waitAfter n) (n + 1) (by omega) (by omega)
                    refine ⟨_, ?_, .retry hattempt hretry (by omega) hcourse⟩
                    simp only [hretry, Bool.not_true, Bool.false_eq_true, if_false,
                      ge_iff_le, if_neg hwait, ← waitAfter_succ, hrest, Option.map_some]

/-! ## The discipline -/

def Round.failure (r : Round) : Option SourceError :=
  match r.answer with
  | some (.error error) => some error
  | some (.ok _) | none => none

/-- The most recent failure. -/
def lastFailure (rounds : List Round) : Option SourceError :=
  (rounds.filterMap Round.failure).getLast?

def Round.retries (r : Round) : Prop := ∃ error, r.failure = some error ∧ error.isRetryable = true

/-- Rounds from attempt `n` on: only a retryable failure is followed by a wait, the wait
for its turn, and by another request, which begins before the deadline. -/
structure Paced (deadline n : ℕ) (rounds : List Round) : Prop where
  waits : ∀ i round, rounds[i]? = some round → ∀ wait, round.wait = some wait →
    round.retries ∧ wait = min (millis 250 * 2 ^ (n + i)) (millis 4000)
  follows : ∀ i round next, rounds[i]? = some round → rounds[i + 1]? = some next →
    round.retries ∧ (∃ wait, round.wait = some wait ∧ next.start = round.finish + wait) ∧
      next.start < deadline

/-- What is asked of a fetch that begins at `t₀`. -/
structure Disciplined (timeout t₀ : ℕ) (f : Fetched) : Prop where
  returns : f.finish ≤ t₀ + timeout
  paced : Paced (t₀ + timeout) 0 f.rounds
  lastError : ∀ name timeout last, f.result = .error (.bootTimeout name timeout last) →
    lastFailure f.rounds ≠ none → last = lastFailure f.rounds

theorem Paced.single (r : Round) (h : r.wait = none) : Paced deadline n [r] where
  waits := by
    intro i round hround wait hwait
    cases i with
    | zero => cases hround; rw [h] at hwait; cases hwait
    | succ i => cases hround
  follows := by
    intro i round next _ hnext
    cases hnext

theorem Course.rounds_start (h : Course name timeout deadline source n now f) :
    ∃ r rest, f.rounds = r :: rest ∧ r.start = now := by
  cases h <;> exact ⟨_, _, rfl, rfl⟩

theorem Course.finish_le (h : Course name timeout deadline source n now f) :
    f.finish ≤ deadline := by
  induction h with
  | value hat => exact (timeoutAt_some hat).2.2.1
  | permanent hat _ => exact (timeoutAt_some hat).2.2.1
  | noTime hat _ _ => exact (timeoutAt_some hat).2.2.1
  | unanswered _ => exact le_refl _
  | retry _ _ _ _ ih => exact ih

theorem Course.paced (h : Course name timeout deadline source n now f) :
    Paced deadline n f.rounds := by
  induction h with
  | value _ => exact Paced.single _ rfl
  | permanent _ _ => exact Paced.single _ rfl
  | noTime _ _ _ => exact Paced.single _ rfl
  | unanswered _ => exact Paced.single _ rfl
  | @retry n now finish error rest _ hretry hbefore hrest ih =>
      have hturn : ∀ i, n + 1 + i = n + (i + 1) := by omega
      obtain ⟨first, others, hrounds, hstart⟩ := hrest.rounds_start
      constructor
      · intro i round hround wait hwait
        cases i with
        | zero =>
            cases hround
            cases hwait
            exact ⟨⟨error, rfl, hretry⟩, rfl⟩
        | succ i =>
            rw [← hturn]
            exact ih.waits i round hround wait hwait
      · intro i round next hround hnext
        cases i with
        | zero =>
            have hfirst : next = first := by
              have hhead : rest.rounds[0]? = some next := hnext
              rw [hrounds] at hhead
              cases hhead
              rfl
            cases hround
            rw [hfirst, hstart]
            exact ⟨⟨error, rfl, hretry⟩, ⟨waitAfter n, rfl, rfl⟩, hbefore⟩
        | succ i => exact ih.follows i round next hround hnext

/-! ## The failure it reports -/

/-- How long a request takes that fails and may be tried again. -/
def Attempt.failsIn (attempt : Attempt) : Option ℕ :=
  match attempt.answer with
  | .error error => if error.isRetryable then attempt.duration else none
  | .ok _ => none

/-- When attempt `n + k` begins if attempt `n` begins at `now`: the requests from `n` on
fail, and the waits come after them. -/
def begins (source : ℕ → Attempt) : ℕ → ℕ → ℕ → Option ℕ
  | _, now, 0 => some now
  | n, now, k + 1 => (source n).failsIn.bind fun duration =>
      begins source (n + 1) (now + duration + waitAfter n) k

def Attempt.answeredBy (attempt : Attempt) (deadline start : ℕ) : Prop :=
  ∃ duration, attempt.duration = some duration ∧ start + duration ≤ deadline

/-- No attempt that comes after failures is left unanswered at the deadline. -/
def Answers (timeout t₀ : ℕ) (source : ℕ → Attempt) : Prop :=
  ∀ k start, begins source 0 t₀ (k + 1) = some start → start < t₀ + timeout →
    (source (k + 1)).answeredBy (t₀ + timeout) start

theorem failsIn_some {attempt : Attempt} {duration : ℕ} (h : attempt.failsIn = some duration) :
    attempt.duration = some duration ∧
      ∃ error, attempt.answer = .error error ∧ error.isRetryable = true := by
  unfold Attempt.failsIn at h
  cases hanswer : attempt.answer with
  | ok value => rw [hanswer] at h; cases h
  | error error =>
      rw [hanswer] at h
      cases hretry : error.isRetryable with
      | false => simp [hretry] at h
      | true =>
          simp only [hretry, if_true] at h
          exact ⟨h, error, rfl, hretry⟩

theorem begins_succ {finish : ℕ} {error : SourceError}
    (hat : timeoutAt deadline now (source n) = some (finish, .error error))
    (hretry : error.isRetryable = true) (k : ℕ) :
    begins source n now (k + 1) = begins source (n + 1) (finish + waitAfter n) k := by
  obtain ⟨hanswer, -, -, duration, hduration, heq⟩ := timeoutAt_some hat
  have hfails : (source n).failsIn = some duration := by
    unfold Attempt.failsIn
    rw [hanswer]
    simp only [hretry, if_true, hduration]
  rw [begins, hfails, Option.bind_some, heq]

theorem begins_le {k start : ℕ} (h : begins source n now k = some start) : now ≤ start := by
  induction k generalizing n now with
  | zero => cases h; exact le_refl _
  | succ k ih =>
      unfold begins at h
      rw [Option.bind_eq_some_iff] at h
      obtain ⟨duration, _, h⟩ := h
      have := ih h
      omega

theorem timeoutAt_none {attempt : Attempt} (h : ¬attempt.answeredBy deadline now) :
    timeoutAt deadline now attempt = none := by
  cases hat : timeoutAt deadline now attempt with
  | none => rfl
  | some answered =>
      obtain ⟨-, -, hin, duration, hduration, heq⟩ := timeoutAt_some hat
      exact absurd ⟨duration, hduration, heq ▸ hin⟩ h

/-- Failures lead to the attempt that `begins` names; if it is not answered, the timeout
is reported without them. -/
theorem Course.stalls {k start : ℕ} (h : Course name timeout deadline source n now f)
    (hbegins : begins source n now k = some start) (hstart : start < deadline)
    (hstalls : ¬(source (n + k)).answeredBy deadline start) :
    f.result = .error (.bootTimeout name timeout none) := by
  induction k generalizing n now f with
  | zero =>
      cases hbegins
      have hnone : timeoutAt deadline start (source n) = none := timeoutAt_none hstalls
      cases h with
      | unanswered _ => rfl
      | value hat => rw [hnone] at hat; cases hat
      | permanent hat _ => rw [hnone] at hat; cases hat
      | noTime hat _ _ => rw [hnone] at hat; cases hat
      | retry hat _ _ _ => rw [hnone] at hat; cases hat
  | succ k ih =>
      unfold begins at hbegins
      rw [Option.bind_eq_some_iff] at hbegins
      obtain ⟨duration, hfails, hbegins⟩ := hbegins
      obtain ⟨hduration, error, hanswer, hretry⟩ := failsIn_some hfails
      have hle := begins_le hbegins
      have hin : now + duration ≤ deadline := by omega
      have hat := timeoutAt_of_answered hduration hin
      rw [hanswer] at hat
      cases h with
      | retry hat' _ _ hrest =>
          rw [hat] at hat'
          cases hat'
          have hturn : n + (k + 1) = n + 1 + k := by omega
          rw [hturn] at hstalls
          have hresult := ih hrest hbegins hstalls
          unfold Fetched.after
          exact hresult
      | value hat' => rw [hat] at hat'; cases hat'
      | permanent hat' hnot =>
          rw [hat] at hat'
          cases hat'
          rw [hretry] at hnot
          cases hnot
      | noTime hat' _ hpast =>
          rw [hat] at hat'
          cases hat'
          omega
      | unanswered hnone => rw [hat] at hnone

theorem lastFailure_cons {r : Round} {error : SourceError} {rounds : List Round}
    (h : r.failure = some error) :
    lastFailure (r :: rounds) = some ((lastFailure rounds).getD error) := by
  unfold lastFailure
  rw [List.filterMap_cons_some h, List.getLast?_cons]

/-- Where every attempt is answered in time, the timeout comes with the last failure. -/
theorem Course.reports (h : Course name timeout deadline source n now f) (hnow : now < deadline)
    (hanswers : ∀ k start, begins source n now k = some start → start < deadline →
      (source (n + k)).answeredBy deadline start)
    {name' : String} {timeout' : ℕ} {last : Option SourceError}
    (hresult : f.result = .error (.bootTimeout name' timeout' last)) :
    ∃ error, last = some error ∧ lastFailure f.rounds = some error := by
  induction h with
  | value _ => cases hresult
  | permanent _ _ => cases hresult
  | noTime _ _ _ =>
      cases hresult
      exact ⟨_, rfl, rfl⟩
  | unanswered hnone =>
      obtain ⟨duration, hduration, hin⟩ := hanswers 0 _ rfl hnow
      have hsome := timeoutAt_of_answered hduration hin
      rw [Nat.add_zero, hnone] at hsome
      cases hsome
  | @retry n now finish error rest hat hretry hbefore hrest ih =>
      have htail : ∀ k start, begins source (n + 1) (finish + waitAfter n) k = some start →
          start < deadline → (source (n + 1 + k)).answeredBy deadline start := by
        intro k start hbegins hstart
        have hturn : n + 1 + k = n + (k + 1) := by omega
        rw [hturn]
        rw [← begins_succ hat hretry] at hbegins
        exact hanswers (k + 1) start hbegins hstart
      obtain ⟨error', hlast, hfailure⟩ := ih hbefore htail hresult
      refine ⟨error', hlast, ?_⟩
      have hround : Round.failure ⟨now, finish, some (.error error), some (waitAfter n)⟩ =
          some error := rfl
      unfold Fetched.after
      rw [lastFailure_cons hround, hfailure, Option.getD_some]

/-- A first request that fails is on the record. -/
theorem Course.fails {duration : ℕ} {error : SourceError}
    (h : Course name timeout deadline source n now f) (hduration : (source n).duration = some duration)
    (hanswer : (source n).answer = .error error) (hin : now + duration ≤ deadline) :
    ∃ r rest, f.rounds = r :: rest ∧ r.failure = some error := by
  have hat := timeoutAt_of_answered hduration hin
  rw [hanswer] at hat
  cases h with
  | value hat' => rw [hat] at hat'; cases hat'
  | permanent hat' _ => rw [hat] at hat'; cases hat'; exact ⟨_, _, rfl, rfl⟩
  | noTime hat' _ _ => rw [hat] at hat'; cases hat'; exact ⟨_, _, rfl, rfl⟩
  | unanswered hat' => rw [hat] at hat'; cases hat'
  | retry hat' _ _ _ => rw [hat] at hat'; cases hat'; exact ⟨_, _, rfl, rfl⟩

/-- Only an attempt that is left unanswered after a failure loses the failure. -/
theorem Course.last_iff (h : Course name timeout (t₀ + timeout) source 0 t₀ f) :
    (∀ name' timeout' last, f.result = .error (.bootTimeout name' timeout' last) →
      lastFailure f.rounds ≠ none → last = lastFailure f.rounds) ↔ Answers timeout t₀ source := by
  constructor
  · intro hlast k start hbegins hstart
    by_contra hstalls
    have hturn : k + 1 = 0 + (k + 1) := by omega
    rw [hturn] at hstalls
    have hresult := h.stalls hbegins hstart hstalls
    -- The first request failed, or the second would not have begun.
    have hfailed : lastFailure f.rounds ≠ none := by
      unfold begins at hbegins
      rw [Option.bind_eq_some_iff] at hbegins
      obtain ⟨duration, hfails, hbegins⟩ := hbegins
      obtain ⟨hduration, error, hanswer, -⟩ := failsIn_some hfails
      have hle := begins_le hbegins
      obtain ⟨r, rest, hrounds, hround⟩ := h.fails hduration hanswer (by omega)
      rw [hrounds, lastFailure_cons hround]
      exact Option.some_ne_none _
    exact hfailed (hlast _ _ _ hresult hfailed).symm
  · intro hanswers name' timeout' last hresult hfailed
    cases h with
    | value _ => cases hresult
    | permanent _ _ => cases hresult
    | noTime _ _ _ => cases hresult; rfl
    | unanswered _ => exact absurd rfl hfailed
    | @retry _ _ finish error rest hat hretry hbefore hrest =>
        have htail : ∀ k start, begins source 1 (finish + waitAfter 0) k = some start →
            start < t₀ + timeout → (source (1 + k)).answeredBy (t₀ + timeout) start := by
          intro k start hbegins hstart
          rw [← begins_succ hat hretry] at hbegins
          rw [Nat.add_comm 1 k]
          exact hanswers k start hbegins hstart
        obtain ⟨error', hlast, hfailure⟩ := hrest.reports hbefore htail hresult
        have hround : Round.failure ⟨t₀, finish, some (.error error), some (waitAfter 0)⟩ =
            some error := rfl
        unfold Fetched.after
        rw [hlast, lastFailure_cons hround, hfailure, Option.getD_some]

/-- A fetch begun at `t₀` is disciplined if every attempt that follows a failure is
answered in time, and only then. -/
theorem fetchAtBoot_disciplined (name : String) (timeout t₀ : ℕ) (source : ℕ → Attempt) :
    ∃ f, fetchAtBoot name timeout source t₀ = some f ∧
      (Disciplined timeout t₀ f ↔ Answers timeout t₀ source) := by
  have htotal : ∃ f, fetchLoop name timeout (t₀ + timeout) source (timeout + 1) 0 t₀
      (waitAfter 0) = some f ∧ Course name timeout (t₀ + timeout) source 0 t₀ f :=
    fetchLoop_course (timeout + 1) (Nat.le_add_right t₀ timeout) (by omega)
  rw [waitAfter_zero] at htotal
  obtain ⟨f, hfetch, hcourse⟩ := htotal
  refine ⟨f, hfetch, ?_⟩
  rw [← hcourse.last_iff]
  constructor
  · intro h
    exact h.lastError
  · intro h
    exact ⟨hcourse.finish_le, hcourse.paced, h⟩

/-- One 503 at once, and no answer after it. -/
def outage : ℕ → Attempt
  | 0 => ⟨some (millis 10), .error (.setec (.server 503 ""))⟩
  | _ + 1 => ⟨none, .error (.setec (.transport ""))⟩

theorem fetchAtBoot_forgets : ∃ f,
    fetchAtBoot "attic/app/token" (millis 600) outage 0 = some f ∧
      ¬Disciplined (millis 600) 0 f := by
  refine ⟨_, rfl, ?_⟩
  intro h
  have hlast := h.lastError _ _ _ rfl (by decide)
  cases hlast

end Cja.Secret
