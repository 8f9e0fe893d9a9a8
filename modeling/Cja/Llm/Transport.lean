import Cja.Llm.Error

/-!
# What the transport and the engine retry

A unary attempt connects, queues its request, waits for the response head and reads the
body. The transport decides on the live attempt whether another one is safe; the durable
engine decides on the error that rig makes of the last attempt's. rig is a parameter.
-/
namespace Cja.Llm
open Cja.Durable

/-! ## An attempt -/

/-- The `Debug` of a `Duration`: a decimal number and a unit. -/
structure DurationText where
  text : Text
  plain : ∀ c ∈ text, c.isDigit = true ∨ c ∈ ['.', 's', 'm', 'µ', 'n']

inductive TransportError
  | connectTimeout (budget : DurationText)
  | connect (source : Text)
  | timeout (budget : DurationText)

def grantHint : String :=
  "; is this node on the tailnet with a policy grant to llm:443 (tag:llm on port 443)?"

def TransportError.display : TransportError → Text
  | .connectTimeout budget =>
      connectMarker ++ (" timed out after ".toList ++ budget.text ++
        " before the request was sent".toList ++ grantHint.toList)
  | .connect source =>
      connectMarker ++
        (" failed before the request was sent: ".toList ++ source ++ grantHint.toList)
  | .timeout budget =>
      timeoutMarker ++ (" request exceeded its deadline after the request was sent (".toList ++
        budget.text ++ " budget; the gateway may still bill the attempt)".toList)

/-- Words of a client library, which are none of the transport. -/
structure LibraryText where
  text : Text
  not_connect : ¬ connectMarker <:+: text
  not_timeout : ¬ timeoutMarker <:+: text

/-- `rig_core::http_client::Error`, as the transport builds it. -/
inductive HttpError
  /-- `instance`, by the `Display` of what it wraps. -/
  | wrapped (text : Text)
  | protocol (text : Text)
  | nonSuccess (status : ℕ) (body : Text)

inductive Connected
  | ready
  | timedOut (budget : DurationText)
  | failed (source : Text)

inductive Sent
  | response (status : ℕ)
  /-- A failure of the request, recovered from the queue or not. -/
  | failed (recovered : Bool) (error : LibraryText)
  | elapsed

/-- The body of a reply that is no success; `none` where the deadline passes. -/
structure ErrorBody where
  text : Text
  retryAfter : Option ℕ

inductive Collected
  | complete
  | failed (error : LibraryText)
  | elapsed

/-- What a unary attempt meets. -/
structure Attempt where
  connected : Connected
  /-- `build_request` -/
  built : Except LibraryText Unit
  sent : Sent
  errorBody : Option ErrorBody
  collected : Collected
  requestTimeout : DurationText
  staleKeyAvailable : Bool

inductive AttemptResult
  | done
  | retry (error : HttpError) (retryAfter : Option ℕ) (staleKey : Bool)
  | terminal (error : HttpError)

def isServerError (status : ℕ) : Bool := 500 ≤ status && status < 600

def isSuccess (status : ℕ) : Bool := 200 ≤ status && status < 300

/-- `type` of a JSON body, where it is a string. -/
abbrev BodyType := Text → Option String

def isStaleVirtualKey (bodyType : BodyType) (status : ℕ) (body : Text) : Bool :=
  match bodyType body with
  | none => false
  | some type =>
      (status == 401 && type == "access_not_found") || (status == 403 && type == "access_blocked")

def classifyStatus (bodyType : BodyType) (status : ℕ) (body : ErrorBody)
    (staleKeyAvailable : Bool) (error : HttpError) : AttemptResult :=
  if status == 429 || isServerError status then .retry error body.retryAfter false
  else if staleKeyAvailable && isStaleVirtualKey bodyType status body.text then
    .retry error none true
  else .terminal error

def sendAndAwait (a : Attempt) : Except AttemptResult ℕ :=
  match a.sent with
  | .response status => .ok status
  | .failed recovered error =>
      if recovered then .error (.retry (.wrapped error.text) none false)
      else .error (.terminal (.wrapped error.text))
  | .elapsed =>
      .error (.terminal (.wrapped (TransportError.timeout a.requestTimeout).display))

def finishSuccess (a : Attempt) : AttemptResult :=
  match a.collected with
  | .complete => .done
  | .failed error => .terminal (.wrapped error.text)
  | .elapsed => .terminal (.wrapped (TransportError.timeout a.requestTimeout).display)

def connect (a : Attempt) : Except TransportError Unit :=
  match a.connected with
  | .ready => .ok ()
  | .timedOut budget => .error (.connectTimeout budget)
  | .failed source => .error (.connect source)

def runAttempt (bodyType : BodyType) (a : Attempt) : AttemptResult :=
  match connect a with
  | .error transportError => .retry (.wrapped transportError.display) none false
  | .ok _ =>
      match a.built with
      | .error error => .terminal (.protocol error.text)
      | .ok _ =>
          match sendAndAwait a with
          | .error result => result
          | .ok status =>
              if isSuccess status then finishSuccess a
              else
                match a.errorBody with
                | some body =>
                    classifyStatus bodyType status body a.staleKeyAvailable
                      (.nonSuccess status body.text)
                | none =>
                    .terminal (.wrapped (TransportError.timeout a.requestTimeout).display)

/-- Whether a failed attempt may be retried, and its error. -/
def AttemptResult.failure : AttemptResult → Option (Bool × HttpError)
  | .done => none
  | .retry error _ _ => some (true, error)
  | .terminal error => some (false, error)

/-! ## How an attempt ends -/

inductive Ending
  | connectFailure
  | buildFailure
  /-- The queue rejected the request, which is recovered. -/
  | queueReject
  | postQueueFailure
  | timeout
  | reply (status : ℕ) (body : Text)
  | success
deriving Repr, DecidableEq

def Attempt.ending (a : Attempt) : Ending :=
  match a.connected, a.built, a.sent with
  | .timedOut _, _, _ | .failed _, _, _ => .connectFailure
  | .ready, .error _, _ => .buildFailure
  | .ready, .ok _, .failed recovered _ => if recovered then .queueReject else .postQueueFailure
  | .ready, .ok _, .elapsed => .timeout
  | .ready, .ok _, .response status =>
      if isSuccess status then
        match a.collected with
        | .complete => .success
        | .failed _ => .postQueueFailure
        | .elapsed => .timeout
      else
        match a.errorBody with
        | some body => .reply status body.text
        | none => .timeout

/-- A stale virtual key. -/
def Ending.stale (bodyType : BodyType) : Ending → Bool
  | .reply status body => isStaleVirtualKey bodyType status body
  | _ => false

/-- Endings on which both sides decide alike. -/
def Ending.aligned : Ending → Bool
  | .queueReject => false
  | .reply status _ => status < 600
  | _ => true

/-- Budget, identity and admin replies, timeouts and failures of a queued request. -/
def Ending.final (R : Crates) : Ending → Bool
  | .reply status body =>
      status == 402 || (status == 403 && ((R.fields body).error == some identity403Body ||
        (R.fields body).error == some admin403Body))
  | .timeout | .postQueueFailure => true
  | _ => false

/-! ## rig between them -/

/-- How rig reports an error of the transport: as a failed HTTP transport whose text shows the
markers of the wrapped error and no others, or with the reply kept. -/
structure Surfaces (surface : HttpError → PromptError) : Prop where
  reply : ∀ status body, (surface (.nonSuccess status body)).reply = some ⟨status, body⟩
  wrapped : ∀ text, (surface (.wrapped text)).reply = none ∧
    (surface (.wrapped text)).isHttpTransport = true
  protocol : ∀ text, (surface (.protocol text)).reply = none
  connect_wrapped : ∀ text, connectMarker <:+: (surface (.wrapped text)).text ↔
    connectMarker <:+: text
  timeout_wrapped : ∀ text, timeoutMarker <:+: (surface (.wrapped text)).text ↔
    timeoutMarker <:+: text
  connect_protocol : ∀ text, connectMarker <:+: (surface (.protocol text)).text ↔
    connectMarker <:+: text

/-- Whether the durable engine retries what comes of an error of the transport. -/
def engineRetries (R : Crates) (surface : HttpError → PromptError) (error : HttpError) : Bool :=
  isRetryable (fromPromptError R (surface error)).outline

section

variable {R : Crates} {surface : HttpError → PromptError} {bodyType : BodyType} {a : Attempt}
variable {retry : Bool} {error error' : HttpError} {status : ℕ} {text body : Text}

/-- The engine sees the status of a reply. -/
theorem engineRetries_reply (hS : Surfaces surface) :
    engineRetries R surface (.nonSuccess status body) = (status == 429 || decide (500 ≤ status)) := by
  simp only [engineRetries, fromPromptError, hS.reply]
  unfold classifyReply
  dsimp only
  by_cases h402 : status = 402
  · subst h402
    rfl
  rw [if_neg h402]
  by_cases hstale : (status = 401 ∨ status = 403) ∧
      ((R.fields body).type = some "access_not_found" ∨
        (R.fields body).type = some "access_blocked")
  · rw [if_pos hstale]
    rfl
  rw [if_neg hstale]
  by_cases hidentity : status = 403 ∧ (R.fields body).error = some identity403Body
  · rw [if_pos hidentity, hidentity.1]
    rfl
  rw [if_neg hidentity]
  by_cases hadmin : status = 403 ∧ (R.fields body).error = some admin403Body
  · rw [if_pos hadmin, hadmin.1]
    rfl
  rw [if_neg hadmin]
  rfl

/-- Of the other errors, the engine retries those that show the marker of the connect phase. -/
theorem engineRetries_wrapped (hS : Surfaces surface) :
    engineRetries R surface (.wrapped text) = contains text connectMarker := by
  obtain ⟨hreply, htransport⟩ := hS.wrapped text
  have hcontains : contains (surface (.wrapped text)).text connectMarker =
      contains text connectMarker := by
    rw [Bool.eq_iff_iff, contains_iff, contains_iff]
    exact hS.connect_wrapped text
  simp only [engineRetries, fromPromptError, hreply, PromptError.display, htransport, hcontains,
    Bool.true_and]
  cases contains text connectMarker with
  | true => rfl
  | false =>
      cases contains (surface (.wrapped text)).text timeoutMarker with
      | true => rfl
      | false => rfl

theorem engineRetries_protocol (hS : Surfaces surface) (hnot : ¬ connectMarker <:+: text) :
    engineRetries R surface (.protocol text) = false := by
  have hcontains : contains (surface (.protocol text)).text connectMarker = false := by
    rw [Bool.eq_false_iff, ne_eq, contains_iff, hS.connect_protocol]
    exact hnot
  simp only [engineRetries, fromPromptError, hS.protocol text, PromptError.display, hcontains,
    Bool.and_false]
  cases (surface (.protocol text)).isHttpTransport &&
      contains (surface (.protocol text)).text timeoutMarker with
  | true => rfl
  | false => rfl

/-! ## Markers -/

theorem connect_shown : connectMarker <:+: (TransportError.connect text).display :=
  ⟨[], _, rfl⟩

theorem connectTimeout_shown {budget : DurationText} :
    connectMarker <:+: (TransportError.connectTimeout budget).display :=
  ⟨[], _, rfl⟩

/-- The markers have one `j` each, at the same place. -/
theorem not_connect_of_timeout (h : 'j' ∉ text) : ¬ connectMarker <:+: timeoutMarker ++ text := by
  intro hinfix
  obtain ⟨before, behind, heq⟩ := hinfix
  have hcount := congrArg (List.count 'j') heq
  rw [List.count_append, List.count_append, List.count_append, List.count_eq_zero.2 h,
    show List.count 'j' connectMarker = 1 by decide,
    show List.count 'j' timeoutMarker = 1 by decide] at hcount
  have hbefore : 'j' ∉ before := List.count_eq_zero.1 (by omega)
  have hindex := congrArg (List.idxOf 'j') heq
  rw [List.append_assoc, List.idxOf_append_of_notMem hbefore,
    List.idxOf_append_of_mem (show 'j' ∈ connectMarker by decide),
    List.idxOf_append_of_mem (show 'j' ∈ timeoutMarker by decide),
    show List.idxOf 'j' connectMarker = 1 by decide,
    show List.idxOf 'j' timeoutMarker = 1 by decide] at hindex
  have hnil : before = [] := List.length_eq_zero_iff.1 (by omega)
  rw [hnil, List.nil_append] at heq
  have hmarkers := (List.append_inj heq (by decide)).1
  exact absurd hmarkers (by decide)

theorem timeout_not_shown (budget : DurationText) :
    ¬ connectMarker <:+: (TransportError.timeout budget).display := by
  apply not_connect_of_timeout
  intro hmem
  rw [List.mem_append, List.mem_append] at hmem
  obtain (hwords | hbudget) | hwords := hmem
  · exact absurd hwords (by decide)
  · obtain hdigit | hunit := budget.plain 'j' hbudget
    · exact absurd hdigit (by decide)
    · exact absurd hunit (by decide)
  · exact absurd hwords (by decide)

theorem engineRetries_shown (hS : Surfaces surface) (h : connectMarker <:+: text) :
    engineRetries R surface (.wrapped text) = true := by
  rw [engineRetries_wrapped hS, contains_iff]
  exact h

theorem engineRetries_hidden (hS : Surfaces surface) (h : ¬ connectMarker <:+: text) :
    engineRetries R surface (.wrapped text) = false := by
  rw [engineRetries_wrapped hS, Bool.eq_false_iff, ne_eq, contains_iff]
  exact h

/-! ## The two decisions -/

theorem classifyStatus_failure {errorBody : ErrorBody} {staleKeyAvailable : Bool}
    (h : (classifyStatus bodyType status errorBody staleKeyAvailable error).failure =
      some (retry, error')) (hstale : isStaleVirtualKey bodyType status errorBody.text = false) :
    error' = error ∧ retry = (status == 429 || isServerError status) := by
  unfold classifyStatus at h
  rw [hstale, Bool.and_false] at h
  cases hretry : status == 429 || isServerError status with
  | true =>
      rw [hretry] at h
      cases h
      exact ⟨rfl, rfl⟩
  | false =>
      rw [hretry] at h
      cases h
      exact ⟨rfl, rfl⟩

/-- How the transport decides and with which error, by how the attempt ends. -/
inductive Failed (bodyType : BodyType) : Ending → Bool → HttpError → Prop
  | connectTimeout (budget : DurationText) :
      Failed bodyType .connectFailure true (.wrapped (TransportError.connectTimeout budget).display)
  | connect (source : Text) :
      Failed bodyType .connectFailure true (.wrapped (TransportError.connect source).display)
  | build (error : LibraryText) : Failed bodyType .buildFailure false (.protocol error.text)
  | queueReject (error : LibraryText) : Failed bodyType .queueReject true (.wrapped error.text)
  | postQueue (error : LibraryText) :
      Failed bodyType .postQueueFailure false (.wrapped error.text)
  | timeout (budget : DurationText) :
      Failed bodyType .timeout false (.wrapped (TransportError.timeout budget).display)
  | reply {status : ℕ} {body : ErrorBody} {available retry : Bool} {error : HttpError} :
      (classifyStatus bodyType status body available (.nonSuccess status body.text)).failure =
        some (retry, error) → Failed bodyType (.reply status body.text) retry error

/-- What an attempt comes to, by how it ends. -/
inductive Came (bodyType : BodyType) (available : Bool) : Ending → AttemptResult → Prop
  | connectTimeout (budget : DurationText) : Came bodyType available .connectFailure
      (.retry (.wrapped (TransportError.connectTimeout budget).display) none false)
  | connect (source : Text) : Came bodyType available .connectFailure
      (.retry (.wrapped (TransportError.connect source).display) none false)
  | build (error : LibraryText) :
      Came bodyType available .buildFailure (.terminal (.protocol error.text))
  | queueReject (error : LibraryText) :
      Came bodyType available .queueReject (.retry (.wrapped error.text) none false)
  | postQueue (error : LibraryText) :
      Came bodyType available .postQueueFailure (.terminal (.wrapped error.text))
  | timeout (budget : DurationText) : Came bodyType available .timeout
      (.terminal (.wrapped (TransportError.timeout budget).display))
  | reply (status : ℕ) (body : ErrorBody) : Came bodyType available (.reply status body.text)
      (classifyStatus bodyType status body available (.nonSuccess status body.text))
  | done : Came bodyType available .success .done

theorem runAttempt_came (bodyType : BodyType) (a : Attempt) :
    Came bodyType a.staleKeyAvailable a.ending (runAttempt bodyType a) := by
  unfold runAttempt connect Attempt.ending
  cases a.connected with
  | timedOut budget => exact Came.connectTimeout budget
  | failed source => exact Came.connect source
  | ready =>
      cases a.built with
      | error e => exact Came.build e
      | ok _ =>
          unfold sendAndAwait
          cases a.sent with
          | failed recovered e =>
              cases recovered with
              | true => exact Came.queueReject e
              | false => exact Came.postQueue e
          | elapsed => exact Came.timeout a.requestTimeout
          | response status =>
              dsimp only
              cases isSuccess status with
              | true =>
                  unfold finishSuccess
                  cases a.collected with
                  | complete => exact Came.done
                  | failed e => exact Came.postQueue e
                  | elapsed => exact Came.timeout a.requestTimeout
              | false =>
                  cases a.errorBody with
                  | none => exact Came.timeout a.requestTimeout
                  | some body => exact Came.reply status body

theorem Came.failed {available : Bool} {ending : Ending} {result : AttemptResult}
    (h : Came bodyType available ending result) (hfailure : result.failure = some (retry, error)) :
    Failed bodyType ending retry error := by
  cases h with
  | connectTimeout budget => cases hfailure; exact Failed.connectTimeout budget
  | connect source => cases hfailure; exact Failed.connect source
  | build e => cases hfailure; exact Failed.build e
  | queueReject e => cases hfailure; exact Failed.queueReject e
  | postQueue e => cases hfailure; exact Failed.postQueue e
  | timeout budget => cases hfailure; exact Failed.timeout budget
  | reply status body => exact Failed.reply hfailure
  | done => cases hfailure

theorem runAttempt_failed (h : (runAttempt bodyType a).failure = some (retry, error)) :
    Failed bodyType a.ending retry error :=
  (runAttempt_came bodyType a).failed h

/-- Both decide alike exactly where the ending is aligned. -/
theorem Failed.agree_iff {ending : Ending} (hS : Surfaces surface)
    (h : Failed bodyType ending retry error) (hstale : ending.stale bodyType = false) :
    retry = engineRetries R surface error ↔ ending.aligned = true := by
  cases h with
  | connectTimeout budget =>
      rw [engineRetries_shown hS connectTimeout_shown]
      simp [Ending.aligned]
  | connect source =>
      rw [engineRetries_shown hS connect_shown]
      simp [Ending.aligned]
  | build e =>
      rw [engineRetries_protocol hS e.not_connect]
      simp [Ending.aligned]
  | queueReject e =>
      rw [engineRetries_hidden hS e.not_connect]
      simp [Ending.aligned]
  | postQueue e =>
      rw [engineRetries_hidden hS e.not_connect]
      simp [Ending.aligned]
  | timeout budget =>
      rw [engineRetries_hidden hS (timeout_not_shown budget)]
      simp [Ending.aligned]
  | @reply status body available retry error hfailure =>
      obtain ⟨rfl, rfl⟩ := classifyStatus_failure hfailure hstale
      rw [engineRetries_reply hS]
      simp only [isServerError, Ending.aligned, decide_eq_true_eq]
      by_cases h429 : status = 429
      · subst h429
        decide
      · have hne : (status == 429) = false := beq_eq_false_iff_ne.2 h429
        rw [hne, Bool.false_or, Bool.false_or, Bool.eq_iff_iff, Bool.and_eq_true,
          decide_eq_true_eq, decide_eq_true_eq]
        constructor
        · intro hiff
          by_contra hlarge
          have hserver := hiff.2 (by omega)
          omega
        · intro hsmall
          constructor
          · intro hserver
            exact hserver.1
          · intro hserver
            exact ⟨hserver, hsmall⟩

theorem Failed.final {ending : Ending} (hS : Surfaces surface)
    (h : Failed bodyType ending retry error) (hstale : ending.stale bodyType = false)
    (hfinal : ending.final R = true) :
    retry = false ∧ engineRetries R surface error = false := by
  cases h with
  | connectTimeout budget => cases hfinal
  | connect source => cases hfinal
  | build e => cases hfinal
  | queueReject e => cases hfinal
  | postQueue e => exact ⟨rfl, engineRetries_hidden hS e.not_connect⟩
  | timeout budget => exact ⟨rfl, engineRetries_hidden hS (timeout_not_shown budget)⟩
  | @reply status body available retry error hfailure =>
      obtain ⟨rfl, rfl⟩ := classifyStatus_failure hfailure hstale
      rw [engineRetries_reply hS]
      have hstatus : status = 402 ∨ status = 403 := by
        simp only [Ending.final, Bool.or_eq_true, Bool.and_eq_true, beq_iff_eq] at hfinal
        tauto
      obtain rfl | rfl := hstatus
      · exact ⟨rfl, rfl⟩
      · exact ⟨rfl, rfl⟩

/-- The transport and the engine agree on a failed attempt unless its request came back from
the queue or its status is past the server errors; a final ending is retried by neither. -/
theorem retryable_agrees_iff (hS : Surfaces surface)
    (h : (runAttempt bodyType a).failure = some (retry, error))
    (hstale : a.ending.stale bodyType = false) :
    (retry = engineRetries R surface error ↔ a.ending.aligned = true) ∧
    (a.ending.final R = true → retry = false ∧ engineRetries R surface error = false) :=
  ⟨(runAttempt_failed h).agree_iff hS hstale, (runAttempt_failed h).final hS hstale⟩

/-! ## Two attempts -/

/-- Words before a text hide and make no marker: they have no `j` and do not end in `c`. -/
theorem framed_iff (needle : Text) {before : Text} (hj : 'j' ∉ before) (hc : before.getLast? ≠ some 'c') :
    'c' :: 'j' :: needle <:+: before ++ text ↔ 'c' :: 'j' :: needle <:+: text := by
  induction before with
  | nil => exact Iff.rfl
  | cons b before ih =>
      have hrest : before.getLast? ≠ some 'c' ∨ before = [] := by
        cases before with
        | nil => exact Or.inr rfl
        | cons b' before => exact Or.inl (by rwa [List.getLast?_cons_cons] at hc)
      have hhead : ¬ 'c' :: 'j' :: needle <+: b :: (before ++ text) := by
        intro hpre
        rw [List.cons_prefix_cons] at hpre
        obtain ⟨rfl, hpre⟩ := hpre
        cases before with
        | nil => exact hc rfl
        | cons b' before =>
            rw [List.cons_append, List.cons_prefix_cons] at hpre
            exact hj (by rw [hpre.1]; simp)
      rw [List.cons_append, List.infix_cons_iff, or_iff_right hhead]
      obtain hrest | rfl := hrest
      · exact ih (fun hmem => hj (List.mem_cons_of_mem _ hmem)) hrest
      · rfl

/-- The words that rig puts before an HTTP error. -/
def surfaceHttp : HttpError → PromptError
  | .wrapped text => ⟨.provider, .http, none, "HttpError: Http client error: ".toList ++ text, []⟩
  | .protocol text => ⟨.provider, .http, none, "HttpError: Http error: ".toList ++ text, []⟩
  | .nonSuccess status body =>
      ⟨.provider, .other "ProviderResponse", some ⟨status, body⟩, [], []⟩

theorem surfaceHttp_surfaces : Surfaces surfaceHttp := by
  constructor
  · intro status body
    rfl
  · intro text
    exact ⟨rfl, rfl⟩
  · intro text
    rfl
  · intro text
    exact framed_iff "a-llm transport connect:".toList (by decide) (by decide)
  · intro text
    exact framed_iff "a-llm transport timeout:".toList (by decide) (by decide)
  · intro text
    exact framed_iff "a-llm transport connect:".toList (by decide) (by decide)

def plainCrates : Crates :=
  ⟨fun _ _ _ => "ProviderResponseError: ".toList, fun _ => ⟨none, none⟩, fun text => text⟩

def canceled : LibraryText := ⟨"operation was canceled".toList, by decide, by decide⟩

def minute : DurationText := ⟨['6', '0', 's'], by simp⟩

def queueRejected : Attempt :=
  ⟨.ready, .ok (), .failed true canceled, none, .complete, minute, true⟩

def replied (status : ℕ) : Attempt :=
  ⟨.ready, .ok (), .response status, some ⟨"busy".toList, none⟩, .complete, minute, true⟩

theorem not_retryable_agrees :
    ((runAttempt (fun _ => none) queueRejected).failure = some (true, .wrapped canceled.text) ∧
      engineRetries plainCrates surfaceHttp (.wrapped canceled.text) = false) ∧
    ((runAttempt (fun _ => none) (replied 600)).failure =
        some (false, .nonSuccess 600 "busy".toList) ∧
      engineRetries plainCrates surfaceHttp (.nonSuccess 600 "busy".toList) = true) ∧
    queueRejected.ending.stale (fun _ => none) = false ∧
    (replied 600).ending.stale (fun _ => none) = false := by
  have hrejected := engineRetries_hidden (R := plainCrates) surfaceHttp_surfaces
    canceled.not_connect
  have hreplied : engineRetries plainCrates surfaceHttp (.nonSuccess 600 "busy".toList) = true :=
    engineRetries_reply surfaceHttp_surfaces
  exact ⟨⟨rfl, hrejected⟩, ⟨rfl, hreplied⟩, rfl, rfl⟩

theorem retryable_agrees_unavailable :
    true = engineRetries plainCrates surfaceHttp (.nonSuccess 503 "busy".toList) := by
  have haligned : (replied 503).ending.aligned = true := by
    simp [replied, Attempt.ending, isSuccess, Ending.aligned]
  have hfailure : (runAttempt (fun _ => none) (replied 503)).failure =
      some (true, .nonSuccess 503 "busy".toList) := rfl
  exact (retryable_agrees_iff surfaceHttp_surfaces hfailure rfl).1.2 haligned

end

end Cja.Llm
