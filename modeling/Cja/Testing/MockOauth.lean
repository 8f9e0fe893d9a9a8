import Cja.Lib.StepRun
import Cja.Lib.Judged
import Cja.Lib.Text

/-!
# The mock OAuth server

Handlers of `testing/mock_oauth` await one lock at a time, so requests interleave between
the tables, and a request whose client went away stops at any await. An event of a run is
judged by the events before it: which user a code stands for, that a code is exchanged
once, whose token is accepted.
-/
namespace Cja.MockOauth

open StepRun

structure MockUserConfig where
  id : ℤ
  login : String
  name : Option String
  email : Option String
  avatarUrl : String
deriving Repr, DecidableEq

structure AuthorizeParams where
  redirectUri : Text
  state : Text
  mockUserId : Option ℤ
  mockUserLogin : Option String
  mockUserName : Option String
  mockUserEmail : Option String
deriving Repr, DecidableEq

/-- The user of the query parameters, with the defaults of `authorize`. -/
def AuthorizeParams.user (params : AuthorizeParams) : MockUserConfig where
  id := params.mockUserId.getD 12345
  login := params.mockUserLogin.getD "mock_user"
  name := params.mockUserName.or (some "Mock User")
  email := params.mockUserEmail.or (some "mock@example.com")
  avatarUrl := "https://example.com/avatar.png"

/-- `MockUserConfig::default`. -/
def MockUserConfig.default : MockUserConfig :=
  ⟨12345, "mock_user", some "Mock User", some "mock@example.com", "https://example.com/avatar.png"⟩

def AuthorizeParams.redirectUrl (params : AuthorizeParams) (code : Text) : Text :=
  params.redirectUri ++ "?code=".toList ++ code ++ "&state=".toList ++ params.state

/-- The credentials of a `Bearer` header. -/
def bearerToken (header : Option Text) : Option Text :=
  header.bind fun s =>
    (Text.stripPrefix "Bearer ".toList s).or (Text.stripPrefix "bearer ".toList s)

inductive Format
  | json
  | form
deriving Repr, DecidableEq

/-- `TokenResponse`, in the format of the `Accept` header. -/
structure TokenResponse where
  accessToken : Text
  tokenType : String := "bearer"
  scope : String := "user:email"
  format : Format
deriving Repr, DecidableEq

/-- A request between two locks. -/
inductive Pending
  /-- `authorize` has chosen the user and is to store the code. -/
  | storing (params : AuthorizeParams) (code : Text) (user : MockUserConfig)
  /-- `exchange_code` has removed the code and is to insert the token. -/
  | inserting (code token : Text) (user : MockUserConfig) (format : Format)
deriving Repr, DecidableEq

abbrev RequestId := ℕ

/-- `MockOAuthState`, the requests under way and the UUIDs given out, which never repeat. -/
structure State where
  codes : Text → Option MockUserConfig
  tokens : Text → Option MockUserConfig
  preRegistered : Text → Option MockUserConfig
  requests : RequestId → Option Pending
  uuids : List Text

def State.init : State := ⟨fun _ => none, fun _ => none, fun _ => none, fun _ => none, []⟩

inductive Event
  | registered (state : Text) (user : MockUserConfig)
  /-- `authorize` generated its code and looked for a user of its state. -/
  | chosen (params : AuthorizeParams) (code : Text) (user : MockUserConfig)
  | stored (code : Text) (user : MockUserConfig) (redirectUrl : Text)
  | exchanged (code token : Text) (user : MockUserConfig)
  | granted (response : TokenResponse) (user : MockUserConfig)
  /-- `400`, for a code that is not there. -/
  | refused (code : Text)
  /-- `400`, for a body that does not parse. -/
  | malformed
  | identified (token : Text) (user : MockUserConfig)
  /-- `401` -/
  | unauthorized (token : Option Text)
deriving Repr, DecidableEq

inductive Action
  | setUserForState (state : Text) (user : MockUserConfig)
  | authorize (r : RequestId) (params : AuthorizeParams) (uuid : Text)
  | storeCode (r : RequestId)
  /-- The code as serde reads it from the body. -/
  | accessToken (r : RequestId) (code : Option Text) (uuid : Text) (format : Format)
  | insertToken (r : RequestId)
  | getUser (header : Option Text)
  /-- The client goes away. -/
  | abandon (r : RequestId)

def mockCode (uuid : Text) : Text := "mock_code_".toList ++ uuid

def mockToken (uuid : Text) : Text := "mock_token_".toList ++ uuid

def State.setRequest (s : State) (r : RequestId) (pending : Option Pending) : State :=
  { s with requests := Function.update s.requests r pending }

/-- `authorize` up to the await of `store_code`. -/
def State.authorize (s : State) (r : RequestId) (params : AuthorizeParams) (uuid : Text) :
    State × Event :=
  let user := (s.preRegistered params.state).getD params.user
  ({ s.setRequest r (some (.storing params (mockCode uuid) user)) with
      preRegistered := Function.update s.preRegistered params.state none
      uuids := uuid :: s.uuids },
    .chosen params (mockCode uuid) user)

/-- `exchange_code` up to the await of the tokens. -/
def State.exchangeCode (s : State) (r : RequestId) (code uuid : Text) (format : Format) :
    State × Event :=
  match s.codes code with
  | none => (s, .refused code)
  | some user =>
      ({ s.setRequest r (some (.inserting code (mockToken uuid) user format)) with
          codes := Function.update s.codes code none
          uuids := uuid :: s.uuids },
        .exchanged code (mockToken uuid) user)

def State.getUser (s : State) (token : Option Text) : Event :=
  match token.bind s.tokens, token with
  | some user, some t => .identified t user
  | _, _ => .unauthorized token

def step (s : State) : Action → Option (State × List Event)
  | .setUserForState state user =>
      some ({ s with preRegistered := Function.update s.preRegistered state (some user) },
        [.registered state user])
  | .authorize r params uuid =>
      if s.requests r = none ∧ uuid ∉ s.uuids then
        let p := s.authorize r params uuid
        some (p.1, [p.2])
      else none
  | .storeCode r =>
      match s.requests r with
      | some (.storing params code user) =>
          some ({ s.setRequest r none with codes := Function.update s.codes code (some user) },
            [.stored code user (params.redirectUrl code)])
      | _ => none
  | .accessToken r code uuid format =>
      if s.requests r = none ∧ uuid ∉ s.uuids then
        match code with
        | none => some (s, [.malformed])
        | some code =>
            let p := s.exchangeCode r code uuid format
            some (p.1, [p.2])
      else none
  | .insertToken r =>
      match s.requests r with
      | some (.inserting _ token user format) =>
          some ({ s.setRequest r none with tokens := Function.update s.tokens token (some user) },
            [.granted ⟨token, "bearer", "user:email", format⟩ user])
      | _ => none
  | .getUser header => some (s, [s.getUser (bearerToken header)])
  | .abandon r => if (s.requests r).isSome then some (s.setRequest r none, []) else none

abbrev OauthRun : List Event → State → Prop := Run step Free .init

/-! ## What a log says -/

/-- The user that waits for a state after an event. -/
def Event.waits (state : Text) (user : Option MockUserConfig) : Event → Option MockUserConfig
  | registered st u => if st = state then some u else user
  | chosen params _ _ => if params.state = state then none else user
  | _ => user

/-- The user registered last for a state, unless an `authorize` has taken it. -/
def waiting (state : Text) (log : List Event) : Option MockUserConfig :=
  log.foldl (Event.waits state) none

def Exchanged (log : List Event) (code : Text) : Prop := ∃ t u, .exchanged code t u ∈ log

def Stored (log : List Event) (code : Text) (user : MockUserConfig) : Prop :=
  ∃ url, .stored code user url ∈ log

def Granted (log : List Event) (token : Text) (user : MockUserConfig) : Prop :=
  ∃ response, .granted response user ∈ log ∧ response.accessToken = token

/-- What an event may say after the events before it. -/
def Event.Justified (before : List Event) : Event → Prop
  | registered _ _ => True
  | chosen params code user => user = (waiting params.state before).getD params.user ∧
      ∀ p u, .chosen p code u ∉ before
  | stored code user url => (∃ p, .chosen p code user ∈ before ∧ url = p.redirectUrl code) ∧
      ∀ u, ¬Stored before code u
  | exchanged code token user => (∃ p, .chosen p code user ∈ before) ∧ Stored before code user ∧
      ¬Exchanged before code ∧ ∀ c u, .exchanged c token u ∉ before
  | granted response user => (∃ c, .exchanged c response.accessToken user ∈ before) ∧
      ∀ u, ¬Granted before response.accessToken u
  | refused code => ∀ u, Stored before code u → Exchanged before code
  | malformed => True
  | identified token user => Granted before token user ∧ ∃ p c, .chosen p c user ∈ before ∧
      Stored before c user ∧ .exchanged c token user ∈ before
  | unauthorized token => ∀ t u, token = some t → ¬Granted before t u

variable {log : List Event} {e : Event} {s s' : State} {c t : Text} {u : MockUserConfig}

@[simp] theorem stored_snoc :
    Stored (log ++ [e]) c u ↔ Stored log c u ∨ ∃ url, e = .stored c u url := by
  simp only [Stored, List.mem_append, List.mem_singleton, exists_or, eq_comm]

@[simp] theorem exchanged_snoc :
    Exchanged (log ++ [e]) c ↔ Exchanged log c ∨ ∃ t u, e = .exchanged c t u := by
  simp only [Exchanged, List.mem_append, List.mem_singleton, exists_or, eq_comm]

@[simp] theorem granted_snoc : Granted (log ++ [e]) t u ↔
    Granted log t u ∨ ∃ response, e = .granted response u ∧ response.accessToken = t := by
  simp only [Granted, List.mem_append, List.mem_singleton, or_and_right, exists_or, eq_comm]

theorem waiting_snoc (st : Text) : waiting st (log ++ [e]) = e.waits st (waiting st log) := by
  simp [waiting]

/-! ## What a step can do -/

inductive Took (s : State) : State → List Event → Prop
  | registered (st : Text) (u : MockUserConfig) :
      Took s { s with preRegistered := Function.update s.preRegistered st (some u) }
        [.registered st u]
  | chosen {r : RequestId} {params : AuthorizeParams} {uuid : Text} (hr : s.requests r = none)
      (hx : uuid ∉ s.uuids) :
      Took s (s.authorize r params uuid).1 [(s.authorize r params uuid).2]
  | stored {r : RequestId} {params : AuthorizeParams} {c : Text} {u : MockUserConfig}
      (hr : s.requests r = some (.storing params c u)) :
      Took s { s.setRequest r none with codes := Function.update s.codes c (some u) }
        [.stored c u (params.redirectUrl c)]
  | malformed : Took s s [.malformed]
  | refused {c : Text} (hc : s.codes c = none) : Took s s [.refused c]
  | exchanged {r : RequestId} {c uuid : Text} {u : MockUserConfig} {format : Format}
      (hr : s.requests r = none) (hx : uuid ∉ s.uuids) (hc : s.codes c = some u) :
      Took s { s.setRequest r (some (.inserting c (mockToken uuid) u format)) with
        codes := Function.update s.codes c none
        uuids := uuid :: s.uuids } [.exchanged c (mockToken uuid) u]
  | granted {r : RequestId} {c t : Text} {u : MockUserConfig} {format : Format}
      (hr : s.requests r = some (.inserting c t u format)) :
      Took s { s.setRequest r none with tokens := Function.update s.tokens t (some u) }
        [.granted ⟨t, "bearer", "user:email", format⟩ u]
  | identified {t : Text} {u : MockUserConfig} (ht : s.tokens t = some u) :
      Took s s [.identified t u]
  | unauthorized {token : Option Text} (ht : ∀ t, token = some t → s.tokens t = none) :
      Took s s [.unauthorized token]
  | abandoned (r : RequestId) : Took s (s.setRequest r none) []

theorem getUser_cases (s : State) (token : Option Text) :
    (∃ t u, s.tokens t = some u ∧ s.getUser token = .identified t u) ∨
      (∀ t, token = some t → s.tokens t = none) ∧ s.getUser token = .unauthorized token := by
  cases token with
  | none => exact .inr ⟨by simp, rfl⟩
  | some t =>
      cases ht : s.tokens t with
      | none => exact .inr ⟨by simp [ht], by simp [State.getUser, ht]⟩
      | some u => exact .inl ⟨t, u, ht, by simp [State.getUser, ht]⟩

theorem step_took {a : Action} {es : List Event} (h : step s a = some (s', es)) :
    Took s s' es := by
  cases a with
  | setUserForState st u =>
      cases h
      exact .registered st u
  | authorize r params uuid =>
      simp only [step] at h
      split_ifs at h with hc
      cases h
      exact .chosen hc.1 hc.2
  | storeCode r =>
      simp only [step] at h
      split at h
      · case _ hr => cases h; exact .stored hr
      · cases h
  | accessToken r code uuid format =>
      simp only [step] at h
      split_ifs at h with hc
      cases code with
      | none => cases h; exact .malformed
      | some c =>
          simp only [State.exchangeCode] at h
          cases hcode : s.codes c with
          | none => rw [hcode] at h; cases h; exact .refused hcode
          | some u => rw [hcode] at h; cases h; exact .exchanged hc.1 hc.2 hcode
  | insertToken r =>
      simp only [step] at h
      split at h
      · case _ hr => cases h; exact .granted hr
      · cases h
  | getUser header =>
      cases h
      rcases getUser_cases s (bearerToken header) with ⟨t, u, ht, he⟩ | ⟨ht, he⟩
      · exact he ▸ .identified ht
      · exact he ▸ .unauthorized ht
  | abandon r =>
      simp only [step] at h
      split_ifs at h
      cases h
      exact .abandoned r

/-! ## The invariant -/

/-- What a request under way will write, by code or by token. -/
def Pending.key : Pending → Text ⊕ Text
  | storing _ c _ => .inl c
  | inserting _ t _ _ => .inr t

/-- A request under way has announced what it will write, and has not written it. -/
def Pending.Open (log : List Event) : Pending → Prop
  | storing params c u => .chosen params c u ∈ log ∧ ∀ u, ¬Stored log c u
  | inserting c t u _ => .exchanged c t u ∈ log ∧ ∀ u, ¬Granted log t u

/-- The tables are what the log says. -/
structure Inv (log : List Event) (s : State) : Prop where
  codes : ∀ c u, s.codes c = some u ↔ Stored log c u ∧ ¬Exchanged log c
  tokens : ∀ t u, s.tokens t = some u ↔ Granted log t u
  waits : ∀ st, s.preRegistered st = waiting st log
  pending : ∀ r q, s.requests r = some q → q.Open log
  unique : ∀ r r' q q', s.requests r = some q → s.requests r' = some q' → q.key = q'.key → r = r'
  code : ∀ p c u, .chosen p c u ∈ log → ∃ x ∈ s.uuids, c = mockCode x
  token : ∀ c t u, .exchanged c t u ∈ log → ∃ x ∈ s.uuids, t = mockToken x
  judged : Judged Event.Justified log

namespace Inv

theorem init : Inv [] .init where
  codes := by simp [State.init, Stored]
  tokens := by simp [State.init, Granted]
  waits _ := rfl
  pending := by simp [State.init]
  unique := by simp [State.init]
  code := by simp
  token := by simp
  judged := .nil

theorem of_exchanged (h : Inv log s) (he : .exchanged c t u ∈ log) :
    ∃ p, .chosen p c u ∈ log ∧ Stored log c u := by
  obtain ⟨before, hpre, ⟨p, hp⟩, ⟨url, hs⟩, -⟩ := h.judged.mem he
  exact ⟨p, hpre.subset hp, url, hpre.subset hs⟩

theorem of_stored (h : Inv log s) (hs : Stored log c u) : ∃ p, .chosen p c u ∈ log := by
  obtain ⟨url, hs⟩ := hs
  obtain ⟨before, hpre, ⟨p, hp, -⟩, -⟩ := h.judged.mem hs
  exact ⟨p, hpre.subset hp⟩

theorem of_granted (h : Inv log s) (hg : Granted log t u) : ∃ c, .exchanged c t u ∈ log := by
  obtain ⟨response, hg, rfl⟩ := hg
  obtain ⟨before, hpre, ⟨c, hc⟩, -⟩ := h.judged.mem hg
  exact ⟨c, hpre.subset hc⟩

/-- A code with a new UUID is a new code. -/
theorem code_fresh (h : Inv log s) {uuid : Text} (hx : uuid ∉ s.uuids) (p : AuthorizeParams)
    (u : MockUserConfig) : .chosen p (mockCode uuid) u ∉ log := by
  intro hmem
  obtain ⟨x, hxs, heq⟩ := h.code p _ u hmem
  exact hx (List.append_cancel_left heq ▸ hxs)

theorem token_fresh (h : Inv log s) {uuid : Text} (hx : uuid ∉ s.uuids) (c : Text)
    (u : MockUserConfig) : .exchanged c (mockToken uuid) u ∉ log := by
  intro hmem
  obtain ⟨x, hxs, heq⟩ := h.token c _ u hmem
  exact hx (List.append_cancel_left heq ▸ hxs)

/-- Events other than those of the four tables leave the requests under way open. -/
theorem open_snoc {q : Pending} (ho : q.Open log)
    (hs : ∀ c u url, e = .stored c u url → q.key ≠ .inl c)
    (hg : ∀ response u, e = .granted response u → q.key ≠ .inr response.accessToken) :
    q.Open (log ++ [e]) := by
  cases q with
  | storing params c u =>
      refine ⟨List.mem_append_left _ ho.1, fun u' hstored => ?_⟩
      rcases stored_snoc.mp hstored with hold | ⟨url, rfl⟩
      · exact ho.2 u' hold
      · exact hs c u' url rfl rfl
  | inserting c t u format =>
      refine ⟨List.mem_append_left _ ho.1, fun u' hgranted => ?_⟩
      rcases granted_snoc.mp hgranted with hold | ⟨response, rfl, rfl⟩
      · exact ho.2 u' hold
      · exact hg response u' rfl rfl

/-- An event that writes neither codes nor tokens. -/
theorem quiet (h : Inv log s) (hcodes : s'.codes = s.codes) (htokens : s'.tokens = s.tokens)
    (hrequests : s'.requests = s.requests) (huuids : s'.uuids = s.uuids)
    (hwaits : ∀ st, s'.preRegistered st = e.waits st (s.preRegistered st))
    (hchosen : ∀ p c u, e ≠ .chosen p c u) (hstored : ∀ c u url, e ≠ .stored c u url)
    (hexchanged : ∀ c t u, e ≠ .exchanged c t u) (hgranted : ∀ response u, e ≠ .granted response u)
    (he : e.Justified log) : Inv (log ++ [e]) s' where
  codes c u := by simp [hcodes, h.codes, hstored, hexchanged]
  tokens t u := by simp [htokens, h.tokens, hgranted]
  waits st := by rw [hwaits, h.waits, waiting_snoc]
  pending r q hq := open_snoc (h.pending r q (hrequests ▸ hq))
    (fun c u url heq => absurd heq (hstored c u url))
    fun response u heq => absurd heq (hgranted response u)
  unique := hrequests ▸ h.unique
  code p c u hmem := by
    rw [List.mem_append, List.mem_singleton] at hmem
    exact huuids ▸ h.code p c u (hmem.resolve_right fun heq => hchosen p c u heq.symm)
  token c t u hmem := by
    rw [List.mem_append, List.mem_singleton] at hmem
    exact huuids ▸ h.token c t u (hmem.resolve_right fun heq => hexchanged c t u heq.symm)
  judged := h.judged.snoc he

theorem requests_setRequest (s : State) (r r' : RequestId) (o : Option Pending) :
    (s.setRequest r o).requests r' = if r' = r then o else s.requests r' :=
  Function.update_apply ..

/-- A request begins that will write what no other writes. -/
theorem unique_begin (h : Inv log s) {r : RequestId} {q : Pending}
    (hnew : ∀ r' q', s.requests r' = some q' → q'.key ≠ q.key) (r₁ r₂ : RequestId) (q₁ q₂ : Pending)
    (h₁ : (s.setRequest r (some q)).requests r₁ = some q₁)
    (h₂ : (s.setRequest r (some q)).requests r₂ = some q₂) (hk : q₁.key = q₂.key) : r₁ = r₂ := by
  rw [requests_setRequest] at h₁ h₂
  split_ifs at h₁ h₂ with e₁ e₂ e₂
  · rw [e₁, e₂]
  · cases h₁
    exact absurd hk.symm (hnew r₂ q₂ h₂)
  · cases h₂
    exact absurd hk (hnew r₁ q₁ h₁)
  · exact h.unique r₁ r₂ q₁ q₂ h₁ h₂ hk

/-- A request ends. -/
theorem unique_end (h : Inv log s) {r : RequestId} (r₁ r₂ : RequestId) (q₁ q₂ : Pending)
    (h₁ : (s.setRequest r none).requests r₁ = some q₁)
    (h₂ : (s.setRequest r none).requests r₂ = some q₂) (hk : q₁.key = q₂.key) : r₁ = r₂ := by
  rw [requests_setRequest] at h₁ h₂
  split_ifs at h₁ h₂
  exact h.unique r₁ r₂ q₁ q₂ h₁ h₂ hk

theorem chosen (h : Inv log s) {r : RequestId} {params : AuthorizeParams} {uuid : Text}
    (hx : uuid ∉ s.uuids) :
    Inv (log ++ [(s.authorize r params uuid).2]) (s.authorize r params uuid).1 where
  codes c u := by simp [State.authorize, State.setRequest, h.codes]
  tokens t u := by simp [State.authorize, State.setRequest, h.tokens]
  waits st := by
    rw [waiting_snoc, ← h.waits]
    simp only [State.authorize, State.setRequest, Event.waits, Function.update_apply, eq_comm]
  pending r' q hq := by
    change (s.setRequest r _).requests r' = some q at hq
    rw [requests_setRequest] at hq
    split_ifs at hq
    · cases hq
      refine ⟨List.mem_append_right _ (List.mem_singleton_self _), fun u hstored => ?_⟩
      have hold : Stored log (mockCode uuid) u := by simpa [State.authorize] using hstored
      obtain ⟨p, hp⟩ := h.of_stored hold
      exact h.code_fresh hx p u hp
    · exact open_snoc (h.pending r' q hq) (by simp [State.authorize]) (by simp [State.authorize])
  unique := by
    refine unique_begin h fun r' q' hq' hkey => ?_
    have hopen := h.pending r' q' hq'
    cases q' with
    | storing p c u =>
        obtain rfl : c = mockCode uuid := Sum.inl.inj hkey
        exact h.code_fresh hx p u hopen.1
    | inserting c t u format => cases hkey
  code p c u hmem := by
    rcases List.mem_append.mp hmem with hold | hnew
    · obtain ⟨x, hxs, hc⟩ := h.code p c u hold
      exact ⟨x, List.mem_cons_of_mem _ hxs, hc⟩
    · cases List.mem_singleton.mp hnew
      exact ⟨uuid, List.mem_cons_self .., rfl⟩
  token c t u hmem := by
    rcases List.mem_append.mp hmem with hold | hnew
    · obtain ⟨x, hxs, ht⟩ := h.token c t u hold
      exact ⟨x, List.mem_cons_of_mem _ hxs, ht⟩
    · cases List.mem_singleton.mp hnew
  judged := h.judged.snoc ⟨by rw [h.waits], fun p u => h.code_fresh hx p u⟩

theorem stored (h : Inv log s) {r : RequestId} {params : AuthorizeParams}
    (hr : s.requests r = some (.storing params c u)) :
    Inv (log ++ [.stored c u (params.redirectUrl c)])
      { s.setRequest r none with codes := Function.update s.codes c (some u) } where
  codes c' u' := by
    obtain ⟨hchosen, hnone⟩ := h.pending r _ hr
    by_cases hc : c' = c
    · subst hc
      have hex : ¬Exchanged log c' := by
        rintro ⟨t, v, hmem⟩
        obtain ⟨p, -, hs⟩ := h.of_exchanged hmem
        exact hnone v hs
      simp [hnone, hex]
    · simp [Function.update_of_ne hc, h.codes, Ne.symm hc]
  tokens t u := by simp [State.setRequest, h.tokens]
  waits st := by
    rw [waiting_snoc]
    exact h.waits st
  pending r' q hq := by
    change (s.setRequest r none).requests r' = some q at hq
    rw [requests_setRequest] at hq
    split_ifs at hq with hne
    refine open_snoc (h.pending r' q hq) ?_ (by simp)
    rintro c' u' url ⟨⟩ hkey
    exact hne (h.unique r' r q _ hq hr hkey)
  unique := unique_end h
  code p c' u' hmem := h.code p c' u' (by simpa using hmem)
  token c' t u' hmem := h.token c' t u' (by simpa using hmem)
  judged := by
    obtain ⟨hchosen, hnone⟩ := h.pending r _ hr
    exact h.judged.snoc ⟨⟨params, hchosen, rfl⟩, hnone⟩

theorem exchanged (h : Inv log s) {r : RequestId} {uuid : Text} {format : Format}
    (hx : uuid ∉ s.uuids) (hc : s.codes c = some u) :
    Inv (log ++ [.exchanged c (mockToken uuid) u])
      { s.setRequest r (some (.inserting c (mockToken uuid) u format)) with
        codes := Function.update s.codes c none
        uuids := uuid :: s.uuids } where
  codes c' u' := by
    by_cases hc' : c' = c
    · subst hc'
      simp
    · simp [Function.update_of_ne hc', h.codes, Ne.symm hc']
  tokens t u := by simp [State.setRequest, h.tokens]
  waits st := by
    rw [waiting_snoc]
    exact h.waits st
  pending r' q hq := by
    change (s.setRequest r _).requests r' = some q at hq
    rw [requests_setRequest] at hq
    split_ifs at hq
    · cases hq
      refine ⟨List.mem_append_right _ (List.mem_singleton_self _), fun u hgranted => ?_⟩
      have hold : Granted log (mockToken uuid) u := by simpa using hgranted
      obtain ⟨c, hc⟩ := h.of_granted hold
      exact h.token_fresh hx c u hc
    · exact open_snoc (h.pending r' q hq) (by simp) (by simp)
  unique := by
    refine unique_begin h fun r' q' hq' hkey => ?_
    have hopen := h.pending r' q' hq'
    cases q' with
    | storing p c u => cases hkey
    | inserting c' t u' format' =>
        obtain rfl : t = mockToken uuid := Sum.inr.inj hkey
        exact h.token_fresh hx c' u' hopen.1
  code p c' u' hmem := by
    rcases List.mem_append.mp hmem with hold | hnew
    · obtain ⟨x, hxs, hcode⟩ := h.code p c' u' hold
      exact ⟨x, List.mem_cons_of_mem _ hxs, hcode⟩
    · cases List.mem_singleton.mp hnew
  token c' t u' hmem := by
    rcases List.mem_append.mp hmem with hold | hnew
    · obtain ⟨x, hxs, ht⟩ := h.token c' t u' hold
      exact ⟨x, List.mem_cons_of_mem _ hxs, ht⟩
    · cases List.mem_singleton.mp hnew
      exact ⟨uuid, List.mem_cons_self .., rfl⟩
  judged := by
    obtain ⟨hs, hex⟩ := (h.codes c u).mp hc
    exact h.judged.snoc ⟨h.of_stored hs, hs, hex, fun c u => h.token_fresh hx c u⟩

theorem granted (h : Inv log s) {r : RequestId} {format : Format}
    (hr : s.requests r = some (.inserting c t u format)) :
    Inv (log ++ [.granted ⟨t, "bearer", "user:email", format⟩ u])
      { s.setRequest r none with tokens := Function.update s.tokens t (some u) } where
  codes c u := by simp [State.setRequest, h.codes]
  tokens t' u' := by
    obtain ⟨hexchanged, hnone⟩ := h.pending r _ hr
    by_cases ht : t' = t
    · subst ht
      simp [hnone]
    · simp [Function.update_of_ne ht, h.tokens, Ne.symm ht]
  waits st := by
    rw [waiting_snoc]
    exact h.waits st
  pending r' q hq := by
    change (s.setRequest r none).requests r' = some q at hq
    rw [requests_setRequest] at hq
    split_ifs at hq with hne
    refine open_snoc (h.pending r' q hq) (by simp) ?_
    rintro response u' ⟨⟩ hkey
    exact hne (h.unique r' r q _ hq hr hkey)
  unique := unique_end h
  code p c' u' hmem := h.code p c' u' (by simpa using hmem)
  token c' t u' hmem := h.token c' t u' (by simpa using hmem)
  judged := by
    obtain ⟨hexchanged, hnone⟩ := h.pending r _ hr
    exact h.judged.snoc ⟨⟨c, hexchanged⟩, hnone⟩

theorem abandoned (h : Inv log s) (r : RequestId) : Inv log (s.setRequest r none) where
  codes := h.codes
  tokens := h.tokens
  waits := h.waits
  pending r' q hq := by
    rw [requests_setRequest] at hq
    split_ifs at hq
    exact h.pending r' q hq
  unique := unique_end h
  code := h.code
  token := h.token
  judged := h.judged

theorem step {es : List Event} (h : Inv log s) (ht : Took s s' es) : Inv (log ++ es) s' := by
  cases ht with
  | registered st u =>
      refine h.quiet rfl rfl rfl rfl (fun st' => ?_) (by simp) (by simp) (by simp) (by simp) trivial
      simp only [Event.waits, Function.update_apply, eq_comm]
  | chosen hr hx => exact h.chosen hx
  | stored hr => exact h.stored hr
  | malformed =>
      exact h.quiet rfl rfl rfl rfl (fun _ => rfl) (by simp) (by simp) (by simp) (by simp) trivial
  | @refused c hc =>
      refine h.quiet rfl rfl rfl rfl (fun _ => rfl) (by simp) (by simp) (by simp) (by simp) ?_
      intro u hs
      by_contra hex
      rw [(h.codes c u).mpr ⟨hs, hex⟩] at hc
      cases hc
  | exchanged hr hx hc => exact h.exchanged hx hc
  | granted hr => exact h.granted hr
  | @identified t u ht =>
      refine h.quiet rfl rfl rfl rfl (fun _ => rfl) (by simp) (by simp) (by simp) (by simp) ?_
      have hg := (h.tokens t u).mp ht
      obtain ⟨c, hc⟩ := h.of_granted hg
      obtain ⟨p, hp, hs⟩ := h.of_exchanged hc
      exact ⟨hg, p, c, hp, hs, hc⟩
  | @unauthorized token ht =>
      refine h.quiet rfl rfl rfl rfl (fun _ => rfl) (by simp) (by simp) (by simp) (by simp) ?_
      intro t u heq hg
      have hsome := (h.tokens t u).mpr hg
      rw [ht t heq] at hsome
      cases hsome
  | abandoned r =>
      rw [List.append_nil]
      exact h.abandoned r

end Inv

/-- However requests interleave and wherever their clients go away, every answer is the
one the log before it calls for: a code stands for the user that waited for its state, or
the one of the query; it is exchanged exactly if it was stored and has not been before; a
token is accepted exactly if it was granted, and then names the user of the code it was
granted for. -/
theorem oauth_judged (h : OauthRun log s) : Judged Event.Justified log :=
  (h.invariant (I := Inv) .init fun _ _ _ _ _ _ hi _ hs => hi.step (step_took hs)).judged

def testUser : MockUserConfig :=
  ⟨42, "testuser", some "Test User", some "test@example.com", "https://example.com/avatar.png"⟩

def plainParams : AuthorizeParams := ⟨"/callback".toList, "xyz".toList, none, none, none, none⟩

/-- Two authorizations of one state for which one user waits, and a code used twice. -/
def twoLogins : List Action :=
  [.setUserForState "xyz".toList testUser, .authorize 1 plainParams "a".toList,
    .authorize 2 plainParams "b".toList, .storeCode 2, .storeCode 1,
    .accessToken 3 (some (mockCode "a".toList)) "c".toList .json,
    .accessToken 4 (some (mockCode "a".toList)) "d".toList .form, .insertToken 3,
    .getUser (some ("Bearer ".toList ++ mockToken "c".toList))]

def twoLoginsLog : List Event :=
  [.registered "xyz".toList testUser, .chosen plainParams (mockCode "a".toList) testUser,
    .chosen plainParams (mockCode "b".toList) .default,
    .stored (mockCode "b".toList) .default (plainParams.redirectUrl (mockCode "b".toList)),
    .stored (mockCode "a".toList) testUser (plainParams.redirectUrl (mockCode "a".toList)),
    .exchanged (mockCode "a".toList) (mockToken "c".toList) testUser,
    .refused (mockCode "a".toList),
    .granted ⟨mockToken "c".toList, "bearer", "user:email", .json⟩ testUser,
    .identified (mockToken "c".toList) testUser]

theorem oauth_judged_two_logins : ∃ s, OauthRun twoLoginsLog s ∧
    Event.Justified (twoLoginsLog.take 6) (.refused (mockCode "a".toList)) ∧
    Event.Justified (twoLoginsLog.take 8) (.identified (mockToken "c".toList) testUser) := by
  obtain ⟨log, s, hrun, hp⟩ := exists_free_run step .init twoLogins
    (fun log _ => log == twoLoginsLog) (by decide +kernel)
  obtain rfl : log = twoLoginsLog := beq_iff_eq.mp hp
  have hjudged := oauth_judged hrun
  exact ⟨s, hrun, hjudged (twoLoginsLog.take 6) _ (twoLoginsLog.drop 7) rfl,
    hjudged (twoLoginsLog.take 8) _ [] rfl⟩

end Cja.MockOauth
