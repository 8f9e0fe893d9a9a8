import Cja.Passkeys.Routes

/-!
# The session of a request

Every `Session` extractor of a request reads the private `session_id` cookie from
the jar of the request, loads the row it names, and creates a session where there
is none. A created session is put in the jar, where later extractors find it.
`from_db` answers a missing row and a database error alike, so an error makes a
new session too.

The cookie and UUID libraries are parameters, and so are the columns of a row.
-/
namespace Cja.Server
open Jobs (Uuid)

/-- Private cookies, encrypted under their name, and the text form of an id. -/
structure Codec where
  Key : Type
  Nonce : Type
  encrypt : Key → Nonce → String → String → String
  decrypt : Key → String → String → Option String
  format : Uuid → String
  parseStr : String → Option Uuid

structure Codec.Lawful (L : Codec) : Prop where
  decrypt : ∀ key nonce name value,
    L.decrypt key name (L.encrypt key nonce name value) = some value
  parseStr : ∀ id, L.parseStr (L.format id) = some id

structure Cookie where
  name : String
  value : String
  path : Option String
  httpOnly : Bool
  secure : Bool
deriving Repr, DecidableEq

/-- The cookies of the request, overlaid by those pending for its response. -/
abbrev Cookies := String → Option Cookie

variable {L : Codec} {Row : Type}

/-- `CookieJar::add` -/
def Cookies.add (cookies : Cookies) (L : Codec) (key : L.Key) (nonce : L.Nonce) (cookie : Cookie) :
    Cookies :=
  Function.update cookies cookie.name
    (some { cookie with value := L.encrypt key nonce cookie.name cookie.value })

/-- `CookieJar::get` -/
def Cookies.get (cookies : Cookies) (L : Codec) (key : L.Key) (name : String) : Option Cookie :=
  (cookies name).bind fun cookie =>
    (L.decrypt key name cookie.value).map fun value => { cookie with value := value }

structure AppSession (Row : Type) where
  sessionId : Uuid
  row : Row
deriving Repr, DecidableEq

/-- `CJASession::save_cookie` -/
def saveCookie (L : Codec) (key : L.Key) (nonce : L.Nonce) (sessionId : Uuid) (cookies : Cookies) :
    Cookies :=
  cookies.add L key nonce ⟨"session_id", L.format sessionId, some "/", true, true⟩

/-! ## Statements -/

inductive DbError where
  | rowNotFound | database
deriving Repr, DecidableEq

inductive StatusCode where
  | internalServerError
deriving Repr, DecidableEq

inductive Select where
  | answered | failed
deriving Repr, DecidableEq

/-- An `INSERT` may also take effect behind an error. -/
inductive Insert where
  | answered | failed | lost
deriving Repr, DecidableEq

abbrev Sessions (Row : Type) := Uuid → Option Row

/-- What others do to the table: rows are inserted and updated, none is deleted. -/
def Sessions.upsert (sessions : Sessions Row) (rows : List (Uuid × Row)) : Sessions Row :=
  rows.foldl (fun sessions r => Function.update sessions r.1 (some r.2)) sessions

/-- `AppSession::from_db` -/
def fromDb (o : Select) (sessions : Sessions Row) (id : Uuid) : Except DbError (AppSession Row) :=
  match o, sessions id with
  | .answered, some row => .ok ⟨id, row⟩
  | .answered, none => .error .rowNotFound
  | .failed, _ => .error .database

/-- `AppSession::create`, with the id drawn by the database. -/
def create (o : Insert) (fresh : Uuid) (row : Row) (sessions : Sessions Row) :
    Sessions Row × Option Uuid × Except DbError (AppSession Row) :=
  match o with
  | .answered => (Function.update sessions fresh (some row), some fresh, .ok ⟨fresh, row⟩)
  | .lost => (Function.update sessions fresh (some row), some fresh, .error .database)
  | .failed => (sessions, none, .error .database)

/-! ## The extractor -/

/-- A request: its jar, absent without the cookie layer, and the table. -/
structure State (Row : Type) where
  cookies : Option Cookies
  sessions : Sessions Row

/-- What an extraction meets: how its statements end, what others do between them,
the id and the row its `INSERT` would make. -/
structure Inputs (L : Codec) (Row : Type) where
  load : Select
  between : List (Uuid × Row)
  create : Insert
  fresh : Uuid
  row : Row
  nonce : L.Nonce

/-- An extraction, with the row it inserted. -/
structure Extraction (Row : Type) where
  before : State Row
  load : Select
  create : Insert
  inserted : Option Uuid
  result : Except StatusCode (AppSession Row)

def createSession (L : Codec) (key : L.Key) (i : Inputs L Row) (cookies : Cookies)
    (sessions : Sessions Row) :
    State Row × Option Uuid × Except StatusCode (AppSession Row) :=
  match create i.create i.fresh i.row sessions with
  | (sessions, inserted, .ok session) =>
      (⟨some (saveCookie L key i.nonce session.sessionId cookies), sessions⟩, inserted, .ok session)
  | (sessions, inserted, .error _) =>
      (⟨some cookies, sessions⟩, inserted, .error .internalServerError)

/-- `Session::from_request_parts` -/
def fromRequestParts (L : Codec) (key : L.Key) (i : Inputs L Row) (s : State Row) :
    State Row × Option Uuid × Except StatusCode (AppSession Row) :=
  match s.cookies with
  | none => (s, none, .error .internalServerError)
  | some cookies =>
      let sessions := s.sessions.upsert i.between
      match cookies.get L key "session_id" with
      | none => createSession L key i cookies sessions
      | some sessionCookie =>
          match L.parseStr sessionCookie.value with
          | none => createSession L key i cookies sessions
          | some sessionId =>
              match fromDb i.load s.sessions sessionId with
              | .error _ => createSession L key i cookies sessions
              | .ok session => (⟨some cookies, sessions⟩, none, .ok session)

inductive Action (L : Codec) (Row : Type) where
  | extract (inputs : Inputs L Row)
  | others (rows : List (Uuid × Row))

/-- The database draws an id that is not in the table. -/
def step (key : L.Key) (s : State Row) : Action L Row → Option (State Row × List (Extraction Row))
  | .extract i =>
      match s.sessions.upsert i.between i.fresh with
      | some _ => none
      | none =>
          let r := fromRequestParts L key i s
          some (r.1, [⟨s, i.load, i.create, r.2.1, r.2.2⟩])
  | .others rows => some ({ s with sessions := s.sessions.upsert rows }, [])

/-- A request from its arrival on. -/
abbrev RequestRun (key : L.Key) (s₀ : State Row) : List (Extraction Row) → State Row → Prop :=
  StepRun.Run (step key) StepRun.Free s₀

/-- The id that the private cookie holds. -/
def State.named (s : State Row) (L : Codec) (key : L.Key) : Option Uuid :=
  s.cookies.bind fun cookies =>
    (cookies.get L key "session_id").bind fun cookie => L.parseStr cookie.value

/-- The cookie names an existing row. -/
def State.existed (s : State Row) (L : Codec) (key : L.Key) : Bool :=
  ((s.named L key).bind s.sessions).isSome

/-! ## One extraction -/

section Extraction

variable {key : L.Key} {s s' s₀ : State Row} {i : Inputs L Row} {e : Extraction Row}
variable {log : List (Extraction Row)} {sessions : Sessions Row} {id : Uuid}

theorem Sessions.upsert_isSome (rows : List (Uuid × Row)) (h : (sessions id).isSome) :
    (sessions.upsert rows id).isSome := by
  induction rows generalizing sessions with
  | nil => exact h
  | cons r rows ih =>
      apply ih
      dsimp only
      rw [Function.update_apply]
      split
      · rfl
      · exact h

/-- What is put in a jar is read from it. -/
theorem Cookies.get_add (key : L.Key) (hL : L.Lawful) (cookies : Cookies) (nonce : L.Nonce)
    (cookie : Cookie) :
    (cookies.add L key nonce cookie).get L key cookie.name = some cookie := by
  simp [Cookies.get, Cookies.add, hL.decrypt]

theorem named_saveCookie (hL : L.Lawful) (cookies : Cookies) (nonce : L.Nonce) :
    (⟨some (saveCookie L key nonce id cookies), sessions⟩ : State Row).named L key = some id := by
  have hget := cookies.get_add key hL nonce
    ⟨"session_id", L.format id, some "/", true, true⟩
  simp only [State.named, saveCookie, Option.bind_some]
  rw [hget, Option.bind_some, hL.parseStr]

/-- The extraction takes the path that creates a session. -/
def Extraction.Creates (e : Extraction Row) (L : Codec) (key : L.Key) : Prop :=
  e.before.cookies.isSome ∧ (e.before.existed L key → e.load = .failed)

/-- The ways an extraction can end. -/
inductive Extracted (L : Codec) (key : L.Key) (s s' : State Row) (e : Extraction Row) : Prop
  | layerless : s.cookies = none → s'.cookies = none → e.inserted = none →
      e.result = .error .internalServerError → Extracted L key s s' e
  | loaded {id : Uuid} {row : Row} : s.named L key = some id → s.sessions id = some row →
      e.load = .answered → s'.cookies = s.cookies → e.inserted = none →
      e.result = .ok ⟨id, row⟩ → Extracted L key s s' e
  | refused : e.Creates L key → e.create = .failed → s'.cookies = s.cookies →
      e.inserted = none → e.result = .error .internalServerError → Extracted L key s s' e
  | orphaned {id : Uuid} : e.Creates L key → e.create = .lost → s'.cookies = s.cookies →
      e.inserted = some id → e.result = .error .internalServerError → Extracted L key s s' e
  | created {id : Uuid} {row : Row} : e.Creates L key → e.create = .answered →
      s'.named L key = some id → (s'.sessions id).isSome → e.inserted = some id →
      e.result = .ok ⟨id, row⟩ → Extracted L key s s' e

theorem createSession_extracted (hL : L.Lawful) {cookies : Cookies}
    (hcookies : s.cookies = some cookies) (hload : s.existed L key → i.load = .failed)
    {r : State Row × Option Uuid × Except StatusCode (AppSession Row)}
    (hr : createSession L key i cookies sessions = r) :
    Extracted L key s r.1 ⟨s, i.load, i.create, r.2.1, r.2.2⟩ := by
  have hcreates : Extraction.Creates ⟨s, i.load, i.create, r.2.1, r.2.2⟩ L key :=
    ⟨by rw [hcookies]; rfl, hload⟩
  subst hr
  cases hcreate : i.create with
  | answered =>
      have heq : createSession L key i cookies sessions =
          (⟨some (saveCookie L key i.nonce i.fresh cookies),
            Function.update sessions i.fresh (some i.row)⟩, some i.fresh, .ok ⟨i.fresh, i.row⟩) := by
        simp [createSession, create, hcreate]
      rw [hcreate, heq] at hcreates
      rw [heq]
      exact .created hcreates rfl (named_saveCookie hL cookies i.nonce)
        (by simp) rfl rfl
  | failed =>
      have heq : createSession L key i cookies sessions =
          (⟨some cookies, sessions⟩, none, .error .internalServerError) := by
        simp [createSession, create, hcreate]
      rw [hcreate, heq] at hcreates
      rw [heq]
      exact .refused hcreates rfl hcookies.symm rfl rfl
  | lost =>
      have heq : createSession L key i cookies sessions =
          (⟨some cookies, Function.update sessions i.fresh (some i.row)⟩, some i.fresh,
            .error .internalServerError) := by
        simp [createSession, create, hcreate]
      rw [hcreate, heq] at hcreates
      rw [heq]
      exact .orphaned hcreates rfl hcookies.symm rfl rfl

theorem fromRequestParts_extracted (hL : L.Lawful)
    {r : State Row × Option Uuid × Except StatusCode (AppSession Row)}
    (hr : fromRequestParts L key i s = r) :
    Extracted L key s r.1 ⟨s, i.load, i.create, r.2.1, r.2.2⟩ := by
  unfold fromRequestParts at hr
  split at hr
  · rename_i hcookies
    subst hr
    exact .layerless hcookies hcookies rfl rfl
  · rename_i cookies hcookies
    dsimp only at hr
    have hnamed : s.named L key =
        (cookies.get L key "session_id").bind fun cookie => L.parseStr cookie.value := by
      rw [State.named, hcookies, Option.bind_some]
    split at hr
    · rename_i hget
      refine createSession_extracted hL hcookies (fun hexisted => ?_) hr
      simp [State.existed, hnamed, hget] at hexisted
    · rename_i cookie hget
      split at hr
      · rename_i hparse
        refine createSession_extracted hL hcookies (fun hexisted => ?_) hr
        simp [State.existed, hnamed, hget, hparse] at hexisted
      · rename_i id hparse
        have hid : s.named L key = some id := by rw [hnamed, hget, Option.bind_some, hparse]
        cases hload : i.load with
        | answered =>
            cases hrow : s.sessions id with
            | some row =>
                simp only [hload, fromDb, hrow] at hr
                subst hr
                exact .loaded hid hrow rfl hcookies.symm rfl rfl
            | none =>
                simp only [hload, fromDb, hrow] at hr
                rw [← hload]
                refine createSession_extracted hL hcookies (fun hexisted => ?_) hr
                simp [State.existed, hid, hrow] at hexisted
        | failed =>
            simp only [hload, fromDb] at hr
            rw [← hload]
            exact createSession_extracted hL hcookies (fun _ => hload) hr

theorem createSession_grows (cookies : Cookies) (h : (sessions id).isSome) :
    ((createSession L key i cookies sessions).1.sessions id).isSome := by
  have hupdate : (Function.update sessions i.fresh (some i.row) id).isSome := by
    rw [Function.update_apply]
    split
    · rfl
    · exact h
  unfold createSession create
  cases i.create with
  | answered => exact hupdate
  | failed => exact h
  | lost => exact hupdate

/-- No extraction deletes a row. -/
theorem fromRequestParts_grows (h : (s.sessions id).isSome) :
    ((fromRequestParts L key i s).1.sessions id).isSome := by
  have hupsert := Sessions.upsert_isSome i.between h
  unfold fromRequestParts
  split
  · exact h
  · dsimp only
    split
    · exact createSession_grows _ hupsert
    · split
      · exact createSession_grows _ hupsert
      · split
        · exact createSession_grows _ hupsert
        · exact hupsert

/-- What a step of the request can be. -/
theorem step_cases (hL : L.Lawful) {a : Action L Row} {es : List (Extraction Row)}
    (h : step key s a = some (s', es)) :
    (∀ id, (s.sessions id).isSome → (s'.sessions id).isSome) ∧
      ((es = [] ∧ s'.cookies = s.cookies) ∨ ∃ e, es = [e] ∧ e.before = s ∧ Extracted L key s s' e) := by
  cases a with
  | extract i =>
      simp only [step] at h
      split at h
      · cases h
      · cases h
        exact ⟨fun _ => fromRequestParts_grows, .inr ⟨_, rfl, rfl, fromRequestParts_extracted hL rfl⟩⟩
  | others rows =>
      cases h
      exact ⟨fun _ => Sessions.upsert_isSome rows, .inl ⟨rfl, rfl⟩⟩

end Extraction

/-! ## Continuity -/

/-- The rows that the extractions of a request inserted. -/
def insertions (log : List (Extraction Row)) : ℕ := (log.filterMap fun e => e.inserted).length

/-- An existing session is kept: its cookie stays, and it is what extractions return;
a row is inserted only where the cookie names none; and all extractions that succeed
return one session, with at most one row inserted. -/
structure Continuous (key : L.Key) (s₀ : State Row) (log : List (Extraction Row)) (s : State Row) :
    Prop where
  kept : ∀ id, s₀.named L key = some id → (s₀.sessions id).isSome → s.cookies = s₀.cookies ∧
    ∀ e ∈ log, e.inserted = none ∧ ∀ session, e.result = .ok session → session.sessionId = id
  inserted : ∀ e ∈ log, ∀ id, e.inserted = some id → e.before.existed L key = false
  same : ∀ e ∈ log, ∀ e' ∈ log, ∀ session session', e.result = .ok session →
    e'.result = .ok session' → session.sessionId = session'.sessionId
  once : insertions log ≤ 1

/-- A `SELECT` of an existing row that fails is not followed by an `INSERT` that
takes effect, and neither is an `INSERT` that took effect behind an error. -/
structure Steady (L : Codec) (key : L.Key) (log : List (Extraction Row)) : Prop where
  select : ∀ e ∈ log, e.before.existed L key → e.load = .failed → e.create = .failed
  insert : log.Pairwise fun e e' => e.Creates L key → e.create = .lost →
    e'.Creates L key → e'.create = .failed

/-- The request so far: either its cookie is still the one it came with, or one row
was inserted and the cookie names it. -/
inductive Ledger (key : L.Key) (s₀ : State Row) (log : List (Extraction Row)) (s : State Row) : Prop
  | before : s.cookies = s₀.cookies →
      (∀ e ∈ log, ∀ session, e.result = .ok session → s₀.named L key = some session.sessionId ∧
        (s.sessions session.sessionId).isSome) →
      (insertions log = 0 ∨ insertions log = 1 ∧ ∃ e ∈ log, e.Creates L key ∧ e.create = .lost) →
      (s₀.existed L key → insertions log = 0 ∧ s.existed L key) → Ledger key s₀ log s
  | after {id : Uuid} : s.named L key = some id → (s.sessions id).isSome →
      (∀ e ∈ log, ∀ session, e.result = .ok session → session.sessionId = id) →
      insertions log = 1 → s₀.existed L key = false → Ledger key s₀ log s

section Runs

variable {key : L.Key} {s s' s₀ : State Row} {e : Extraction Row} {id : Uuid}
variable {log : List (Extraction Row)}

theorem insertions_snoc (log : List (Extraction Row)) (e : Extraction Row) :
    insertions (log ++ [e]) = insertions log + e.inserted.toList.length := by
  unfold insertions
  rw [List.filterMap_append, List.length_append]
  cases h : e.inserted <;> simp [h]

theorem State.named_congr (h : s'.cookies = s.cookies) : s'.named L key = s.named L key := by
  unfold State.named
  rw [h]

theorem State.existed_of_named (h : s.named L key = some id) (hrow : (s.sessions id).isSome) :
    s.existed L key = true := by
  rw [State.existed, h, Option.bind_some, hrow]

theorem State.existed_grows (hcookies : s'.cookies = s.cookies)
    (hgrows : ∀ id, (s.sessions id).isSome → (s'.sessions id).isSome)
    (h : s.existed L key = true) : s'.existed L key = true := by
  unfold State.existed at h ⊢
  rw [State.named_congr hcookies]
  cases hnamed : s.named L key with
  | none => rw [hnamed] at h; cases h
  | some id =>
      rw [hnamed, Option.bind_some] at h
      rw [Option.bind_some]
      exact hgrows id h

theorem Ledger.start (key : L.Key) (s₀ : State Row) : Ledger key s₀ [] s₀ := by
  refine .before rfl ?_ (.inl rfl) fun hexisted => ⟨rfl, hexisted⟩
  intro e he
  cases he

/-- Others add and change rows. -/
theorem Ledger.others (h : Ledger key s₀ log s) (hcookies : s'.cookies = s.cookies)
    (hgrows : ∀ id, (s.sessions id).isSome → (s'.sessions id).isSome) : Ledger key s₀ log s' := by
  cases h with
  | before hsame hresults hcount hkept =>
      refine .before (hcookies.trans hsame) ?_ hcount ?_
      · intro e he session hresult
        obtain ⟨hnamed, hrow⟩ := hresults e he session hresult
        exact ⟨hnamed, hgrows _ hrow⟩
      · intro hexisted
        obtain ⟨hzero, hstill⟩ := hkept hexisted
        exact ⟨hzero, State.existed_grows hcookies hgrows hstill⟩
  | after hnamed hrow hresults hcount hnot =>
      exact .after ((State.named_congr hcookies).trans hnamed) (hgrows _ hrow) hresults hcount hnot

/-- An extraction that fails and inserts nothing. -/
theorem Ledger.snoc_quiet (h : Ledger key s₀ log s) (hinserted : e.inserted = none)
    (hresult : ∀ session, e.result ≠ .ok session) : Ledger key s₀ (log ++ [e]) s := by
  have hcount : insertions (log ++ [e]) = insertions log := by
    simp [insertions_snoc, hinserted]
  cases h with
  | before hsame hresults hinsertions hkept =>
      refine .before hsame ?_ ?_ (by rwa [hcount])
      · intro e' he' session hok
        obtain hold | hnew := List.mem_append.1 he'
        · exact hresults e' hold session hok
        · rw [List.mem_singleton.1 hnew] at hok
          exact absurd hok (hresult session)
      · rw [hcount]
        refine hinsertions.imp_right fun hone => ⟨hone.1, ?_⟩
        obtain ⟨e', he', hlost⟩ := hone.2
        exact ⟨e', List.mem_append_left _ he', hlost⟩
  | after hnamed hrow hresults hinsertions hnot =>
      refine .after hnamed hrow ?_ (hcount.trans hinsertions) hnot
      intro e' he' session hok
      obtain hold | hnew := List.mem_append.1 he'
      · exact hresults e' hold session hok
      · rw [List.mem_singleton.1 hnew] at hok
        exact absurd hok (hresult session)

/-- An extraction that loads a session. -/
theorem Ledger.snoc_loaded (h : Ledger key s₀ log s) {row : Row} (hid : s.named L key = some id)
    (hrow : s.sessions id = some row) (hinserted : e.inserted = none)
    (hresult : e.result = .ok ⟨id, row⟩) : Ledger key s₀ (log ++ [e]) s := by
  have hcount : insertions (log ++ [e]) = insertions log := by
    simp [insertions_snoc, hinserted]
  cases h with
  | before hsame hresults hinsertions hkept =>
      refine .before hsame ?_ ?_ (by rwa [hcount])
      · intro e' he' session hok
        obtain hold | hnew := List.mem_append.1 he'
        · exact hresults e' hold session hok
        · rw [List.mem_singleton.1 hnew, hresult] at hok
          cases hok
          exact ⟨(State.named_congr hsame).symm.trans hid, by rw [hrow]; rfl⟩
      · rw [hcount]
        refine hinsertions.imp_right fun hone => ⟨hone.1, ?_⟩
        obtain ⟨e', he', hlost⟩ := hone.2
        exact ⟨e', List.mem_append_left _ he', hlost⟩
  | after hnamed hexists hresults hinsertions hnot =>
      refine .after hnamed hexists ?_ (hcount.trans hinsertions) hnot
      intro e' he' session hok
      obtain hold | hnew := List.mem_append.1 he'
      · exact hresults e' hold session hok
      · rw [List.mem_singleton.1 hnew, hresult] at hok
        cases hok
        exact Option.some.inj (hid.symm.trans hnamed)

/-- An `INSERT` that takes effect in a steady request is its first, and the cookie is
still the one the request came with. -/
theorem Ledger.first_insert (h : Ledger key s₀ log s) (hsteady : Steady L key (log ++ [e]))
    (hbefore : e.before = s) (hcreates : e.Creates L key) (hcreate : e.create ≠ .failed) :
    s.existed L key = false ∧ s.cookies = s₀.cookies ∧ insertions log = 0 ∧
      (∀ e' ∈ log, ∀ session, e'.result ≠ .ok session) ∧ s₀.existed L key = false := by
  have hmem : e ∈ log ++ [e] := List.mem_append_right _ (List.mem_singleton.2 rfl)
  have hnot : s.existed L key = false := by
    by_contra hexisted
    rw [Bool.not_eq_false, ← hbefore] at hexisted
    exact hcreate (hsteady.select e hmem hexisted (hcreates.2 hexisted))
  cases h with
  | before hsame hresults hinsertions hkept =>
      refine ⟨hnot, hsame, ?_, ?_, ?_⟩
      · obtain hzero | ⟨_, e', he', hlost⟩ := hinsertions
        · exact hzero
        · have hpair := (List.pairwise_append.1 hsteady.insert).2.2 e' he' e
            (List.mem_singleton.2 rfl)
          exact absurd (hpair hlost.1 hlost.2 hcreates) hcreate
      · intro e' he' session hok
        obtain ⟨hnamed, hrow⟩ := hresults e' he' session hok
        have hexisted := State.existed_of_named ((State.named_congr hsame).trans hnamed) hrow
        rw [hnot] at hexisted
        cases hexisted
      · by_contra hexisted
        rw [Bool.not_eq_false] at hexisted
        rw [(hkept hexisted).2] at hnot
        cases hnot
  | after hnamed hrow _ _ _ =>
      rw [State.existed_of_named hnamed hrow] at hnot
      cases hnot

/-- One extraction of a steady request. -/
theorem Ledger.extract (h : Ledger key s₀ log s) (hsteady : Steady L key (log ++ [e]))
    (hbefore : e.before = s) (hgrows : ∀ id, (s.sessions id).isSome → (s'.sessions id).isSome)
    (he : Extracted L key s s' e) : Ledger key s₀ (log ++ [e]) s' := by
  cases he with
  | layerless hnone hnone' hinserted hresult =>
      exact (h.snoc_quiet hinserted (by simp [hresult])).others (hnone'.trans hnone.symm) hgrows
  | loaded hid hrow _ hcookies hinserted hresult =>
      exact (h.snoc_loaded hid hrow hinserted hresult).others hcookies hgrows
  | refused _ _ hcookies hinserted hresult =>
      exact (h.snoc_quiet hinserted (by simp [hresult])).others hcookies hgrows
  | orphaned hcreates hlost hcookies hinserted hresult =>
      obtain ⟨_, hsame, hzero, hfailed, hnot⟩ :=
        h.first_insert hsteady hbefore hcreates (by simp [hlost])
      refine .before (hcookies.trans hsame) ?_ (.inr ⟨?_, e, ?_, hcreates, hlost⟩) ?_
      · intro e' he' session hok
        obtain hold | hnew := List.mem_append.1 he'
        · exact absurd hok (hfailed e' hold session)
        · rw [List.mem_singleton.1 hnew, hresult] at hok
          cases hok
      · rw [insertions_snoc, hzero, hinserted]
        rfl
      · exact List.mem_append_right _ (List.mem_singleton.2 rfl)
      · intro hexisted
        rw [hnot] at hexisted
        cases hexisted
  | created hcreates hanswered hnamed hrow hinserted hresult =>
      obtain ⟨_, _, hzero, hfailed, hnot⟩ :=
        h.first_insert hsteady hbefore hcreates (by simp [hanswered])
      refine .after hnamed hrow ?_ ?_ hnot
      · intro e' he' session hok
        obtain hold | hnew := List.mem_append.1 he'
        · exact absurd hok (hfailed e' hold session)
        · rw [List.mem_singleton.1 hnew, hresult] at hok
          cases hok
          rfl
      · rw [insertions_snoc, hzero, hinserted]
        rfl

theorem Steady.of_append {es : List (Extraction Row)} (h : Steady L key (log ++ es)) :
    Steady L key log :=
  ⟨fun e he => h.select e (List.mem_append_left _ he), (List.pairwise_append.1 h.insert).1⟩

theorem run_ledger (hL : L.Lawful) (h : RequestRun key s₀ log s) (hsteady : Steady L key log) :
    Ledger key s₀ log s := by
  refine h.invariant (I := fun log s => Steady L key log → Ledger key s₀ log s)
    (fun _ => .start key s₀) ?_ hsteady
  intro log s a s' es _ ih _ hs hsteady
  have hledger := ih hsteady.of_append
  obtain ⟨hgrows, ⟨rfl, hcookies⟩ | ⟨e, rfl, hbefore, he⟩⟩ := step_cases hL hs
  · rw [List.append_nil]
    exact hledger.others hcookies hgrows
  · exact hledger.extract hsteady hbefore hgrows he

/-- A row is inserted by an `INSERT` that takes effect on the creating path. -/
theorem Extracted.inserted_iff (hbefore : e.before = s) (h : Extracted L key s s' e) :
    e.inserted.isSome ↔ e.Creates L key ∧ e.create ≠ .failed := by
  cases h with
  | layerless hnone _ hinserted _ =>
      simp [hinserted, Extraction.Creates, hbefore, hnone]
  | loaded hid hrow hload _ hinserted _ =>
      have hexisted : e.before.existed L key = true := by
        rw [hbefore]
        exact State.existed_of_named hid (by rw [hrow]; rfl)
      simp [hinserted, Extraction.Creates, hexisted, hload]
  | refused _ hfailed _ hinserted _ => simp [hinserted, hfailed]
  | orphaned hcreates hlost _ hinserted _ => simp [hinserted, hcreates, hlost]
  | created hcreates hanswered _ _ hinserted _ => simp [hinserted, hcreates, hanswered]

theorem run_inserted_iff (hL : L.Lawful) (h : RequestRun key s₀ log s) :
    ∀ e ∈ log, e.inserted.isSome ↔ e.Creates L key ∧ e.create ≠ .failed := by
  refine h.invariant (I := fun log _ => ∀ e ∈ log, e.inserted.isSome ↔ e.Creates L key ∧
    e.create ≠ .failed) (fun e he => by cases he) ?_
  intro log s a s' es _ ih _ hs e he
  obtain hold | hnew := List.mem_append.1 he
  · exact ih e hold
  · obtain ⟨_, ⟨rfl, _⟩ | ⟨e', rfl, hbefore, hextracted⟩⟩ := step_cases hL hs
    · cases hnew
    · rw [List.mem_singleton.1 hnew]
      exact hextracted.inserted_iff hbefore

theorem insertions_eq_zero (h : insertions log = 0) (he : e ∈ log) : e.inserted = none := by
  rw [insertions, List.length_eq_zero_iff, List.filterMap_eq_nil_iff] at h
  exact h e he

/-- Where at most one row was inserted, none was inserted after another. -/
theorem insertions_pairwise (h : insertions log ≤ 1) :
    log.Pairwise fun e e' => e.inserted.isSome → e'.inserted = none := by
  induction log with
  | nil => exact .nil
  | cons e log ih =>
      cases hinserted : e.inserted with
      | none =>
          have hcount : insertions (e :: log) = insertions log := by
            simp [insertions, hinserted]
          refine .cons (fun e' _ hsome => ?_) (ih (hcount ▸ h))
          rw [hinserted] at hsome
          cases hsome
      | some id =>
          have hcount : insertions (e :: log) = insertions log + 1 := by
            simp [insertions, hinserted]
          have hzero : insertions log = 0 := by omega
          exact .cons (fun e' he' _ => insertions_eq_zero hzero he') (ih (by omega))

/-- The extractions of a request keep its session exactly when no failed `SELECT` of
an existing row, and no `INSERT` lost behind an error, is followed by an `INSERT`
that takes effect. -/
theorem session_continuity (hL : L.Lawful) (h : RequestRun key s₀ log s) :
    Continuous key s₀ log s ↔ Steady L key log := by
  have hiff := run_inserted_iff hL h
  constructor
  · intro hcontinuous
    constructor
    · intro e he hexisted hload
      by_contra hcreate
      have hcookies : e.before.cookies.isSome := by
        by_contra hnone
        rw [Option.not_isSome_iff_eq_none] at hnone
        simp [State.existed, State.named, hnone] at hexisted
      obtain ⟨id, hid⟩ := Option.isSome_iff_exists.1
        ((hiff e he).2 ⟨⟨hcookies, fun _ => hload⟩, hcreate⟩)
      rw [hcontinuous.inserted e he id hid] at hexisted
      cases hexisted
    · refine (insertions_pairwise hcontinuous.once).imp_of_mem ?_
      intro e e' he he' hpair hcreates hlost hcreates'
      by_contra hcreate'
      have hnone := hpair ((hiff e he).2 ⟨hcreates, by simp [hlost]⟩)
      have hsome := (hiff e' he').2 ⟨hcreates', hcreate'⟩
      rw [hnone] at hsome
      cases hsome
  · intro hsteady
    have hinserted : ∀ e ∈ log, ∀ id, e.inserted = some id → e.before.existed L key = false := by
      intro e he id hid
      obtain ⟨hcreates, hcreate⟩ := (hiff e he).1 (by rw [hid]; rfl)
      by_contra hexisted
      rw [Bool.not_eq_false] at hexisted
      exact hcreate (hsteady.select e he hexisted (hcreates.2 hexisted))
    cases run_ledger hL h hsteady with
    | before hsame hresults hinsertions hkept =>
        refine ⟨?_, hinserted, ?_, by omega⟩
        · intro id hid hrow
          have hzero := (hkept (State.existed_of_named hid hrow)).1
          refine ⟨hsame, fun e he => ⟨insertions_eq_zero hzero he, fun session hok => ?_⟩⟩
          exact Option.some.inj ((hresults e he session hok).1.symm.trans hid)
        · intro e he e' he' session session' hok hok'
          exact Option.some.inj
            ((hresults e he session hok).1.symm.trans (hresults e' he' session' hok').1)
    | after hnamed hrow hresults hinsertions hnot =>
        refine ⟨?_, hinserted, ?_, hinsertions.le⟩
        · intro id hid hrow'
          rw [State.existed_of_named hid hrow'] at hnot
          cases hnot
        · intro e he e' he' session session' hok hok'
          exact (hresults e he session hok).trans (hresults e' he' session' hok').symm

end Runs

/-! ## The extractor of the passkey routes -/

section Passkeys
open Passkeys (Webauthn Db Route Phase loadSession enter)

variable {W : Webauthn} {q : ℕ} {route : Route W} {seed : W.Seed} {sid : Uuid}

theorem store_ne_creating (sid : Uuid) (challenge : W.Challenge) (reply : Passkeys.Reply W) :
    (Passkeys.store sid challenge reply).1 ≠ .creating := by
  unfold Passkeys.store
  split <;> simp [Passkeys.returnError]

theorem enter_ne_creating (challengeState : Option (Passkeys.Stored W)) :
    (enter q route seed sid challengeState).1 ≠ .creating := by
  unfold enter
  split
  · split <;> simp [Passkeys.returnError]
  · simp
  · unfold Passkeys.startDiscoverable
    split
    · simp [Passkeys.returnError]
    · exact store_ne_creating _ _ _
  · simp [Passkeys.returnError]
  · unfold Passkeys.finishRegistration
    split
    · split
      · simp [Passkeys.returnError]
      · dsimp only
        split <;> simp
    · simp [Passkeys.returnError]
  · unfold Passkeys.finishAuthentication
    split
    · split <;> simp [Passkeys.returnError]
    · simp [Passkeys.returnError]
  · unfold Passkeys.identifyDiscoverable
    split
    · split <;> simp [Passkeys.returnError]
    · simp [Passkeys.returnError]

/-- A passkey request comes to its `INSERT` on the path that `Extraction.Creates`
describes, with the id its private cookie holds. -/
theorem loadSession_creating_iff (s : State (Passkeys.SessionRow W)) (key : L.Key) (db : Db W)
    (hdb : s.sessions = db.sessions) (o : Passkeys.Outcome) :
    (loadSession q route seed o db (s.named L key)).1 = .creating ↔
      (s.existed L key → o ≠ .done) := by
  unfold State.existed
  rw [hdb]
  cases hnamed : s.named L key with
  | none =>
      cases o <;> simp [loadSession]
  | some id =>
      cases o with
      | done =>
          cases hrow : db.sessions id with
          | none => simp [loadSession, hrow]
          | some row => simp [loadSession, hrow, enter_ne_creating]
      | rejected => simp [loadSession]
      | lost => simp [loadSession]

end Passkeys

/-! ## Runs of one extraction -/

/-- A codec that writes ids in decimal and cookies backwards. -/
def Codec.backwards : Codec where
  Key := Unit
  Nonce := Unit
  encrypt := fun _ _ _ value => String.ofList value.toList.reverse
  decrypt := fun _ _ value => some (String.ofList value.toList.reverse)
  format := Nat.repr
  parseStr := String.toNat?

theorem Codec.backwards_lawful : Codec.backwards.Lawful where
  decrypt := by
    intro key nonce name value
    simp [backwards]
  parseStr := fun id => Nat.toNat?_repr id

/-- A request whose jar holds the cookie of session 1, which exists. -/
def returning : State Unit :=
  ⟨some (saveCookie Codec.backwards () () 1 fun _ => none), fun id => if id = 1 then some () else none⟩

/-- An extraction whose `INSERT` would draw the id 2. -/
def inputs (load : Select) (create : Insert) : Inputs Codec.backwards Unit :=
  ⟨load, [], create, 2, (), ()⟩

def extraction (load : Select) (create : Insert) : Extraction Unit :=
  let r := fromRequestParts Codec.backwards () (inputs load create) returning
  ⟨returning, load, create, r.2.1, r.2.2⟩

theorem returning_existed : returning.existed Codec.backwards () = true :=
  State.existed_of_named (named_saveCookie Codec.backwards_lawful (fun _ => none) ()) rfl

theorem returning_run (load : Select) (create : Insert) :
    ∃ s, RequestRun (L := Codec.backwards) () returning [extraction load create] s := by
  refine ⟨(fromRequestParts Codec.backwards () (inputs load create) returning).1, ?_⟩
  exact StepRun.Run.snoc (a := Action.extract (inputs load create)) .start trivial rfl

/-- The row is there, and its `SELECT` is answered. -/
theorem session_continuity_returning : ∃ log s,
    RequestRun (L := Codec.backwards) () returning log s ∧ log.length = 1 ∧
      Continuous (L := Codec.backwards) () returning log s := by
  obtain ⟨s, hrun⟩ := returning_run .answered .answered
  refine ⟨_, s, hrun, rfl, (session_continuity Codec.backwards_lawful hrun).2 ⟨?_, ?_⟩⟩
  · intro e he _ hload
    rw [List.mem_singleton.1 he] at hload
    cases hload
  · exact List.pairwise_singleton ..

/-- The row is there, but its `SELECT` fails: another row is inserted. -/
theorem not_session_continuity : ∃ log s, RequestRun (L := Codec.backwards) () returning log s ∧
    ¬ Continuous (L := Codec.backwards) () returning log s := by
  obtain ⟨s, hrun⟩ := returning_run .failed .answered
  refine ⟨_, s, hrun, fun hcontinuous => ?_⟩
  have hmem : extraction .failed .answered ∈ [extraction .failed .answered] :=
    List.mem_singleton.2 rfl
  have hinserted := (run_inserted_iff Codec.backwards_lawful hrun _ hmem).2
    ⟨⟨rfl, fun _ => rfl⟩, by simp [extraction]⟩
  obtain ⟨id, hid⟩ := Option.isSome_iff_exists.1 hinserted
  have hnot := hcontinuous.inserted _ hmem id hid
  rw [show (extraction .failed .answered).before = returning from rfl, returning_existed] at hnot
  cases hnot

end Cja.Server
