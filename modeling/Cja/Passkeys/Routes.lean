import Cja.Lib.StepRun
import Cja.Lib.Text
import Cja.Jobs.Tables

/-!
# Passkey routes

Six routes register a user and log one in. Every start route stores a challenge
on the session of its cookie, every finish route verifies a response against the
challenge it read when the session was extracted. A request is a program over
single statements: each statement of a request is one step, it may fail, and it
may take effect although the request sees an error. Between two statements of
one request any statement of the others may run.

The WebAuthn library is a parameter. So are the JSON codecs of its types.
-/
namespace Cja.Passkeys
open Jobs (Uuid)

abbrev CredentialId := List UInt8

/-! ## The library -/

/-- The challenge of a session, over the state types of the library. -/
inductive ChallengeState (R A D : Type) where
  | registration (registrationState : R) (userUniqueId : Uuid) (username : String)
      (displayName : Option String)
  | authentication (authState : A) (userId : Uuid)
  | discoverableAuthentication (authState : D)
deriving Repr, DecidableEq

inductive ResidentKeyRequirement where
  | discouraged | preferred | required
deriving Repr, DecidableEq

/-- What the routes use of `webauthn_rs`, and `serde_json` at its types. The
randomness of a start route is its seed. -/
structure Webauthn where
  Seed : Type
  Value : Type
  Passkey : Type
  PasskeyRegistration : Type
  PasskeyAuthentication : Type
  DiscoverableAuthentication : Type
  RegisterPublicKeyCredential : Type
  PublicKeyCredential : Type
  AuthenticationResult : Type
  CreationChallengeResponse : Type
  RequestChallengeResponse : Type
  credId : Passkey → CredentialId
  resultCredId : AuthenticationResult → CredentialId
  startPasskeyRegistration : Seed → Uuid → String → String →
    Option (CreationChallengeResponse × PasskeyRegistration)
  /-- Sets `resident_key` of the authenticator selection, where there is one. -/
  setResidentKey : ResidentKeyRequirement → CreationChallengeResponse →
    Option CreationChallengeResponse
  finishPasskeyRegistration : RegisterPublicKeyCredential → PasskeyRegistration → Option Passkey
  startPasskeyAuthentication : Seed → List Passkey →
    Option (RequestChallengeResponse × PasskeyAuthentication)
  finishPasskeyAuthentication : PublicKeyCredential → PasskeyAuthentication →
    Option AuthenticationResult
  startDiscoverableAuthentication : Seed →
    Option (RequestChallengeResponse × DiscoverableAuthentication)
  /-- The user handle and the credential id of a response. -/
  identifyDiscoverableAuthentication : PublicKeyCredential → Option (Uuid × CredentialId)
  finishDiscoverableAuthentication : PublicKeyCredential → DiscoverableAuthentication →
    List Passkey → Option AuthenticationResult
  /-- The passkey left behind, and whether it changed; `none` for another credential. -/
  updateCredential : Passkey → AuthenticationResult → Option (Passkey × Bool)
  challengeToValue :
    ChallengeState PasskeyRegistration PasskeyAuthentication DiscoverableAuthentication →
      Option Value
  challengeFromValue : Value →
    Option (ChallengeState PasskeyRegistration PasskeyAuthentication DiscoverableAuthentication)
  passkeyToValue : Passkey → Option Value
  passkeyFromValue : Value → Option Passkey

variable {W : Webauthn}

abbrev Webauthn.Challenge (W : Webauthn) : Type :=
  ChallengeState W.PasskeyRegistration W.PasskeyAuthentication W.DiscoverableAuthentication

/-- What a finish route is posted. -/
inductive Response (W : Webauthn) where
  | attestation (credential : W.RegisterPublicKeyCredential)
  | assertion (credential : W.PublicKeyCredential)

inductive StatusCode where
  | badRequest | unauthorized | notFound | conflict | internalServerError
deriving Repr, DecidableEq

/-- The body of a 200. That of a finish is empty; the model keeps the name of
the challenge it had read. -/
inductive Reply (W : Webauthn) where
  | creation (challenge : W.CreationChallengeResponse)
  | request (challenge : W.RequestChallengeResponse)
  | empty (read : ℕ)

/-! ## The database -/

/-- A stored challenge. The start request that wrote it names it; no route reads
the name. -/
structure Stored (W : Webauthn) where
  value : W.Value
  writer : ℕ

/-- The columns of `sessions` that the routes use. -/
structure SessionRow (W : Webauthn) where
  userId : Option Uuid
  challengeState : Option (Stored W)

structure UserRow where
  userId : Uuid
  username : String
  displayName : Option String
deriving Repr, DecidableEq

structure CredentialRow (W : Webauthn) where
  credentialIdPk : Uuid
  userId : Uuid
  credentialJson : W.Value
  credentialId : CredentialId

/-- The open transaction of one `register::finish`, with its inserts. -/
structure Tx (W : Webauthn) where
  owner : ℕ
  users : List UserRow
  credentials : List (CredentialRow W)

structure Db (W : Webauthn) where
  sessions : Uuid → Option (SessionRow W)
  users : List UserRow
  credentials : List (CredentialRow W)
  txs : List (Tx W)

namespace Db

def empty : Db W := ⟨fun _ => none, [], [], []⟩

def updateSession (db : Db W) (sid : Uuid) (f : SessionRow W → SessionRow W) : Db W :=
  { db with sessions := Function.update db.sessions sid ((db.sessions sid).map f) }

/-- `INSERT INTO sessions DEFAULT VALUES` -/
def createSession (db : Db W) (sid : Uuid) : Db W :=
  { db with sessions := Function.update db.sessions sid (some ⟨none, none⟩) }

def setUserId (db : Db W) (sid userId : Uuid) : Db W :=
  db.updateSession sid fun row => { row with userId := some userId }

def setChallengeState (db : Db W) (sid : Uuid) (challenge : Stored W) : Db W :=
  db.updateSession sid fun row => { row with challengeState := some challenge }

def clearChallengeState (db : Db W) (sid : Uuid) : Db W :=
  db.updateSession sid fun row => { row with challengeState := none }

/-- The challenge column of a session. -/
def challengeOf (db : Db W) (sid : Uuid) : Option (Stored W) :=
  (db.sessions sid).bind fun row => row.challengeState

def userOf (db : Db W) (sid : Uuid) : Option Uuid :=
  (db.sessions sid).bind fun row => row.userId

def usernameExists (db : Db W) (username : String) : Bool :=
  db.users.any fun row => row.username == username

def findByUsername (db : Db W) (username : String) : Option UserRow :=
  db.users.find? fun row => row.username == username

/-- `ORDER BY created_at` is the order of the inserts. -/
def listForUser (db : Db W) (userId : Uuid) : List (CredentialRow W) :=
  db.credentials.filter fun row => row.userId == userId

def findByCredentialId (db : Db W) (credentialId : CredentialId) : Option (CredentialRow W) :=
  db.credentials.find? fun row => row.credentialId == credentialId

/-- `update_after_auth` -/
def updateCredentialJson (db : Db W) (pk : Uuid) (json : W.Value) : Db W :=
  { db with credentials := db.credentials.map fun row =>
      if row.credentialIdPk = pk then { row with credentialJson := json } else row }

def txOf (db : Db W) (q : ℕ) : Option (Tx W) := db.txs.find? fun tx => tx.owner == q

def begin (db : Db W) (q : ℕ) : Db W := { db with txs := ⟨q, [], []⟩ :: db.txs }

def updateTx (db : Db W) (q : ℕ) (f : Tx W → Tx W) : Db W :=
  { db with txs := db.txs.map fun tx => if tx.owner = q then f tx else tx }

def rollback (db : Db W) (q : ℕ) : Db W :=
  { db with txs := db.txs.filter fun tx => tx.owner != q }

/-- The inserts of a committed transaction become rows. -/
def commit (db : Db W) (q : ℕ) : Db W :=
  match db.txOf q with
  | some tx =>
      { db.rollback q with
        users := db.users ++ tx.users
        credentials := db.credentials ++ tx.credentials }
  | none => db

/-- What a unique index answers to an insert: an uncommitted row of another
transaction makes it wait. -/
inductive Insert where
  | inserted | conflict | waits
deriving Repr, DecidableEq

def UserRow.clashes (row other : UserRow) : Bool :=
  row.userId == other.userId || row.username == other.username

def CredentialRow.clashes (row other : CredentialRow W) : Bool :=
  row.credentialIdPk == other.credentialIdPk || row.credentialId == other.credentialId

def insertUser (db : Db W) (row : UserRow) : Insert :=
  if db.users.any (UserRow.clashes row) then .conflict
  else if db.txs.any fun tx => tx.users.any (UserRow.clashes row) then .waits
  else .inserted

def insertCredential (db : Db W) (row : CredentialRow W) : Insert :=
  if db.credentials.any (CredentialRow.clashes row) then .conflict
  else if db.txs.any fun tx => tx.credentials.any (CredentialRow.clashes row) then .waits
  else .inserted

end Db

/-! ## Requests -/

structure RegisterStartRequest where
  username : String
  displayName : Option String
deriving Repr, DecidableEq

structure AuthStartRequest where
  username : String
deriving Repr, DecidableEq

/-- A request with its parsed body. -/
inductive Route (W : Webauthn) where
  | registerStart (body : RegisterStartRequest)
  | registerFinish (credential : W.RegisterPublicKeyCredential)
  | authStart (body : AuthStartRequest)
  | authFinish (credential : W.PublicKeyCredential)
  | discoverableStart
  | discoverableFinish (credential : W.PublicKeyCredential)

/-- The statement a request runs next. A finish keeps the session, and the name
of the challenge it read. -/
inductive Phase (W : Webauthn) where
  | loading (cookie : Option Uuid)
  | creating
  | checkingUsername (sid : Uuid)
  | findingUser (sid : Uuid)
  | listing (sid : Uuid) (user : UserRow)
  | storing (sid : Uuid) (challenge : W.Challenge) (value : W.Value) (reply : Reply W)
  | beginning (sid : Uuid) (read : ℕ) (user : UserRow) (passkey : W.Passkey) (json : W.Value)
  | insertingUser (sid : Uuid) (read : ℕ) (user : UserRow) (passkey : W.Passkey)
      (json : W.Value)
  | insertingCredential (sid : Uuid) (read : ℕ) (user : UserRow) (passkey : W.Passkey)
      (json : W.Value)
  | committing (sid : Uuid) (read : ℕ) (user : UserRow) (passkey : W.Passkey)
  | findingVerified (sid : Uuid) (read : ℕ) (userId : Uuid) (result : W.AuthenticationResult)
  | findingIdentified (sid : Uuid) (read : ℕ) (authState : W.DiscoverableAuthentication)
      (userId : Uuid) (credentialId : CredentialId)
  /-- `update_after_auth` with new JSON, or `update_last_used`. -/
  | persisting (sid : Uuid) (read : ℕ) (userId : Uuid) (pk : Uuid) (json : Option W.Value)
  | settingUser (sid : Uuid) (read : ℕ) (userId : Uuid)
  | clearing (sid : Uuid) (read : ℕ)
  | returned (response : Except StatusCode (Reply W))

structure Request (W : Webauthn) where
  route : Route W
  phase : Phase W

/-- What an observer of the database and of the library records. -/
inductive Event (W : Webauthn) where
  /-- A start request replaced the challenge of the session by its own. -/
  | stored (q : ℕ) (sid : Uuid) (challenge : W.Challenge)
  /-- A finish request verified a response against the challenge it had read. -/
  | verified (q : ℕ) (sid : Uuid) (read : ℕ) (challenge : W.Challenge) (response : Response W)
  /-- A finish request committed a user with a credential. -/
  | registered (q : ℕ) (user : UserRow) (credentialId : CredentialId)
  | loggedIn (q : ℕ) (sid : Uuid) (userId : Uuid)
  /-- A finish request cleared the column, which held `held`. -/
  | cleared (q : ℕ) (sid : Uuid) (read : ℕ) (held : Option ℕ)
  /-- A finish request answered 200. -/
  | succeeded (q : ℕ) (read : ℕ)

/-- How a statement ends: it may also take effect behind an error. -/
inductive Outcome where
  | done | rejected | lost
deriving Repr, DecidableEq

abbrev Progress (W : Webauthn) : Type := Db W × Phase W × List (Event W)

def fail (db : Db W) (status : StatusCode) : Progress W := (db, .returned (.error status), [])

/-- A statement that waits for another transaction: all it can do is fail. -/
def waits (o : Outcome) (db : Db W) (status : StatusCode) : Option (Progress W) :=
  match o with
  | .rejected => some (fail db status)
  | _ => none

/-- A statement that reads. -/
def reads (o : Outcome) (db : Db W) (next : Phase W × List (Event W)) : Progress W :=
  match o with
  | .done => (db, next)
  | _ => fail db .internalServerError

/-- A statement that writes `db'`, recorded by `es`. -/
def writes (o : Outcome) (db db' : Db W) (status : StatusCode) (next : Phase W)
    (es : List (Event W)) : Progress W :=
  match o with
  | .done => (db', next, es)
  | .lost => (db', .returned (.error status), es)
  | .rejected => fail db status

/-! ## The routes between two statements -/

def trimIsEmpty (text : String) : Bool := text.toList.all Text.isWhitespace

def returnError (status : StatusCode) : Phase W × List (Event W) :=
  (.returned (.error status), [])

/-- The end of every start route: the challenge becomes JSON and is stored. -/
def store (sid : Uuid) (challenge : W.Challenge) (reply : Reply W) : Phase W × List (Event W) :=
  match W.challengeToValue challenge with
  | some value => (.storing sid challenge value reply, [])
  | none => returnError .internalServerError

/-- `register::start` after `username_exists`, with `temp_uuid`. -/
def startRegistration (seed : W.Seed) (tempUuid : Uuid) (sid : Uuid)
    (body : RegisterStartRequest) : Phase W × List (Event W) :=
  match W.startPasskeyRegistration seed tempUuid body.username
      (body.displayName.getD body.username) with
  | none => returnError .internalServerError
  | some (challenge, registrationState) =>
      match W.setResidentKey .preferred challenge with
      | none => returnError .internalServerError
      | some challenge =>
          store sid (.registration registrationState tempUuid body.username body.displayName)
            (.creation challenge)

/-- `auth::start` after `list_for_user`. -/
def startAuthentication (seed : W.Seed) (sid : Uuid) (user : UserRow)
    (creds : List (CredentialRow W)) : Phase W × List (Event W) :=
  if creds.isEmpty then returnError .notFound
  else
    match creds.mapM fun c => W.passkeyFromValue c.credentialJson with
    | none => returnError .internalServerError
    | some passkeys =>
        match W.startPasskeyAuthentication seed passkeys with
        | none => returnError .internalServerError
        | some (challenge, authState) =>
            store sid (.authentication authState user.userId) (.request challenge)

def startDiscoverable (seed : W.Seed) (sid : Uuid) : Phase W × List (Event W) :=
  match W.startDiscoverableAuthentication seed with
  | none => returnError .internalServerError
  | some (challenge, authState) =>
      store sid (.discoverableAuthentication authState) (.request challenge)

/-- `register::finish` up to its transaction. -/
def finishRegistration (q : ℕ) (sid : Uuid) (credential : W.RegisterPublicKeyCredential)
    (read : ℕ) : Option W.Challenge → Phase W × List (Event W)
  | some (.registration registrationState userUniqueId username displayName) =>
      match W.finishPasskeyRegistration credential registrationState with
      | none => returnError .badRequest
      | some passkey =>
          let verified : Event W := .verified q sid read
            (.registration registrationState userUniqueId username displayName)
            (.attestation credential)
          match W.passkeyToValue passkey with
          | none => (.returned (.error .internalServerError), [verified])
          | some json =>
              (.beginning sid read ⟨userUniqueId, username, displayName⟩ passkey json, [verified])
  | _ => returnError .badRequest

/-- `auth::finish` up to `find_by_credential_id`. -/
def finishAuthentication (q : ℕ) (sid : Uuid) (credential : W.PublicKeyCredential) (read : ℕ) :
    Option W.Challenge → Phase W × List (Event W)
  | some (.authentication authState userId) =>
      match W.finishPasskeyAuthentication credential authState with
      | none => returnError .unauthorized
      | some result =>
          (.findingVerified sid read userId result,
            [.verified q sid read (.authentication authState userId) (.assertion credential)])
  | _ => returnError .badRequest

/-- `auth::finish_discoverable` up to `find_by_credential_id`. -/
def identifyDiscoverable (sid : Uuid) (credential : W.PublicKeyCredential) (read : ℕ) :
    Option W.Challenge → Phase W × List (Event W)
  | some (.discoverableAuthentication authState) =>
      match W.identifyDiscoverableAuthentication credential with
      | none => returnError .unauthorized
      | some (userId, credentialId) =>
          (.findingIdentified sid read authState userId credentialId, [])
  | _ => returnError .badRequest

/-- The handler of a route once its session is extracted, up to its first
statement. -/
def enter (q : ℕ) (route : Route W) (seed : W.Seed) (sid : Uuid)
    (challengeState : Option (Stored W)) : Phase W × List (Event W) :=
  match route, challengeState with
  | .registerStart body, _ =>
      if trimIsEmpty body.username then returnError .badRequest else (.checkingUsername sid, [])
  | .authStart _, _ => (.findingUser sid, [])
  | .discoverableStart, _ => startDiscoverable seed sid
  | _, none => returnError .badRequest
  | .registerFinish credential, some stored =>
      finishRegistration q sid credential stored.writer (W.challengeFromValue stored.value)
  | .authFinish credential, some stored =>
      finishAuthentication q sid credential stored.writer (W.challengeFromValue stored.value)
  | .discoverableFinish credential, some stored =>
      identifyDiscoverable sid credential stored.writer (W.challengeFromValue stored.value)

/-- `persist_authenticated_credential` up to its statement. -/
def persistAuthenticatedCredential (sid : Uuid) (read : ℕ) (userId : Uuid)
    (row : CredentialRow W) (passkey : W.Passkey) (result : W.AuthenticationResult) : Phase W :=
  if W.credId passkey ≠ W.resultCredId result then .returned (.error .unauthorized)
  else
    match W.updateCredential passkey result with
    | some (passkey, true) =>
        match W.passkeyToValue passkey with
        | some json => .persisting sid read userId row.credentialIdPk (some json)
        | none => .returned (.error .internalServerError)
    | some (_, false) => .persisting sid read userId row.credentialIdPk none
    | none => .returned (.error .unauthorized)

/-- `auth::finish` after `find_by_credential_id`. -/
def verifiedRow (sid : Uuid) (read : ℕ) (userId : Uuid) (result : W.AuthenticationResult)
    (found : Option (CredentialRow W)) : Phase W × List (Event W) :=
  match found.filter fun row => row.userId == userId with
  | none => returnError .unauthorized
  | some row =>
      match W.passkeyFromValue row.credentialJson with
      | none => returnError .internalServerError
      | some passkey => (persistAuthenticatedCredential sid read userId row passkey result, [])

/-- `auth::finish_discoverable` after `find_by_credential_id`. -/
def identifiedRow (q : ℕ) (sid : Uuid) (credential : W.PublicKeyCredential) (read : ℕ)
    (authState : W.DiscoverableAuthentication) (userId : Uuid)
    (found : Option (CredentialRow W)) : Phase W × List (Event W) :=
  match found.filter fun row => row.userId == userId with
  | none => returnError .unauthorized
  | some row =>
      match W.passkeyFromValue row.credentialJson with
      | none => returnError .internalServerError
      | some passkey =>
          match W.finishDiscoverableAuthentication credential authState [passkey] with
          | none => returnError .unauthorized
          | some result =>
              (persistAuthenticatedCredential sid read userId row passkey result,
                [.verified q sid read (.discoverableAuthentication authState)
                  (.assertion credential)])

/-! ## Statements -/

/-- `user::create` inside the transaction: every error is a conflict. -/
def createUser (q : ℕ) (o : Outcome) (db : Db W) (sid : Uuid) (read : ℕ) (user : UserRow)
    (passkey : W.Passkey) (json : W.Value) : Option (Progress W) :=
  match db.insertUser user with
  | .inserted =>
      some (writes o db (db.updateTx q fun tx => { tx with users := tx.users ++ [user] }) .conflict
        (.insertingCredential sid read user passkey json) [])
  | .conflict => some (fail db .conflict)
  | .waits => waits o db .conflict

/-- `credential::create` inside the transaction. -/
def createCredential (q : ℕ) (o : Outcome) (pk : Uuid) (db : Db W) (sid : Uuid) (read : ℕ)
    (user : UserRow) (passkey : W.Passkey) (json : W.Value) : Option (Progress W) :=
  let row : CredentialRow W := ⟨pk, user.userId, json, W.credId passkey⟩
  match db.insertCredential row with
  | .inserted =>
      some (writes o db
        (db.updateTx q fun tx => { tx with credentials := tx.credentials ++ [row] })
        .internalServerError (.committing sid read user passkey) [])
  | .conflict => some (fail db .internalServerError)
  | .waits => waits o db .internalServerError

/-- `set_user_id`; the column references `passkey_users`. -/
def setUser (q : ℕ) (o : Outcome) (db : Db W) (sid : Uuid) (read : ℕ) (userId : Uuid) :
    Progress W :=
  if db.users.any fun row => row.userId == userId then
    writes o db (db.setUserId sid userId) .internalServerError (.clearing sid read)
      [.loggedIn q sid userId]
  else fail db .internalServerError

def clearChallenge (q : ℕ) (o : Outcome) (db : Db W) (sid : Uuid) (read : ℕ) : Progress W :=
  let cleared : Event W := .cleared q sid read ((db.challengeOf sid).map fun c => c.writer)
  match o with
  | .done =>
      (db.clearChallengeState sid, .returned (.ok (.empty read)), [cleared, .succeeded q read])
  | .lost =>
      (db.clearChallengeState sid, .returned (.error .internalServerError), [cleared])
  | .rejected => fail db .internalServerError

/-- `Session::from_request_parts` after its `SELECT`: a cookie without a row, or
an error, makes a new session. -/
def loadSession (q : ℕ) (route : Route W) (seed : W.Seed) (o : Outcome) (db : Db W)
    (cookie : Option Uuid) : Phase W × List (Event W) :=
  match o, cookie with
  | .done, some sid =>
      match db.sessions sid with
      | some row => enter q route seed sid row.challengeState
      | none => (.creating, [])
  | _, _ => (.creating, [])

def createSession (q : ℕ) (route : Route W) (seed : W.Seed) (fresh : Uuid) (o : Outcome)
    (db : Db W) : Option (Progress W) :=
  match o, db.sessions fresh with
  | .done, none => some (db.createSession fresh, enter q route seed fresh none)
  | .lost, none =>
      some (db.createSession fresh, .returned (.error .internalServerError), [])
  | .rejected, _ => some (fail db .internalServerError)
  | _, some _ => none

/-- The next statement of a request. `fresh` is the random id it may need. -/
def advance (q : ℕ) (route : Route W) (seed : W.Seed) (fresh : Uuid) (o : Outcome) (db : Db W) :
    Phase W → Option (Progress W)
  | .loading cookie => some (db, loadSession q route seed o db cookie)
  | .creating => createSession q route seed fresh o db
  | .checkingUsername sid =>
      match route with
      | .registerStart body =>
          some (reads o db (if db.usernameExists body.username then returnError .conflict
            else startRegistration seed fresh sid body))
      | _ => none
  | .findingUser sid =>
      match route with
      | .authStart body =>
          some (reads o db (match db.findByUsername body.username with
            | none => returnError .notFound
            | some user => (.listing sid user, [])))
      | _ => none
  | .listing sid user =>
      some (reads o db (startAuthentication seed sid user (db.listForUser user.userId)))
  | .storing sid challenge value reply =>
      some (writes o db (db.setChallengeState sid ⟨value, q⟩) .internalServerError
        (.returned (.ok reply)) [.stored q sid challenge])
  | .beginning sid read user passkey json =>
      some (writes o db (db.begin q) .internalServerError
        (.insertingUser sid read user passkey json) [])
  | .insertingUser sid read user passkey json => createUser q o db sid read user passkey json
  | .insertingCredential sid read user passkey json =>
      createCredential q o fresh db sid read user passkey json
  | .committing sid read user passkey =>
      some (writes o db (db.commit q) .internalServerError (.settingUser sid read user.userId)
        [.registered q user (W.credId passkey)])
  | .findingVerified sid read userId result =>
      some (reads o db (verifiedRow sid read userId result
        (db.findByCredentialId (W.resultCredId result))))
  | .findingIdentified sid read authState userId credentialId =>
      match route with
      | .discoverableFinish credential =>
          some (reads o db (identifiedRow q sid credential read authState userId
            (db.findByCredentialId credentialId)))
      | _ => none
  | .persisting sid read userId pk json =>
      some (writes o db (json.elim db fun json => db.updateCredentialJson pk json)
        .internalServerError (.settingUser sid read userId) [])
  | .settingUser sid read userId => some (setUser q o db sid read userId)
  | .clearing sid read => some (clearChallenge q o db sid read)
  | .returned _ => none

/-! ## The system -/

structure State (W : Webauthn) where
  db : Db W
  requests : ℕ → Option (Request W)

def State.setRequest (s : State W) (q : ℕ) (r : Request W) : State W :=
  { s with requests := Function.update s.requests q (some r) }

def State.init : State W := ⟨.empty, fun _ => none⟩

inductive Action (W : Webauthn) where
  /-- A request arrives with the session id of its cookie. -/
  | arrive (q : ℕ) (route : Route W) (cookie : Option Uuid)
  | exec (q : ℕ) (seed : W.Seed) (fresh : Uuid) (o : Outcome)
  /-- The rollback of a transaction whose request has returned. -/
  | rollback (q : ℕ)

def step (s : State W) : Action W → Option (State W × List (Event W))
  | .arrive q route cookie =>
      match s.requests q with
      | none => some (s.setRequest q ⟨route, .loading cookie⟩, [])
      | some _ => none
  | .exec q seed fresh o =>
      match s.requests q with
      | some r =>
          (advance q r.route seed fresh o s.db r.phase).map fun p =>
            ({ s with db := p.1 }.setRequest q ⟨r.route, p.2.1⟩, p.2.2)
      | none => none
  | .rollback q =>
      match s.requests q with
      | some ⟨_, .returned _⟩ => some ({ s with db := s.db.rollback q }, [])
      | _ => none

abbrev PasskeyRun (W : Webauthn) : List (Event W) → State W → Prop :=
  StepRun.Run step StepRun.Free State.init

end Cja.Passkeys
