import Cja.Passkeys.Routes

/-!
# What a statement of a request does

`Wrote` lists the effects a statement can have on the database, with the events
it records. The frame lemmas after it say what no statement changes: rows of
users and credentials stay, the transaction of another request stays, and the
user of a session changes in `set_user_id` alone.
-/
namespace Cja.Passkeys
open Jobs (Uuid)

variable {W : Webauthn}

/-- Events of the library alone. -/
structure Quiet (es : List (Event W)) : Prop where
  only : ∀ e ∈ es, ∃ q sid read c response, e = .verified q sid read c response

inductive Wrote (q : ℕ) (fresh : Uuid) (db : Db W) : Phase W → Db W → List (Event W) → Prop
  | nothing {phase : Phase W} {es : List (Event W)} : Quiet es → Wrote q fresh db phase db es
  | created {es : List (Event W)} : db.sessions fresh = none → Quiet es →
      Wrote q fresh db .creating (db.createSession fresh) es
  | stored {sid : Uuid} {c : W.Challenge} {v : W.Value} {reply : Reply W} :
      Wrote q fresh db (.storing sid c v reply) (db.setChallengeState sid ⟨v, q⟩)
        [.stored q sid c]
  | began {sid : Uuid} {read : ℕ} {user : UserRow} {p : W.Passkey} {v : W.Value} :
      Wrote q fresh db (.beginning sid read user p v) (db.begin q) []
  | insertedUser {sid : Uuid} {read : ℕ} {user : UserRow} {p : W.Passkey} {v : W.Value} :
      db.insertUser user = .inserted →
      Wrote q fresh db (.insertingUser sid read user p v)
        (db.updateTx q fun tx => { tx with users := tx.users ++ [user] }) []
  | insertedCredential {sid : Uuid} {read : ℕ} {user : UserRow} {p : W.Passkey} {v : W.Value} :
      db.insertCredential ⟨fresh, user.userId, v, W.credId p⟩ = .inserted →
      Wrote q fresh db (.insertingCredential sid read user p v)
        (db.updateTx q fun tx =>
          { tx with credentials := tx.credentials ++ [⟨fresh, user.userId, v, W.credId p⟩] }) []
  | committed {sid : Uuid} {read : ℕ} {user : UserRow} {p : W.Passkey} :
      Wrote q fresh db (.committing sid read user p) (db.commit q)
        [.registered q user (W.credId p)]
  | persisted {sid : Uuid} {read : ℕ} {userId pk : Uuid} {v : W.Value} :
      Wrote q fresh db (.persisting sid read userId pk (some v)) (db.updateCredentialJson pk v) []
  | loggedIn {sid : Uuid} {read : ℕ} {userId : Uuid} :
      Wrote q fresh db (.settingUser sid read userId) (db.setUserId sid userId)
        [.loggedIn q sid userId]
  | cleared {sid : Uuid} {read : ℕ} :
      Wrote q fresh db (.clearing sid read) (db.clearChallengeState sid)
        [.cleared q sid read ((db.challengeOf sid).map fun c => c.writer)]
  | finished {sid : Uuid} {read : ℕ} :
      Wrote q fresh db (.clearing sid read) (db.clearChallengeState sid)
        [.cleared q sid read ((db.challengeOf sid).map fun c => c.writer), .succeeded q read]

variable {q : ℕ} {fresh : Uuid} {seed : W.Seed} {route : Route W} {o : Outcome}
variable {db db' : Db W} {phase phase' : Phase W} {es : List (Event W)} {p : Progress W}

theorem Quiet.nil : Quiet ([] : List (Event W)) where
  only := by
    intro e he
    cases he

theorem Quiet.verified (q : ℕ) (sid : Uuid) (read : ℕ) (c : W.Challenge)
    (response : Response W) : Quiet [Event.verified q sid read c response] where
  only := by
    intro e he
    exact ⟨q, sid, read, c, response, List.mem_singleton.1 he⟩

theorem store_quiet (sid : Uuid) (c : W.Challenge) (reply : Reply W) :
    Quiet (store sid c reply).2 := by
  unfold store
  split <;> exact .nil

theorem startRegistration_quiet (seed : W.Seed) (tempUuid sid : Uuid)
    (body : RegisterStartRequest) : Quiet (startRegistration seed tempUuid sid body).2 := by
  unfold startRegistration
  split
  · exact .nil
  · split
    · exact .nil
    · exact store_quiet ..

theorem startAuthentication_quiet (seed : W.Seed) (sid : Uuid) (user : UserRow)
    (creds : List (CredentialRow W)) : Quiet (startAuthentication seed sid user creds).2 := by
  unfold startAuthentication
  split
  · exact .nil
  · split
    · exact .nil
    · split
      · exact .nil
      · exact store_quiet ..

theorem startDiscoverable_quiet (seed : W.Seed) (sid : Uuid) :
    Quiet (startDiscoverable seed sid).2 := by
  unfold startDiscoverable
  split
  · exact .nil
  · exact store_quiet ..

theorem finishRegistration_quiet (q : ℕ) (sid : Uuid)
    (credential : W.RegisterPublicKeyCredential) (read : ℕ) (c : Option W.Challenge) :
    Quiet (finishRegistration q sid credential read c).2 := by
  unfold finishRegistration
  split
  · split
    · exact .nil
    · dsimp only
      split <;> exact .verified ..
  · exact .nil

theorem finishAuthentication_quiet (q : ℕ) (sid : Uuid) (credential : W.PublicKeyCredential)
    (read : ℕ) (c : Option W.Challenge) :
    Quiet (finishAuthentication q sid credential read c).2 := by
  unfold finishAuthentication
  split
  · split
    · exact .nil
    · exact .verified ..
  · exact .nil

theorem identifyDiscoverable_quiet (sid : Uuid) (credential : W.PublicKeyCredential)
    (read : ℕ) (c : Option W.Challenge) :
    Quiet (identifyDiscoverable sid credential read c).2 := by
  unfold identifyDiscoverable
  split
  · split <;> exact .nil
  · exact .nil

theorem enter_quiet (q : ℕ) (route : Route W) (seed : W.Seed) (sid : Uuid)
    (challengeState : Option (Stored W)) : Quiet (enter q route seed sid challengeState).2 := by
  unfold enter
  split
  · split <;> exact .nil
  · exact .nil
  · exact startDiscoverable_quiet ..
  · exact .nil
  · exact finishRegistration_quiet ..
  · exact finishAuthentication_quiet ..
  · exact identifyDiscoverable_quiet ..

theorem verifiedRow_quiet (sid : Uuid) (read : ℕ) (userId : Uuid)
    (result : W.AuthenticationResult) (found : Option (CredentialRow W)) :
    Quiet (verifiedRow sid read userId result found).2 := by
  unfold verifiedRow
  split
  · exact .nil
  · split <;> exact .nil

theorem identifiedRow_quiet (q : ℕ) (sid : Uuid) (credential : W.PublicKeyCredential) (read : ℕ)
    (st : W.DiscoverableAuthentication) (userId : Uuid) (found : Option (CredentialRow W)) :
    Quiet (identifiedRow q sid credential read st userId found).2 := by
  unfold identifiedRow
  split
  · exact .nil
  · split
    · exact .nil
    · split
      · exact .nil
      · exact .verified ..

theorem loadSession_quiet (q : ℕ) (route : Route W) (seed : W.Seed) (o : Outcome) (db : Db W)
    (cookie : Option Uuid) : Quiet (loadSession q route seed o db cookie).2 := by
  unfold loadSession
  split
  · split
    · exact enter_quiet ..
    · exact .nil
  · exact .nil

theorem writes_cases (o : Outcome) (db db' : Db W) (status : StatusCode) (next : Phase W)
    (es : List (Event W)) :
    writes o db db' status next es = fail db status ∨
      ∃ phase, writes o db db' status next es = (db', phase, es) := by
  cases o with
  | done => exact .inr ⟨next, rfl⟩
  | rejected => exact .inl rfl
  | lost => exact .inr ⟨.returned (.error status), rfl⟩

theorem Wrote.of_reads {next : Phase W × List (Event W)} (h : Quiet next.2) :
    Wrote q fresh db phase (reads o db next).1 (reads o db next).2.2 := by
  cases o with
  | done => exact .nothing h
  | rejected => exact .nothing .nil
  | lost => exact .nothing .nil

theorem Wrote.of_waits {status : StatusCode} (h : waits o db status = some p) :
    Wrote q fresh db phase p.1 p.2.2 := by
  cases o with
  | rejected => cases h; exact .nothing .nil
  | done => cases h
  | lost => cases h

theorem Wrote.of_writes {status : StatusCode} {next : Phase W}
    (h : Wrote q fresh db phase db' es) :
    Wrote q fresh db phase (writes o db db' status next es).1
      (writes o db db' status next es).2.2 := by
  obtain heq | ⟨phase', heq⟩ := writes_cases o db db' status next es
  · rw [heq]
    exact .nothing .nil
  · rw [heq]
    exact h

theorem createUser_wrote {sid : Uuid} {read : ℕ} {user : UserRow} {k : W.Passkey} {v : W.Value}
    (h : createUser q o db sid read user k v = some p) :
    Wrote q fresh db (.insertingUser sid read user k v) p.1 p.2.2 := by
  unfold createUser at h
  cases hins : db.insertUser user with
  | inserted =>
      rw [hins] at h
      cases h
      exact Wrote.of_writes (.insertedUser hins)
  | conflict =>
      rw [hins] at h
      cases h
      exact .nothing .nil
  | waits =>
      rw [hins] at h
      exact .of_waits h

theorem createCredential_wrote {sid : Uuid} {read : ℕ} {user : UserRow} {k : W.Passkey}
    {v : W.Value} (h : createCredential q o fresh db sid read user k v = some p) :
    Wrote q fresh db (.insertingCredential sid read user k v) p.1 p.2.2 := by
  unfold createCredential at h
  dsimp only at h
  cases hins : db.insertCredential ⟨fresh, user.userId, v, W.credId k⟩ with
  | inserted =>
      rw [hins] at h
      cases h
      exact Wrote.of_writes (.insertedCredential hins)
  | conflict =>
      rw [hins] at h
      cases h
      exact .nothing .nil
  | waits =>
      rw [hins] at h
      exact .of_waits h

theorem createSession_wrote (h : createSession q route seed fresh o db = some p) :
    Wrote q fresh db .creating p.1 p.2.2 := by
  unfold createSession at h
  cases hrow : db.sessions fresh with
  | none =>
      rw [hrow] at h
      cases o with
      | done => cases h; exact .created hrow (enter_quiet ..)
      | rejected => cases h; exact .nothing .nil
      | lost => cases h; exact .created hrow .nil
  | some row =>
      rw [hrow] at h
      cases o with
      | done => cases h
      | rejected => cases h; exact .nothing .nil
      | lost => cases h

theorem setUser_wrote (q : ℕ) (fresh : Uuid) (o : Outcome) (db : Db W) (sid : Uuid) (read : ℕ)
    (userId : Uuid) : Wrote q fresh db (.settingUser sid read userId)
      (setUser q o db sid read userId).1 (setUser q o db sid read userId).2.2 := by
  unfold setUser
  split
  · exact Wrote.of_writes .loggedIn
  · exact .nothing .nil

theorem clearChallenge_wrote (q : ℕ) (fresh : Uuid) (o : Outcome) (db : Db W) (sid : Uuid)
    (read : ℕ) : Wrote q fresh db (.clearing sid read)
      (clearChallenge q o db sid read).1 (clearChallenge q o db sid read).2.2 := by
  cases o with
  | done => exact .finished
  | rejected => exact .nothing .nil
  | lost => exact .cleared

/-- Every statement, with the effect of its phase. -/
theorem advance_wrote (h : advance q route seed fresh o db phase = some p) :
    Wrote q fresh db phase p.1 p.2.2 := by
  cases phase with
  | loading cookie => cases h; exact .nothing (loadSession_quiet ..)
  | creating => exact createSession_wrote h
  | checkingUsername sid =>
      cases route with
      | registerStart body =>
          cases h
          apply Wrote.of_reads
          split
          · exact .nil
          · exact startRegistration_quiet ..
      | _ => cases h
  | findingUser sid =>
      cases route with
      | authStart body =>
          cases h
          apply Wrote.of_reads
          split <;> exact .nil
      | _ => cases h
  | listing sid user => cases h; exact .of_reads (startAuthentication_quiet ..)
  | storing sid c v reply => cases h; exact Wrote.of_writes .stored
  | beginning sid read user k v => cases h; exact Wrote.of_writes .began
  | insertingUser sid read user k v => exact createUser_wrote h
  | insertingCredential sid read user k v => exact createCredential_wrote h
  | committing sid read user k => cases h; exact Wrote.of_writes .committed
  | findingVerified sid read userId result => cases h; exact .of_reads (verifiedRow_quiet ..)
  | findingIdentified sid read st userId cid =>
      cases route with
      | discoverableFinish credential => cases h; exact .of_reads (identifiedRow_quiet ..)
      | _ => cases h
  | persisting sid read userId pk json =>
      cases h
      cases json with
      | none => exact Wrote.of_writes (.nothing .nil)
      | some v => exact Wrote.of_writes .persisted
  | settingUser sid read userId => cases h; exact setUser_wrote ..
  | clearing sid read => cases h; exact clearChallenge_wrote ..
  | returned response => cases h

/-! ## Frames -/

namespace Db

theorem sessions_updateSession (db : Db W) (sid other : Uuid) (f : SessionRow W → SessionRow W) :
    (db.updateSession sid f).sessions other =
      if other = sid then (db.sessions sid).map f else db.sessions other := by
  simp only [updateSession, Function.update_apply]

theorem sessions_createSession (db : Db W) (sid other : Uuid) :
    (db.createSession sid).sessions other =
      if other = sid then some ⟨none, none⟩ else db.sessions other := by
  simp only [createSession, Function.update_apply]

theorem challengeOf_createSession (db : Db W) {sid : Uuid} (h : db.sessions sid = none)
    (other : Uuid) : (db.createSession sid).challengeOf other = db.challengeOf other := by
  unfold challengeOf
  rw [sessions_createSession]
  split
  · rename_i heq
    rw [heq, h]
    rfl
  · rfl

theorem userOf_createSession (db : Db W) {sid : Uuid} (h : db.sessions sid = none)
    (other : Uuid) : (db.createSession sid).userOf other = db.userOf other := by
  unfold userOf
  rw [sessions_createSession]
  split
  · rename_i heq
    rw [heq, h]
    rfl
  · rfl

/-- An update that keeps the user column keeps the user of every session. -/
theorem userOf_updateSession (db : Db W) (sid : Uuid) {f : SessionRow W → SessionRow W}
    (h : ∀ row, (f row).userId = row.userId) (other : Uuid) :
    (db.updateSession sid f).userOf other = db.userOf other := by
  unfold userOf
  rw [sessions_updateSession]
  split
  · rename_i heq
    rw [heq]
    cases db.sessions sid with
    | none => rfl
    | some row => exact h row
  · rfl

theorem challengeOf_updateSession (db : Db W) (sid : Uuid) {f : SessionRow W → SessionRow W}
    (h : ∀ row, (f row).challengeState = row.challengeState) (other : Uuid) :
    (db.updateSession sid f).challengeOf other = db.challengeOf other := by
  unfold challengeOf
  rw [sessions_updateSession]
  split
  · rename_i heq
    rw [heq]
    cases db.sessions sid with
    | none => rfl
    | some row => exact h row
  · rfl

theorem userOf_setUserId (db : Db W) (sid userId other : Uuid) :
    (db.setUserId sid userId).userOf other = db.userOf other ∨
      other = sid ∧ (db.setUserId sid userId).userOf other = some userId := by
  unfold setUserId userOf
  rw [sessions_updateSession]
  split
  · rename_i heq
    cases hrow : db.sessions sid with
    | none => exact .inl (by rw [heq, hrow]; rfl)
    | some row => exact .inr ⟨heq, rfl⟩
  · exact .inl rfl

theorem challengeOf_setChallengeState (db : Db W) (sid : Uuid) (c : Stored W) (other : Uuid) :
    (db.setChallengeState sid c).challengeOf other = db.challengeOf other ∨
      other = sid ∧ (db.setChallengeState sid c).challengeOf other = some c := by
  unfold setChallengeState challengeOf
  rw [sessions_updateSession]
  split
  · rename_i heq
    cases hrow : db.sessions sid with
    | none => exact .inl (by rw [heq, hrow]; rfl)
    | some row => exact .inr ⟨heq, rfl⟩
  · exact .inl rfl

theorem challengeOf_clearChallengeState (db : Db W) (sid other : Uuid) :
    (db.clearChallengeState sid).challengeOf other = db.challengeOf other ∨
      other = sid ∧ (db.clearChallengeState sid).challengeOf other = none := by
  unfold clearChallengeState challengeOf
  rw [sessions_updateSession]
  split
  · rename_i heq
    cases hrow : db.sessions sid with
    | none => exact .inr ⟨heq, rfl⟩
    | some row => exact .inr ⟨heq, rfl⟩
  · exact .inl rfl

theorem challengeOf_clearChallengeState_self (db : Db W) (sid : Uuid) :
    (db.clearChallengeState sid).challengeOf sid = none := by
  unfold clearChallengeState challengeOf
  rw [sessions_updateSession, if_pos rfl]
  cases db.sessions sid <;> rfl

theorem mem_users_commit {db : Db W} {row : UserRow} (q : ℕ) (h : row ∈ db.users) :
    row ∈ (db.commit q).users := by
  unfold commit
  split
  · exact List.mem_append_left _ h
  · exact h

theorem mem_credentials_commit {db : Db W} {row : CredentialRow W} (q : ℕ)
    (h : row ∈ db.credentials) : row ∈ (db.commit q).credentials := by
  unfold commit
  split
  · exact List.mem_append_left _ h
  · exact h

theorem sessions_commit (db : Db W) (q : ℕ) : (db.commit q).sessions = db.sessions := by
  unfold commit
  split <;> rfl

/-- Looking an owner up in a table whose owners an update keeps. -/
theorem find?_map_owner (q q' : ℕ) {f : Tx W → Tx W} (hf : ∀ tx, (f tx).owner = tx.owner)
    (txs : List (Tx W)) :
    (txs.map fun tx => if tx.owner = q then f tx else tx).find? (fun tx => tx.owner == q') =
      (txs.find? fun tx => tx.owner == q').map fun tx => if tx.owner = q then f tx else tx := by
  rw [List.find?_map]
  congr 2
  funext tx
  simp only [Function.comp_apply]
  split
  · rw [hf]
  · rfl

theorem txOf_updateTx_self {db : Db W} {tx : Tx W} {f : Tx W → Tx W}
    (hf : ∀ tx, (f tx).owner = tx.owner) (h : db.txOf q = some tx) :
    (db.updateTx q f).txOf q = some (f tx) := by
  have howner : tx.owner = q := by simpa using List.find?_some h
  unfold txOf updateTx at *
  rw [find?_map_owner q q hf, h, Option.map_some, if_pos howner]

theorem txOf_updateTx_other (db : Db W) {q' : ℕ} (hne : q' ≠ q) {f : Tx W → Tx W}
    (hf : ∀ tx, (f tx).owner = tx.owner) : (db.updateTx q f).txOf q' = db.txOf q' := by
  unfold txOf updateTx
  rw [find?_map_owner q q' hf]
  cases h : db.txs.find? fun tx => tx.owner == q' with
  | none => rfl
  | some tx =>
      have howner : tx.owner = q' := by simpa using List.find?_some h
      rw [Option.map_some, if_neg (howner ▸ hne)]

theorem txOf_rollback_other (db : Db W) {q' : ℕ} (hne : q' ≠ q) :
    (db.rollback q).txOf q' = db.txOf q' := by
  unfold txOf rollback
  rw [List.find?_filter]
  congr 1
  funext tx
  by_cases h : tx.owner = q'
  · simp [h, hne]
  · simp [h]

theorem txOf_begin_other (db : Db W) {q' : ℕ} (hne : q' ≠ q) :
    (db.begin q).txOf q' = db.txOf q' := by
  have hq : (q == q') = false := beq_eq_false_iff_ne.2 hne.symm
  simp [txOf, begin, hq]

theorem txOf_begin (db : Db W) (q : ℕ) : (db.begin q).txOf q = some ⟨q, [], []⟩ := by
  simp [txOf, begin]

theorem txOf_commit_other (db : Db W) {q' : ℕ} (hne : q' ≠ q) :
    (db.commit q).txOf q' = db.txOf q' := by
  unfold commit
  split
  · exact txOf_rollback_other db hne
  · rfl

end Db

/-- A credential with this id belongs to this user. -/
def Db.Owns (db : Db W) (userId : Uuid) (cid : CredentialId) : Prop :=
  ∃ row ∈ db.credentials, row.credentialId = cid ∧ row.userId = userId

/-- What no statement of request `q` takes away. -/
structure Db.Extends (q : ℕ) (db db' : Db W) : Prop where
  users : ∀ row ∈ db.users, row ∈ db'.users
  credentials : ∀ row ∈ db.credentials, ∃ row' ∈ db'.credentials,
    row'.credentialIdPk = row.credentialIdPk ∧ row'.credentialId = row.credentialId ∧
      row'.userId = row.userId
  txs : ∀ q', q' ≠ q → db'.txOf q' = db.txOf q'

theorem Db.Extends.refl (q : ℕ) (db : Db W) : db.Extends q db :=
  ⟨fun _ h => h, fun row h => ⟨row, h, rfl, rfl, rfl⟩, fun _ _ => rfl⟩

theorem Db.Extends.owns (h : db.Extends q db') {userId : Uuid} {cid : CredentialId}
    (hown : db.Owns userId cid) : db'.Owns userId cid := by
  obtain ⟨row, hmem, hcid, huser⟩ := hown
  obtain ⟨row', hmem', _, hcid', huser'⟩ := h.credentials row hmem
  exact ⟨row', hmem', hcid'.trans hcid, huser'.trans huser⟩

theorem Db.Extends.of_tables (hu : db'.users = db.users) (hc : db'.credentials = db.credentials)
    (ht : ∀ q', q' ≠ q → db'.txOf q' = db.txOf q') : db.Extends q db' :=
  ⟨fun _ h => hu ▸ h, fun row h => ⟨row, hc ▸ h, rfl, rfl, rfl⟩, ht⟩

theorem Db.extends_updateCredentialJson (db : Db W) (q : ℕ) (pk : Uuid) (v : W.Value) :
    db.Extends q (db.updateCredentialJson pk v) := by
  refine ⟨fun _ h => h, ?_, fun _ _ => rfl⟩
  intro row hmem
  refine ⟨_, List.mem_map_of_mem hmem, ?_⟩
  split <;> exact ⟨rfl, rfl, rfl⟩

theorem Db.extends_begin (db : Db W) (q : ℕ) : db.Extends q (db.begin q) :=
  .of_tables rfl rfl fun _ hne => txOf_begin_other db hne

theorem Db.extends_updateTx (db : Db W) (q : ℕ) {f : Tx W → Tx W}
    (hf : ∀ tx, (f tx).owner = tx.owner) : db.Extends q (db.updateTx q f) :=
  .of_tables rfl rfl fun _ hne => txOf_updateTx_other db hne hf

theorem Db.extends_commit (db : Db W) (q : ℕ) : db.Extends q (db.commit q) :=
  ⟨fun _ => mem_users_commit q,
    fun row hmem => ⟨row, mem_credentials_commit q hmem, rfl, rfl, rfl⟩,
    fun _ => txOf_commit_other db⟩

theorem Wrote.extends (h : Wrote q fresh db phase db' es) : db.Extends q db' := by
  cases h with
  | nothing _ => exact .refl q db
  | created _ _ => exact .of_tables rfl rfl fun _ _ => rfl
  | stored => exact .of_tables rfl rfl fun _ _ => rfl
  | began => exact db.extends_begin q
  | insertedUser _ => exact db.extends_updateTx q fun _ => rfl
  | insertedCredential _ => exact db.extends_updateTx q fun _ => rfl
  | committed => exact db.extends_commit q
  | persisted => exact Db.extends_updateCredentialJson db q _ _
  | loggedIn => exact .of_tables rfl rfl fun _ _ => rfl
  | cleared => exact .of_tables rfl rfl fun _ _ => rfl
  | finished => exact .of_tables rfl rfl fun _ _ => rfl

/-- The user of a session changes in `set_user_id` alone. -/
theorem Wrote.userOf (h : Wrote q fresh db phase db' es) (sid : Uuid) :
    db'.userOf sid = db.userOf sid ∨
      ∃ read u, phase = .settingUser sid read u ∧ es = [.loggedIn q sid u] ∧
        db'.userOf sid = some u := by
  cases h with
  | nothing _ => exact .inl rfl
  | created hnone _ => exact .inl (Db.userOf_createSession db hnone sid)
  | stored =>
      left
      apply Db.userOf_updateSession
      intro row
      rfl
  | began => exact .inl rfl
  | insertedUser _ => exact .inl rfl
  | insertedCredential _ => exact .inl rfl
  | committed => exact .inl (by rw [Db.userOf, Db.sessions_commit]; rfl)
  | persisted => exact .inl rfl
  | @loggedIn other read userId =>
      obtain hsame | ⟨rfl, hset⟩ := Db.userOf_setUserId db other userId sid
      · exact .inl hsame
      · exact .inr ⟨_, _, rfl, rfl, hset⟩
  | cleared =>
      left
      apply Db.userOf_updateSession
      intro row
      rfl
  | finished =>
      left
      apply Db.userOf_updateSession
      intro row
      rfl

/-- Challenges change where a start stores its own and where a finish clears the
column. -/
theorem Wrote.challenges (h : Wrote q fresh db phase db' es) :
    (∀ sid, db'.challengeOf sid = db.challengeOf sid) ∨
      (∃ sid c v reply, phase = .storing sid c v reply ∧ es = [.stored q sid c] ∧
        db' = db.setChallengeState sid ⟨v, q⟩) ∨
      ∃ sid read, phase = .clearing sid read ∧ db' = db.clearChallengeState sid := by
  cases h with
  | nothing _ => exact .inl fun _ => rfl
  | created hnone _ => exact .inl (Db.challengeOf_createSession db hnone)
  | stored => exact .inr (.inl ⟨_, _, _, _, rfl, rfl, rfl⟩)
  | began => exact .inl fun _ => rfl
  | insertedUser _ => exact .inl fun _ => rfl
  | insertedCredential _ => exact .inl fun _ => rfl
  | committed => exact .inl fun _ => by rw [Db.challengeOf, Db.sessions_commit]; rfl
  | persisted => exact .inl fun _ => rfl
  | loggedIn =>
      left
      apply Db.challengeOf_updateSession
      intro row
      rfl
  | cleared => exact .inr (.inr ⟨_, _, rfl, rfl⟩)
  | finished => exact .inr (.inr ⟨_, _, rfl, rfl⟩)

end Cja.Passkeys
