import Cja.Passkeys.AllOrNothing

/-!
# The signature counter of a credential

A login reads the credential, raises the counter of the copy and writes the copy
back by its primary key, whatever the row holds by then. A username login was
verified against the passkeys its challenge was made for, not against the row.
`InOrder` is the condition on those statements under which the stored counter
never goes back.
-/
namespace Cja.Passkeys
open Jobs (Uuid)

variable {W : Webauthn}

/-! ## Counters -/

/-- The signature counters of the library, and what an assertion says of itself. -/
structure Webauthn.Counters (W : Webauthn) where
  passkeyCounter : W.Passkey → ℕ
  resultCounter : W.AuthenticationResult → ℕ
  assertionId : W.PublicKeyCredential → CredentialId
  assertionCounter : W.PublicKeyCredential → ℕ
  /-- The passkeys that the challenge of a username login is verified against. -/
  allowed : W.PasskeyAuthentication → List W.Passkey

/-- The counter of an assertion is greater than the known one, or both are zero. -/
def Fresh (known new : ℕ) : Prop := known < new ∨ known = 0 ∧ new = 0

/-- The library accepts fresh assertions only, and `update_credential` raises the
counter to a greater one or reports no change. -/
structure Webauthn.Counters.Lawful (C : W.Counters) : Prop where
  started : ∀ seed keys challenge st, W.startPasskeyAuthentication seed keys = some (challenge, st) →
    C.allowed st = keys
  authentication : ∀ credential st result,
    W.finishPasskeyAuthentication credential st = some result →
    W.resultCredId result = C.assertionId credential ∧
      C.resultCounter result = C.assertionCounter credential ∧
      ∃ p ∈ C.allowed st, W.credId p = W.resultCredId result ∧
        Fresh (C.passkeyCounter p) (C.resultCounter result)
  discoverable : ∀ credential st keys result,
    W.finishDiscoverableAuthentication credential st keys = some result →
    W.resultCredId result = C.assertionId credential ∧
      C.resultCounter result = C.assertionCounter credential ∧
      ∃ p ∈ keys, W.credId p = W.resultCredId result ∧
        Fresh (C.passkeyCounter p) (C.resultCounter result)
  updated : ∀ p result p' changed, W.updateCredential p result = some (p', changed) →
    (changed = true ↔ C.passkeyCounter p < C.resultCounter result) ∧
      (changed = true → C.passkeyCounter p' = C.resultCounter result)

/-- The counter in the stored JSON of a credential. -/
def Webauthn.Counters.counterOf (C : W.Counters) (db : Db W) (cid : CredentialId) : Option ℕ :=
  (db.findByCredentialId cid).bind fun row =>
    (W.passkeyFromValue row.credentialJson).map C.passkeyCounter

/-- The assertion that a login is posted. -/
def Route.assertion : Route W → Option W.PublicKeyCredential
  | .authFinish credential | .discoverableFinish credential => some credential
  | _ => none

/-- A login by the credential `cid`, whose assertion carries the counter `n`. -/
def Request.Carries (r : Request W) (C : W.Counters) (cid : CredentialId) (n : ℕ) : Prop :=
  ∃ credential, r.route.assertion = some credential ∧ C.assertionId credential = cid ∧
    C.assertionCounter credential = n

/-- The login `q` has answered 200. -/
def State.Answered (s : State W) (C : W.Counters) (q : ℕ) (cid : CredentialId) (n : ℕ) : Prop :=
  ∃ r reply, s.requests q = some r ∧ r.Carries C cid n ∧ r.phase = .returned (.ok reply)

/-- The phases behind `persist_authenticated_credential`. -/
def Phase.isPersisted : Phase W → Bool
  | .settingUser .. | .clearing .. | .returned (.ok _) => true
  | _ => false

def State.Persisted (s : State W) (C : W.Counters) (q : ℕ) (cid : CredentialId) (n : ℕ) : Prop :=
  ∃ r, s.requests q = some r ∧ r.Carries C cid n ∧ r.phase.isPersisted = true

/-- A login whose assertion carries a nonzero counter `n` either raises the stored
counter to `n`, or writes nothing while no other login with `n` has got this far;
and the statements behind its write do not fail. -/
structure InOrder (C : W.Counters) (s : State W) (a : Action W) : Prop where
  write : ∀ q seed fresh o r cid n sid read u pk json, a = .exec q seed fresh o →
    s.requests q = some r → r.Carries C cid n → n ≠ 0 →
    r.phase = .persisting sid read u pk (some json) → o ≠ .rejected →
    o = .done ∧ ∀ m, C.counterOf s.db cid = some m → m < n
  keep : ∀ q seed fresh o r cid n sid read u pk, a = .exec q seed fresh o →
    s.requests q = some r → r.Carries C cid n → n ≠ 0 →
    r.phase = .persisting sid read u pk none → o = .done → ∀ q', ¬ s.Persisted C q' cid n
  close : ∀ q seed fresh o r cid n, a = .exec q seed fresh o →
    s.requests q = some r → r.Carries C cid n → n ≠ 0 → r.phase.isClosing = true → o = .done

/-- All logins have returned. -/
def State.Settled (s : State W) : Prop :=
  ∀ q r, s.requests q = some r → r.route.assertion.isSome → ∃ response, r.phase = .returned response

/-- The row that `find_by_credential_id` finds, with its key and its counter. -/
def Db.Holds (db : Db W) (C : W.Counters) (cid : CredentialId) (pk : Uuid) (n : ℕ) : Prop :=
  ∃ row p, db.findByCredentialId cid = some row ∧ row.credentialIdPk = pk ∧
    W.passkeyFromValue row.credentialJson = some p ∧ C.passkeyCounter p = n

section Rows

variable {C : W.Counters} {q n : ℕ} {fresh pk : Uuid} {db db' : Db W} {phase : Phase W}
variable {es : List (Event W)} {cid : CredentialId} {row : CredentialRow W}

theorem Db.Holds.counterOf (h : db.Holds C cid pk n) : C.counterOf db cid = some n := by
  obtain ⟨row, p, hfind, _, hp, hn⟩ := h
  simp [Webauthn.Counters.counterOf, hfind, hp, hn]

theorem exists_holds (h : C.counterOf db cid = some n) : ∃ pk, db.Holds C cid pk n := by
  simp only [Webauthn.Counters.counterOf, Option.bind_eq_some_iff, Option.map_eq_some_iff] at h
  obtain ⟨row, hfind, p, hp, hn⟩ := h
  exact ⟨row.credentialIdPk, row, p, hfind, rfl, hp, hn⟩

theorem findByCredentialId_mem (h : db.findByCredentialId cid = some row) :
    row ∈ db.credentials ∧ row.credentialId = cid :=
  ⟨List.mem_of_find?_eq_some h, by simpa using List.find?_some h⟩

theorem findByCredentialId_updateCredentialJson (db : Db W) (pk : Uuid) (v : W.Value)
    (cid : CredentialId) : (db.updateCredentialJson pk v).findByCredentialId cid =
      (db.findByCredentialId cid).map fun row =>
        if row.credentialIdPk = pk then { row with credentialJson := v } else row := by
  unfold Db.findByCredentialId Db.updateCredentialJson
  rw [List.find?_map]
  congr 2
  funext row
  rw [Function.comp_apply]
  split <;> rfl

theorem findByCredentialId_commit (h : db.findByCredentialId cid = some row) (q : ℕ) :
    (db.commit q).findByCredentialId cid = some row := by
  unfold Db.commit
  split
  · rename_i tx _
    have happend : (db.credentials ++ tx.credentials).find? (fun row => row.credentialId == cid) =
        some row := by
      rw [List.find?_append, show db.credentials.find? _ = some row from h]
      rfl
    exact happend
  · exact h

/-- Only the update of a credential changes a stored row. -/
theorem Wrote.found (h : Wrote q fresh db phase db' es)
    (hfind : db.findByCredentialId cid = some row) :
    db'.findByCredentialId cid = some row ∨ ∃ sid read u pk v,
      phase = .persisting sid read u pk (some v) ∧ db' = db.updateCredentialJson pk v := by
  cases h with
  | nothing _ => exact .inl hfind
  | created _ _ => exact .inl hfind
  | stored => exact .inl hfind
  | began => exact .inl hfind
  | insertedUser _ => exact .inl hfind
  | insertedCredential _ => exact .inl hfind
  | committed => exact .inl (findByCredentialId_commit hfind q)
  | persisted => exact .inr ⟨_, _, _, _, _, rfl, rfl⟩
  | loggedIn => exact .inl hfind
  | cleared => exact .inl hfind
  | finished => exact .inl hfind

/-- Rows with one primary key are found under one credential id. -/
theorem Db.Consistent.found_unique (h : db.Consistent) {cid' : CredentialId}
    {row' : CredentialRow W} (hfind : db.findByCredentialId cid = some row)
    (hfind' : db.findByCredentialId cid' = some row')
    (hpk : row.credentialIdPk = row'.credentialIdPk) : cid = cid' := by
  obtain ⟨hmem, hcid⟩ := findByCredentialId_mem hfind
  obtain ⟨hmem', hcid'⟩ := findByCredentialId_mem hfind'
  rw [← hcid, ← hcid']
  exact h.agree row row' (.inl hmem) (.inl hmem') hpk

end Rows

/-! ## Users of credentials -/

/-- Every credential has its user, in the tables and in every transaction. -/
structure Referential (db : Db W) : Prop where
  rows : ∀ row ∈ db.credentials, ∃ user ∈ db.users, user.userId = row.userId
  pending : ∀ q tx, db.txOf q = some tx → ∀ row ∈ tx.credentials,
    ∃ user ∈ tx.users, user.userId = row.userId

section Users

variable {q : ℕ} {fresh : Uuid} {db db' : Db W} {phase : Phase W} {es : List (Event W)}

theorem txOf_rollback_self (db : Db W) (q : ℕ) : (db.rollback q).txOf q = none := by
  unfold Db.txOf Db.rollback
  rw [List.find?_filter, List.find?_eq_none]
  simp

theorem txOf_updateTx (db : Db W) (q q' : ℕ) {f : Tx W → Tx W}
    (hf : ∀ tx, (f tx).owner = tx.owner) : (db.updateTx q f).txOf q' =
      (db.txOf q').map fun tx => if tx.owner = q then f tx else tx :=
  Db.find?_map_owner q q' hf db.txs

theorem Referential.begin (h : Referential db) (q : ℕ) : Referential (db.begin q) := by
  refine ⟨h.rows, fun q' tx htx => ?_⟩
  by_cases heq : q' = q
  · subst heq
    rw [Db.txOf_begin] at htx
    cases htx
    intro row hrow
    cases hrow
  · rw [Db.txOf_begin_other db heq] at htx
    exact h.pending q' tx htx

theorem Referential.rollback (h : Referential db) (q : ℕ) : Referential (db.rollback q) := by
  refine ⟨h.rows, fun q' tx htx => ?_⟩
  by_cases heq : q' = q
  · subst heq
    rw [txOf_rollback_self] at htx
    cases htx
  · rw [Db.txOf_rollback_other db heq] at htx
    exact h.pending q' tx htx

theorem Referential.commit (h : Referential db) (q : ℕ) : Referential (db.commit q) := by
  cases htx : db.txOf q with
  | none =>
      unfold Db.commit
      rw [htx]
      exact h
  | some tx =>
      obtain ⟨husers, hcreds⟩ := Db.commit_of_tx htx
      constructor
      · intro row hrow
        rw [hcreds] at hrow
        rw [husers]
        obtain hold | hnew := List.mem_append.1 hrow
        · obtain ⟨user, huser, heq⟩ := h.rows row hold
          exact ⟨user, List.mem_append_left _ huser, heq⟩
        · obtain ⟨user, huser, heq⟩ := h.pending q tx htx row hnew
          exact ⟨user, List.mem_append_right _ huser, heq⟩
      · intro q' tx' htx'
        refine (h.rollback q).pending q' tx' ?_
        unfold Db.commit at htx'
        rw [htx] at htx'
        exact htx'

theorem Referential.updateTx (h : Referential db) {f : Tx W → Tx W}
    (hf : ∀ tx, (f tx).owner = tx.owner)
    (hrows : ∀ tx, db.txOf q = some tx →
      (∀ row ∈ tx.credentials, ∃ user ∈ tx.users, user.userId = row.userId) →
      ∀ row ∈ (f tx).credentials, ∃ user ∈ (f tx).users, user.userId = row.userId) :
    Referential (db.updateTx q f) := by
  refine ⟨h.rows, fun q' tx htx => ?_⟩
  rw [txOf_updateTx db q q' hf, Option.map_eq_some_iff] at htx
  obtain ⟨tx₀, htx₀, rfl⟩ := htx
  have howner : tx₀.owner = q' := by simpa using List.find?_some htx₀
  split
  · rename_i heq
    rw [← howner, heq] at htx₀
    exact hrows tx₀ htx₀ (h.pending q tx₀ htx₀)
  · exact h.pending q' tx₀ htx₀

theorem Referential.wrote (h : Referential db) (hwrote : Wrote q fresh db phase db' es)
    (hpending : ∀ sid read user k v, phase = .insertingCredential sid read user k v →
      ∃ tx, db.txOf q = some tx ∧ user ∈ tx.users) : Referential db' := by
  cases hwrote with
  | nothing _ => exact h
  | created _ _ => exact ⟨h.rows, h.pending⟩
  | stored => exact ⟨h.rows, h.pending⟩
  | began => exact h.begin q
  | insertedUser _ =>
      refine h.updateTx (fun _ => rfl) fun tx _ hold row hrow => ?_
      obtain ⟨user, huser, heq⟩ := hold row hrow
      exact ⟨user, List.mem_append_left _ huser, heq⟩
  | insertedCredential _ =>
      obtain ⟨tx₀, htx₀, huser₀⟩ := hpending _ _ _ _ _ rfl
      refine h.updateTx (fun _ => rfl) fun tx htx hold row hrow => ?_
      rw [htx₀] at htx
      cases htx
      obtain hmem | hnew := List.mem_append.1 hrow
      · exact hold row hmem
      · rw [List.mem_singleton.1 hnew]
        exact ⟨_, huser₀, rfl⟩
  | committed => exact h.commit q
  | persisted =>
      refine ⟨fun row hrow => ?_, h.pending⟩
      obtain ⟨row₀, hrow₀, rfl⟩ := List.mem_map.1 hrow
      obtain ⟨user, huser, heq⟩ := h.rows row₀ hrow₀
      refine ⟨user, huser, heq.trans ?_⟩
      split <;> rfl
  | loggedIn => exact ⟨h.rows, h.pending⟩
  | cleared => exact ⟨h.rows, h.pending⟩
  | finished => exact ⟨h.rows, h.pending⟩

end Users

/-! ## The end of a login -/

/-- The phases from `persist_authenticated_credential` on. -/
def Phase.isTail : Phase W → Bool
  | .persisting .. => true
  | phase => phase.isPersisted

/-- How a statement can lead to one of those phases. -/
inductive Follows (q : ℕ) (route : Route W) (o : Outcome) (db : Db W) (p : Progress W) :
    Phase W → Prop
  | other {phase : Phase W} : p.2.1.isTail = false → Follows q route o db p phase
  | verified {sid u : Uuid} {read : ℕ} {result : W.AuthenticationResult} :
      p = (db, verifiedRow sid read u result (db.findByCredentialId (W.resultCredId result))) →
      p.2.1.isPersisted = false → Follows q route o db p (.findingVerified sid read u result)
  | identified {sid u : Uuid} {read : ℕ} {credential : W.PublicKeyCredential}
      {st : W.DiscoverableAuthentication} {cid : CredentialId} :
      route = .discoverableFinish credential →
      p = (db, identifiedRow q sid credential read st u (db.findByCredentialId cid)) →
      p.2.1.isPersisted = false → Follows q route o db p (.findingIdentified sid read st u cid)
  | persisted {sid u pk : Uuid} {read : ℕ} {json : Option W.Value} : o = .done →
      p.1 = json.elim db (fun json => db.updateCredentialJson pk json) →
      p.2.1 = .settingUser sid read u → Follows q route o db p (.persisting sid read u pk json)
  | closing {phase : Phase W} : phase.isClosing = true → p.2.1.isTail = true →
      (∀ sid read u pk json, p.2.1 ≠ .persisting sid read u pk json) →
      Follows q route o db p phase
  | committed {sid : Uuid} {read : ℕ} {user : UserRow} {k : W.Passkey} :
      p.2.1 = .settingUser sid read user.userId →
      Follows q route o db p (.committing sid read user k)
  | stored {sid : Uuid} {c : W.Challenge} {v : W.Value} {reply : Reply W} :
      p.2.1 = .returned (.ok reply) → Follows q route o db p (.storing sid c v reply)

section Phases

variable {q : ℕ} {fresh sid u : Uuid} {read : ℕ} {seed : W.Seed} {route : Route W} {o : Outcome}
variable {db db' : Db W} {phase : Phase W} {es : List (Event W)} {p : Progress W}

theorem store_open (sid : Uuid) (c : W.Challenge) (reply : Reply W) :
    (store sid c reply).1.isTail = false := by
  unfold store
  split <;> rfl

theorem startRegistration_open (seed : W.Seed) (tempUuid sid : Uuid) (body : RegisterStartRequest) :
    (startRegistration seed tempUuid sid body).1.isTail = false := by
  unfold startRegistration
  split
  · rfl
  · split
    · rfl
    · exact store_open ..

theorem startAuthentication_open (seed : W.Seed) (sid : Uuid) (user : UserRow)
    (creds : List (CredentialRow W)) :
    (startAuthentication seed sid user creds).1.isTail = false := by
  unfold startAuthentication
  split
  · rfl
  · split
    · rfl
    · split
      · rfl
      · exact store_open ..

theorem enter_open (q : ℕ) (route : Route W) (seed : W.Seed) (sid : Uuid)
    (challengeState : Option (Stored W)) :
    (enter q route seed sid challengeState).1.isTail = false := by
  unfold enter
  split
  · split <;> rfl
  · rfl
  · unfold startDiscoverable
    split
    · rfl
    · exact store_open ..
  · rfl
  · unfold finishRegistration
    split
    · split
      · rfl
      · dsimp only
        split <;> rfl
    · rfl
  · unfold finishAuthentication
    split
    · split <;> rfl
    · rfl
  · unfold identifyDiscoverable
    split
    · split <;> rfl
    · rfl

theorem persist_not_persisted (sid : Uuid) (read : ℕ) (u : Uuid) (row : CredentialRow W)
    (k : W.Passkey) (result : W.AuthenticationResult) :
    (persistAuthenticatedCredential sid read u row k result).isPersisted = false := by
  unfold persistAuthenticatedCredential
  split_ifs
  · rfl
  · split
    · split <;> rfl
    · rfl
    · rfl

theorem verifiedRow_not_persisted (sid : Uuid) (read : ℕ) (u : Uuid)
    (result : W.AuthenticationResult) (found : Option (CredentialRow W)) :
    (verifiedRow sid read u result found).1.isPersisted = false := by
  unfold verifiedRow
  split
  · rfl
  · split
    · rfl
    · exact persist_not_persisted ..

theorem identifiedRow_not_persisted (q : ℕ) (sid : Uuid) (credential : W.PublicKeyCredential)
    (read : ℕ) (st : W.DiscoverableAuthentication) (u : Uuid) (found : Option (CredentialRow W)) :
    (identifiedRow q sid credential read st u found).1.isPersisted = false := by
  unfold identifiedRow
  split
  · rfl
  · split
    · rfl
    · split
      · rfl
      · exact persist_not_persisted ..

theorem writes_open {status : StatusCode} {next : Phase W} (h : next.isTail = false) :
    (writes o db db' status next es).2.1.isTail = false := by
  cases o with
  | done => exact h
  | rejected => rfl
  | lost => rfl

theorem reads_open {next : Phase W × List (Event W)} (h : next.1.isTail = false) :
    (reads o db next).2.1.isTail = false := by
  cases o with
  | done => exact h
  | rejected => rfl
  | lost => rfl

theorem createUser_open {user : UserRow} {k : W.Passkey} {v : W.Value}
    (h : createUser q o db sid read user k v = some p) : p.2.1.isTail = false := by
  unfold createUser at h
  cases hins : db.insertUser user with
  | inserted => rw [hins] at h; cases h; exact writes_open rfl
  | conflict => rw [hins] at h; cases h; rfl
  | waits =>
      rw [hins] at h
      cases o with
      | rejected => cases h; rfl
      | done => cases h
      | lost => cases h

theorem createCredential_open {user : UserRow} {k : W.Passkey} {v : W.Value}
    (h : createCredential q o fresh db sid read user k v = some p) : p.2.1.isTail = false := by
  unfold createCredential at h
  dsimp only at h
  cases hins : db.insertCredential ⟨fresh, user.userId, v, W.credId k⟩ with
  | inserted => rw [hins] at h; cases h; exact writes_open rfl
  | conflict => rw [hins] at h; cases h; rfl
  | waits =>
      rw [hins] at h
      cases o with
      | rejected => cases h; rfl
      | done => cases h
      | lost => cases h

theorem loadSession_open (q : ℕ) (route : Route W) (seed : W.Seed) (o : Outcome) (db : Db W)
    (cookie : Option Uuid) : (loadSession q route seed o db cookie).1.isTail = false := by
  unfold loadSession
  split
  · split
    · exact enter_open ..
    · rfl
  · rfl

theorem createSession_open (h : createSession q route seed fresh o db = some p) :
    p.2.1.isTail = false := by
  unfold createSession at h
  split at h
  · cases h; exact enter_open ..
  · cases h; rfl
  · cases h; rfl
  · cases h

/-- Each statement either stays before the end of a login or follows one of its
statements. -/
theorem advance_follows (h : advance q route seed fresh o db phase = some p) :
    Follows q route o db p phase := by
  cases phase with
  | loading cookie => cases h; exact .other (loadSession_open ..)
  | creating => exact .other (createSession_open h)
  | checkingUsername sid =>
      cases route with
      | registerStart body =>
          cases h
          refine .other (reads_open ?_)
          split
          · rfl
          · exact startRegistration_open ..
      | _ => cases h
  | findingUser sid =>
      cases route with
      | authStart body =>
          cases h
          refine .other (reads_open ?_)
          split <;> rfl
      | _ => cases h
  | listing sid user => cases h; exact .other (reads_open (startAuthentication_open ..))
  | storing sid c v reply =>
      cases h
      cases o with
      | done => exact .stored rfl
      | rejected => exact .other rfl
      | lost => exact .other rfl
  | beginning sid read user k v => cases h; exact .other (writes_open rfl)
  | insertingUser sid read user k v => exact .other (createUser_open h)
  | insertingCredential sid read user k v => exact .other (createCredential_open h)
  | committing sid read user k =>
      cases h
      cases o with
      | done => exact .committed rfl
      | rejected => exact .other rfl
      | lost => exact .other rfl
  | findingVerified sid read u result =>
      cases h
      cases o with
      | done => exact .verified rfl (verifiedRow_not_persisted ..)
      | rejected => exact .other rfl
      | lost => exact .other rfl
  | findingIdentified sid read st u cid =>
      cases route with
      | discoverableFinish credential =>
          cases h
          cases o with
          | done => exact .identified rfl rfl (identifiedRow_not_persisted ..)
          | rejected => exact .other rfl
          | lost => exact .other rfl
      | _ => cases h
  | persisting sid read u pk json =>
      cases h
      cases o with
      | done => exact .persisted rfl rfl rfl
      | rejected => exact .other rfl
      | lost => exact .other rfl
  | settingUser sid read u =>
      cases h
      unfold setUser
      split
      · cases o with
        | done => exact .closing rfl rfl (by simp [writes])
        | rejected => exact .other rfl
        | lost => exact .other rfl
      · exact .other rfl
  | clearing sid read =>
      cases h
      cases o with
      | done => exact .closing rfl rfl (by simp [clearChallenge])
      | rejected => exact .other rfl
      | lost => exact .other rfl
  | returned response => cases h

end Phases

/-! ## The stored counter over a run -/

/-- What a login has prepared to write, with the row it read. -/
def Prepared (C : W.Counters) (db : Db W) (cid : CredentialId) (n : ℕ) (pk : Uuid) :
    Option W.Value → Prop
  | none => ∃ m, db.Holds C cid pk m ∧ n ≤ m
  | some v => (∃ m, db.Holds C cid pk m) ∧ 0 < n ∧
      ∃ p, W.passkeyFromValue v = some p ∧ C.passkeyCounter p = n

structure Tallied (C : W.Counters) (s : State W) : Prop where
  referential : Referential s.db
  prepared : ∀ q r sid read u pk json, s.requests q = some r →
    r.phase = .persisting sid read u pk json →
    ∃ cid n, r.Carries C cid n ∧ Prepared C s.db cid n pk json
  covered : ∀ q cid n, s.Persisted C q cid n → ∃ pk m, s.db.Holds C cid pk m ∧ n ≤ m
  distinct : ∀ q q' cid n, s.Persisted C q cid n → s.Persisted C q' cid n → n ≠ 0 → q = q'

/-- Any response is made by anyone: what the invariant of logins says of the
database needs no soundness of the library. -/
def Anyone (_ : Response W) (_ : W.Challenge) (_ : CredentialId) : Prop := True

theorem sound_anyone (W : Webauthn) : W.Sound Anyone :=
  ⟨fun _ _ _ _ _ _ _ => trivial, fun _ _ _ _ _ => trivial, fun _ _ _ _ _ => trivial⟩

section Run

variable {C : W.Counters} {log es : List (Event W)} {s s' : State W} {q n : ℕ}
variable {fresh sid u pk : Uuid} {read : ℕ} {seed : W.Seed} {o : Outcome} {r : Request W}
variable {cid : CredentialId} {db db' : Db W} {p : Progress W} {json : Option W.Value}

theorem Request.Carries.unique {route : Route W} {phase phase' : Phase W} {cid' : CredentialId}
    {n' : ℕ} (h : Request.Carries ⟨route, phase⟩ C cid n)
    (h' : Request.Carries ⟨route, phase'⟩ C cid' n') : cid = cid' ∧ n = n' := by
  obtain ⟨credential, hroute, hcid, hn⟩ := h
  obtain ⟨credential', hroute', hcid', hn'⟩ := h'
  have heq : credential = credential' := Option.some.inj (hroute.symm.trans hroute')
  subst heq
  exact ⟨hcid.symm.trans hcid', hn.symm.trans hn'⟩

/-- The row a login has read is prepared as `update_credential` says. -/
theorem persist_prepared (hC : C.Lawful) (hcons : db.Consistent) {cid₀ : CredentialId}
    {row : CredentialRow W} {k : W.Passkey} {result : W.AuthenticationResult}
    (hfind : db.findByCredentialId cid₀ = some row)
    (hk : W.passkeyFromValue row.credentialJson = some k) {sid' u' : Uuid} {read' : ℕ}
    (hW : W.Codec)
    (h : persistAuthenticatedCredential sid read u row k result =
      .persisting sid' read' u' pk json) :
    Prepared C db (W.resultCredId result) (C.resultCounter result) pk json := by
  obtain ⟨hmem, hcid₀⟩ := findByCredentialId_mem hfind
  have hnamed : W.credId k = cid₀ := (hcons.named row k (.inl hmem) hk).trans hcid₀
  unfold persistAuthenticatedCredential at h
  split_ifs at h with hcid
  have hfound : db.findByCredentialId (W.resultCredId result) = some row := by
    rw [← not_not.1 hcid, hnamed, hfind]
  have hholds : db.Holds C (W.resultCredId result) row.credentialIdPk (C.passkeyCounter k) :=
    ⟨row, k, hfound, rfl, hk, rfl⟩
  split at h
  · rename_i k' hupdate
    obtain ⟨hiff, hraised⟩ := hC.updated _ _ _ _ hupdate
    split at h
    · rename_i v hv
      cases h
      exact ⟨⟨_, hholds⟩, Nat.zero_lt_of_lt (hiff.1 rfl), k', hW.passkey k' v hv, hraised rfl⟩
    · cases h
  · rename_i k' hupdate
    obtain ⟨hiff, _⟩ := hC.updated _ _ _ _ hupdate
    cases h
    refine ⟨_, hholds, ?_⟩
    by_contra hlt
    cases hiff.2 (not_le.1 hlt)
  · cases h

theorem verifiedRow_prepared (hC : C.Lawful) (hW : W.Codec) (hcons : db.Consistent)
    {credential : W.PublicKeyCredential} {st : W.PasskeyAuthentication}
    {result : W.AuthenticationResult}
    (hfinish : W.finishPasskeyAuthentication credential st = some result)
    {sid' u' : Uuid} {read' : ℕ}
    (h : (verifiedRow sid read u result (db.findByCredentialId (W.resultCredId result))).1 =
      .persisting sid' read' u' pk json) :
    Prepared C db (C.assertionId credential) (C.assertionCounter credential) pk json := by
  obtain ⟨hid, hcounter, _⟩ := hC.authentication credential st result hfinish
  unfold verifiedRow at h
  split at h
  · cases h
  · rename_i row hfound
    obtain ⟨hfind, _⟩ := Option.filter_eq_some_iff.1 hfound
    split at h
    · cases h
    · rename_i k hk
      rw [← hid, ← hcounter]
      exact persist_prepared hC hcons hfind hk hW h

theorem identifiedRow_prepared (hC : C.Lawful) (hW : W.Codec) (hcons : db.Consistent)
    {credential : W.PublicKeyCredential} {st : W.DiscoverableAuthentication} {cid₀ : CredentialId}
    {sid' u' : Uuid} {read' : ℕ}
    (h : (identifiedRow q sid credential read st u (db.findByCredentialId cid₀)).1 =
      .persisting sid' read' u' pk json) :
    Prepared C db (C.assertionId credential) (C.assertionCounter credential) pk json := by
  unfold identifiedRow at h
  split at h
  · cases h
  · rename_i row hfound
    obtain ⟨hfind, _⟩ := Option.filter_eq_some_iff.1 hfound
    split at h
    · cases h
    · rename_i k hk
      split at h
      · cases h
      · rename_i result hresult
        obtain ⟨hid, hcounter, _⟩ := hC.discoverable credential st [k] result hresult
        rw [← hid, ← hcounter]
        exact persist_prepared hC hcons hfind hk hW h

/-- A login comes to its update with a row it has read. -/
theorem exec_prepared (hC : C.Lawful) (hW : W.Codec) (hcons : s.db.Consistent)
    (hok : r.phase.Ok Anyone log s q r.route)
    (hp : advance q r.route seed fresh o s.db r.phase = some p)
    (hphase : p.2.1 = .persisting sid read u pk json) :
    ∃ cid n, (⟨r.route, p.2.1⟩ : Request W).Carries C cid n ∧ Prepared C p.1 cid n pk json := by
  obtain ⟨route, phase⟩ := r
  cases advance_follows hp with
  | other hopen => rw [hphase] at hopen; cases hopen
  | verified hp' _ =>
      obtain ⟨credential, st, hroute, hfinish, _⟩ := hok
      dsimp only at hroute
      subst hroute hp'
      exact ⟨_, _, ⟨credential, rfl, rfl, rfl⟩, verifiedRow_prepared hC hW hcons hfinish hphase⟩
  | identified hroute hp' _ =>
      dsimp only at hroute
      subst hroute hp'
      exact ⟨_, _, ⟨_, rfl, rfl, rfl⟩, identifiedRow_prepared hC hW hcons hphase⟩
  | persisted _ _ hnext => rw [hphase] at hnext; cases hnext
  | closing _ _ hnext => exact absurd hphase (hnext _ _ _ _ _)
  | committed hnext => rw [hphase] at hnext; cases hnext
  | stored hnext => rw [hphase] at hnext; cases hnext

/-- A login is behind its update because it was, or by executing it. -/
theorem exec_persisted (hok : r.phase.Ok Anyone log s q r.route)
    (hp : advance q r.route seed fresh o s.db r.phase = some p)
    (hlogin : r.route.assertion.isSome) (hphase : p.2.1.isPersisted = true) :
    r.phase.isPersisted = true ∨
      ∃ sid read u pk json, r.phase = .persisting sid read u pk json ∧ o = .done ∧
        p.1 = json.elim s.db fun json => s.db.updateCredentialJson pk json := by
  obtain ⟨route, phase⟩ := r
  cases advance_follows hp with
  | other hopen =>
      unfold Phase.isTail at hopen
      split at hopen
      · cases hopen
      · rw [hphase] at hopen
        cases hopen
  | verified _ hnot => rw [hphase] at hnot; cases hnot
  | identified _ _ hnot => rw [hphase] at hnot; cases hnot
  | persisted ho hdb _ => exact .inr ⟨_, _, _, _, _, rfl, ho, hdb⟩
  | closing hclosing _ _ =>
      left
      cases phase with
      | settingUser sid read u => rfl
      | clearing sid read => rfl
      | _ => cases hclosing
  | committed _ =>
      obtain ⟨hreg, _⟩ := hok
      obtain ⟨credential, st, hroute, _⟩ := hreg.finish
      dsimp only at hroute
      subst hroute
      cases hlogin
  | stored _ =>
      have hstart := hok.1
      cases route with
      | authFinish credential => cases hstart
      | discoverableFinish credential => cases hstart
      | registerStart body => cases hlogin
      | registerFinish credential => cases hlogin
      | authStart body => cases hlogin
      | discoverableStart => cases hlogin

/-- The update writes the counter it was prepared with. -/
theorem Db.Holds.update {m : ℕ} {v : W.Value} {k : W.Passkey} (h : db.Holds C cid pk m)
    (hk : W.passkeyFromValue v = some k) :
    (db.updateCredentialJson pk v).Holds C cid pk (C.passkeyCounter k) := by
  obtain ⟨row, _, hfind, hpk, _, _⟩ := h
  refine ⟨{ row with credentialJson := v }, k, ?_, hpk, hk, rfl⟩
  rw [findByCredentialId_updateCredentialJson, hfind, Option.map_some, if_pos hpk]

theorem Db.Holds.update_other (hcons : db.Consistent) {m : ℕ} {v : W.Value} {cid' : CredentialId}
    {pk' : Uuid} (h : db.Holds C cid pk m) (h' : db.Holds C cid' pk' n) (hne : cid ≠ cid') :
    (db.updateCredentialJson pk v).Holds C cid' pk' n := by
  obtain ⟨row, _, hfind, hpk, _, _⟩ := h
  obtain ⟨row', k', hfind', hpk', hk', hn⟩ := h'
  refine ⟨row', k', ?_, hpk', hk', hn⟩
  rw [findByCredentialId_updateCredentialJson, hfind', Option.map_some, if_neg]
  intro heq
  exact hne (hcons.found_unique hfind hfind' (hpk.trans heq.symm))

theorem Db.Holds.pk_unique {m : ℕ} {pk' : Uuid} (h : db.Holds C cid pk m)
    (h' : db.Holds C cid pk' n) : pk = pk' ∧ m = n := by
  obtain ⟨row, k, hfind, hpk, hk, hm⟩ := h
  obtain ⟨row', k', hfind', hpk', hk', hn⟩ := h'
  rw [hfind] at hfind'
  cases hfind'
  rw [hk] at hk'
  cases hk'
  exact ⟨hpk.symm.trans hpk', hm.symm.trans hn⟩

/-- A statement keeps the counter of a credential, or a login raises it to the
counter of its assertion and gets behind its update. -/
theorem Db.Holds.exec (ht : Tallied C s) (hcons : s.db.Consistent)
    (hin : InOrder C s (.exec q seed fresh o)) (hr : s.requests q = some r)
    (hp : advance q r.route seed fresh o s.db r.phase = some p) (h : s.db.Holds C cid pk n) :
    ∃ n', p.1.Holds C cid pk n' ∧ n ≤ n' ∧ (n' = n ∨ (s.after q r.route p).Persisted C q cid n') := by
  obtain ⟨row, k, hfind, hpk, hk, hn⟩ := h
  obtain hsame | ⟨sid, read, u, pk', v, hphase, hdb⟩ := (advance_wrote hp).found hfind
  · exact ⟨n, ⟨row, k, hsame, hpk, hk, hn⟩, le_rfl, .inl rfl⟩
  · have hholds : s.db.Holds C cid pk n := ⟨row, k, hfind, hpk, hk, hn⟩
    obtain ⟨cid', m, hcarries, ⟨m', hholds'⟩, hpos, k', hk', hm⟩ :=
      ht.prepared q r sid read u pk' (some v) hr hphase
    by_cases hcid : cid' = cid
    · subst hcid
      obtain ⟨rfl, rfl⟩ := hholds'.pk_unique hholds
      by_cases ho : o = .rejected
      · rw [hphase, ho] at hp
        cases hp
        exact ⟨m', hholds, le_rfl, .inl rfl⟩
      · obtain ⟨hdone, hlt⟩ := hin.write q seed fresh o r cid' m sid read u pk' v rfl hr hcarries
          (by omega) hphase ho
        refine ⟨m, ?_, (hlt m' hholds.counterOf).le, .inr ?_⟩
        · rw [hdb, ← hm]
          exact hholds.update hk'
        · rw [hphase, hdone] at hp
          cases hp
          exact ⟨_, s.requests_after q r.route _, hcarries, rfl⟩
    · refine ⟨n, ?_, le_rfl, .inl rfl⟩
      rw [hdb]
      exact hholds'.update_other hcons hholds hcid

theorem Prepared.mono (h : Prepared C db cid n pk json)
    (hdb : ∀ m, db.Holds C cid pk m → ∃ m', db'.Holds C cid pk m' ∧ m ≤ m') :
    Prepared C db' cid n pk json := by
  cases json with
  | none =>
      obtain ⟨m, hm, hle⟩ := h
      obtain ⟨m', hm', hle'⟩ := hdb m hm
      exact ⟨m', hm', hle.trans hle'⟩
  | some v =>
      obtain ⟨⟨m, hm⟩, hrest⟩ := h
      obtain ⟨m', hm', _⟩ := hdb m hm
      exact ⟨⟨m', hm'⟩, hrest⟩

theorem State.requests_after_other {q' : ℕ} (hne : q' ≠ q) :
    (s.after q r.route p).requests q' = s.requests q' :=
  Function.update_of_ne hne ..

theorem State.persisted_after_other {q' : ℕ} (hne : q' ≠ q) :
    (s.after q r.route p).Persisted C q' cid n ↔ s.Persisted C q' cid n := by
  unfold State.Persisted
  rw [State.requests_after_other hne]

/-- The executing login is behind its update after the statement. -/
theorem exec_persisted_cases (hok : r.phase.Ok Anyone log s q r.route)
    (hr : s.requests q = some r) (hp : advance q r.route seed fresh o s.db r.phase = some p)
    (h : (s.after q r.route p).Persisted C q cid n) :
    s.Persisted C q cid n ∨ ∃ sid read u pk json, r.Carries C cid n ∧
      r.phase = .persisting sid read u pk json ∧ o = .done ∧
      p.1 = json.elim s.db fun json => s.db.updateCredentialJson pk json := by
  obtain ⟨r', hr', hcarries, hphase⟩ := h
  rw [State.requests_after] at hr'
  cases hr'
  have hlogin : r.route.assertion.isSome := by
    obtain ⟨credential, hroute, _⟩ := hcarries
    rw [hroute]
    rfl
  obtain hold | ⟨sid, read, u, pk, json, hpersisting, ho, hdb⟩ := exec_persisted hok hp hlogin hphase
  · exact .inl ⟨r, hr, hcarries, hold⟩
  · exact .inr ⟨sid, read, u, pk, json, hcarries, hpersisting, ho, hdb⟩

theorem Tallied.covered_exec (ht : Tallied C s) (hinv : Inv Anyone log s)
    (hin : InOrder C s (.exec q seed fresh o)) (hr : s.requests q = some r)
    (hp : advance q r.route seed fresh o s.db r.phase = some p) {q' : ℕ}
    (h : (s.after q r.route p).Persisted C q' cid n) :
    ∃ pk m, p.1.Holds C cid pk m ∧ n ≤ m := by
  have hold : s.Persisted C q' cid n → ∃ pk m, p.1.Holds C cid pk m ∧ n ≤ m := by
    intro hpersisted
    obtain ⟨pk, m, hholds, hle⟩ := ht.covered q' cid n hpersisted
    obtain ⟨m', hholds', hle', _⟩ := hholds.exec ht hinv.consistent hin hr hp
    exact ⟨pk, m', hholds', hle.trans hle'⟩
  by_cases heq : q' = q
  · subst heq
    obtain hpersisted | ⟨sid, read, u, pk, json, hcarries, hphase, _, hdb⟩ :=
      exec_persisted_cases (hinv.phases q' r hr) hr hp h
    · exact hold hpersisted
    · obtain ⟨cid', n', hcarries', hprepared⟩ := ht.prepared q' r sid read u pk json hr hphase
      obtain ⟨rfl, rfl⟩ := Request.Carries.unique hcarries hcarries'
      cases json with
      | none =>
          obtain ⟨m, hm, hle⟩ := hprepared
          exact ⟨pk, m, hdb ▸ hm, hle⟩
      | some v =>
          obtain ⟨⟨m, hm⟩, _, k, hk, rfl⟩ := hprepared
          exact ⟨pk, _, hdb ▸ hm.update hk, le_rfl⟩
  · exact hold ((State.persisted_after_other heq).1 h)

/-- No other login with this counter is behind its update. -/
theorem Tallied.alone (ht : Tallied C s) (hinv : Inv Anyone log s)
    (hin : InOrder C s (.exec q seed fresh o)) (hr : s.requests q = some r)
    (hp : advance q r.route seed fresh o s.db r.phase = some p) {q' : ℕ}
    (h : (s.after q r.route p).Persisted C q cid n) (h' : s.Persisted C q' cid n) (hn : n ≠ 0) :
    q = q' := by
  obtain hpersisted | ⟨sid, read, u, pk, json, hcarries, hphase, rfl, _⟩ :=
    exec_persisted_cases (hinv.phases q r hr) hr hp h
  · exact ht.distinct q q' cid n hpersisted h' hn
  · cases json with
    | none => exact absurd h' (hin.keep q seed fresh .done r cid n sid read u pk rfl hr hcarries hn
        hphase rfl q')
    | some v =>
        obtain ⟨_, hlt⟩ := hin.write q seed fresh .done r cid n sid read u pk v rfl hr hcarries hn
          hphase (by decide)
        obtain ⟨pk', m, hholds, hle⟩ := ht.covered q' cid n h'
        have hm := hlt m hholds.counterOf
        omega

theorem Tallied.exec (hC : C.Lawful) (hW : W.Codec) (ht : Tallied C s) (hinv : Inv Anyone log s)
    (hin : InOrder C s (.exec q seed fresh o)) (hr : s.requests q = some r)
    (hp : advance q r.route seed fresh o s.db r.phase = some p) :
    Tallied C (s.after q r.route p) where
  referential := by
    refine ht.referential.wrote (advance_wrote hp) fun sid read user k v hphase => ?_
    have hok := hinv.phases q r hr
    rw [hphase] at hok
    exact hok.2.2
  prepared := by
    intro q' r' sid read u pk json hr' hphase
    by_cases heq : q' = q
    · subst heq
      rw [State.requests_after] at hr'
      cases hr'
      exact exec_prepared hC hW hinv.consistent (hinv.phases q' r hr) hp hphase
    · rw [State.requests_after_other heq] at hr'
      obtain ⟨cid, n, hcarries, hprepared⟩ := ht.prepared q' r' sid read u pk json hr' hphase
      refine ⟨cid, n, hcarries, hprepared.mono fun m hm => ?_⟩
      obtain ⟨m', hm', hle, _⟩ := hm.exec ht hinv.consistent hin hr hp
      exact ⟨m', hm', hle⟩
  covered := fun _ _ _ h => ht.covered_exec hinv hin hr hp h
  distinct := by
    intro q₁ q₂ cid n h₁ h₂ hn
    by_cases heq₁ : q₁ = q
    · subst heq₁
      by_cases heq₂ : q₂ = q₁
      · exact heq₂.symm
      · exact ht.alone hinv hin hr hp h₁ ((State.persisted_after_other heq₂).1 h₂) hn
    · have hold₁ := (State.persisted_after_other heq₁).1 h₁
      by_cases heq₂ : q₂ = q
      · subst heq₂
        exact (ht.alone hinv hin hr hp h₂ hold₁ hn).symm
      · exact ht.distinct q₁ q₂ cid n hold₁ ((State.persisted_after_other heq₂).1 h₂) hn

theorem Tallied.arrive (ht : Tallied C s) {route : Route W} (hnone : s.requests q = none)
    (cookie : Option Uuid) : Tallied C (s.setRequest q ⟨route, .loading cookie⟩) := by
  have hrequests : ∀ q' r', (s.setRequest q ⟨route, .loading cookie⟩).requests q' = some r' →
      s.requests q' = some r' ∨ r' = ⟨route, .loading cookie⟩ := by
    intro q' r' hr'
    by_cases heq : q' = q
    · subst heq
      rw [State.requests_setRequest] at hr'
      cases hr'
      exact .inr rfl
    · exact .inl ((Function.update_of_ne heq ..).symm.trans hr')
  have hpersisted : ∀ q' cid n, (s.setRequest q ⟨route, .loading cookie⟩).Persisted C q' cid n →
      s.Persisted C q' cid n := by
    intro q' cid n h
    obtain ⟨r', hr', hcarries, hphase⟩ := h
    obtain hold | rfl := hrequests q' r' hr'
    · exact ⟨r', hold, hcarries, hphase⟩
    · cases hphase
  constructor
  · exact ht.referential
  · intro q' r' sid read u pk json hr' hphase
    obtain hold | rfl := hrequests q' r' hr'
    · exact ht.prepared q' r' sid read u pk json hold hphase
    · cases hphase
  · intro q' cid n h
    exact ht.covered q' cid n (hpersisted q' cid n h)
  · intro q₁ q₂ cid n h₁ h₂ hn
    exact ht.distinct q₁ q₂ cid n (hpersisted q₁ cid n h₁) (hpersisted q₂ cid n h₂) hn

theorem Tallied.rollback (ht : Tallied C s) (q : ℕ) :
    Tallied C { s with db := s.db.rollback q } where
  referential := ht.referential.rollback q
  prepared := ht.prepared
  covered := ht.covered
  distinct := ht.distinct

theorem step_tallied (hC : C.Lawful) (hW : W.Codec) (ht : Tallied C s) (hinv : Inv Anyone log s)
    {a : Action W} (hin : InOrder C s a) (h : step s a = some (s', es)) : Tallied C s' := by
  obtain ⟨q, route, cookie, rfl, hnone, rfl, _⟩ | ⟨q, seed, fresh, o, r, p, rfl, hr, hp, rfl, _⟩ |
    ⟨q, route, response, rfl, _, rfl, _⟩ := step_cases h
  · exact ht.arrive hnone cookie
  · exact ht.exec hC hW hinv hin hr hp
  · exact ht.rollback q

/-- A step keeps a stored counter, or a login raises it and gets behind its update. -/
theorem Db.Holds.step (ht : Tallied C s) (hinv : Inv Anyone log s) {a : Action W}
    (hin : InOrder C s a) (hs : step s a = some (s', es)) (h : s.db.Holds C cid pk n) :
    ∃ n', s'.db.Holds C cid pk n' ∧ n ≤ n' ∧ (n' = n ∨ ∃ q, s'.Persisted C q cid n') := by
  obtain ⟨q, route, cookie, rfl, _, rfl, _⟩ | ⟨q, seed, fresh, o, r, p, rfl, hr, hp, rfl, _⟩ |
    ⟨q, route, response, rfl, _, rfl, _⟩ := step_cases hs
  · exact ⟨n, h, le_rfl, .inl rfl⟩
  · obtain ⟨n', hn', hle, hcase⟩ := h.exec ht hinv.consistent hin hr hp
    exact ⟨n', hn', hle, hcase.imp_right fun hq => ⟨q, hq⟩⟩
  · exact ⟨n, h, le_rfl, .inl rfl⟩

/-- Runs in which the updates of logins are in order. -/
abbrev OrderedRun (C : W.Counters) : List (Event W) → State W → Prop :=
  StepRun.Run step (InOrder C) State.init

theorem Tallied.init (C : W.Counters) : Tallied C (State.init : State W) where
  referential := by
    constructor
    · intro row hrow
      cases hrow
    · intro q tx htx
      cases htx
  prepared := by
    intro q r sid read u pk json hr
    cases hr
  covered := by
    rintro q cid n ⟨r, hr, _⟩
    cases hr
  distinct := by
    rintro q q' cid n ⟨r, hr, _⟩
    cases hr

theorem run_tallied (hC : C.Lawful) (hW : W.Codec) (h : OrderedRun C log s) :
    Inv Anyone log s ∧ Tallied C s := by
  have hinit : Inv Anyone [] (State.init : State W) ∧ Tallied C (State.init : State W) :=
    ⟨Inv.init Anyone, Tallied.init C⟩
  refine h.invariant (I := fun log s => Inv Anyone log s ∧ Tallied C s) hinit ?_
  intro log s a s' es _ hi hin hs
  exact ⟨step_inv hW (sound_anyone W) hi.1 hs, step_tallied hC hW hi.2 hi.1 hin hs⟩

/-- The user that a login has evidence for is in its table. -/
theorem Evidence.user_exists {last : List (Event W)} {made : Response W → W.Challenge →
    CredentialId → Prop} (h : Evidence made log s q sid read u last) (href : Referential s.db) :
    (s.db.users.any fun row => row.userId == u) = true := by
  have howned : ∀ cid, s.db.Owns u cid → ∃ user ∈ s.db.users, user.userId = u := by
    rintro cid ⟨row, hrow, _, hu⟩
    obtain ⟨user, huser, heq⟩ := href.rows row hrow
    exact ⟨user, huser, heq.trans hu⟩
  have hexists : ∃ user ∈ s.db.users, user.userId = u := by
    cases h with
    | registration _ _ _ _ hu _ _ => exact ⟨_, hu, rfl⟩
    | authentication _ _ _ _ howns _ => exact howned _ howns
    | discoverable _ _ _ _ _ howns _ => exact howned _ howns
  obtain ⟨user, huser, heq⟩ := hexists
  exact List.any_eq_true.2 ⟨user, huser, by simp [heq]⟩

/-- A login with a nonzero counter stays behind its update. -/
theorem persisted_exec (ht : Tallied C s) (hinv : Inv Anyone log s)
    (hin : InOrder C s (.exec q seed fresh o)) (hr : s.requests q = some r)
    (hp : advance q r.route seed fresh o s.db r.phase = some p) (hn : n ≠ 0)
    (hcarries : r.Carries C cid n) (hphase : r.phase.isPersisted = true) :
    p.2.1.isPersisted = true := by
  have hclose := hin.close q seed fresh o r cid n rfl hr hcarries hn
  have hok := hinv.phases q r hr
  obtain ⟨route, phase⟩ := r
  cases phase with
  | settingUser sid read u =>
      have ho : o = .done := hclose rfl
      subst ho
      cases hp
      have huser := Evidence.user_exists hok ht.referential
      simp [setUser, huser, writes, Phase.isPersisted]
  | clearing sid read =>
      have ho : o = .done := hclose rfl
      subst ho
      cases hp
      rfl
  | returned response => cases hp
  | _ => cases hphase

theorem State.Persisted.step (ht : Tallied C s) (hinv : Inv Anyone log s) {a : Action W}
    (hin : InOrder C s a) (hs : Passkeys.step s a = some (s', es)) (hn : n ≠ 0)
    (h : s.Persisted C q cid n) : s'.Persisted C q cid n := by
  obtain ⟨r, hr, hcarries, hphase⟩ := h
  obtain ⟨q', route, cookie, rfl, hnone, rfl, _⟩ | ⟨q', seed, fresh, o, r', p, rfl, hr', hp, rfl, _⟩ |
    ⟨q', route, response, rfl, _, rfl, _⟩ := step_cases hs
  · have hne : q ≠ q' := by
      rintro rfl
      rw [hr] at hnone
      cases hnone
    exact ⟨r, (Function.update_of_ne hne ..).trans hr, hcarries, hphase⟩
  · by_cases heq : q = q'
    · subst heq
      rw [hr] at hr'
      cases hr'
      exact ⟨_, s.requests_after q r.route p, hcarries,
        persisted_exec ht hinv hin hr hp hn hcarries hphase⟩
    · exact (State.persisted_after_other heq).2 ⟨r, hr, hcarries, hphase⟩
  · exact ⟨r, hr, hcarries, hphase⟩

/-- From a stored counter on, a run only raises it, to counters of logins. -/
theorem run_accounted (hC : C.Lawful) (hW : W.Codec) (h : OrderedRun C log s) {n₀ : ℕ}
    (h₀ : s.db.Holds C cid pk n₀) {log' : List (Event W)}
    (h' : StepRun.Run step (InOrder C) s log' s') :
    ∃ n, s'.db.Holds C cid pk n ∧ n₀ ≤ n ∧ (n = n₀ ∨ ∃ q, s'.Persisted C q cid n) := by
  induction h' with
  | start => exact ⟨n₀, h₀, le_rfl, .inl rfl⟩
  | snoc hrun hin hs ih =>
      obtain ⟨hinv, ht⟩ := run_tallied hC hW (h.trans hrun)
      obtain ⟨n, hn, hle, hcase⟩ := ih
      obtain ⟨n', hn', hle', hcase'⟩ := hn.step ht hinv hin hs
      refine ⟨n', hn', hle.trans hle', ?_⟩
      obtain rfl | hnew := hcase'
      · obtain rfl | ⟨q, hq⟩ := hcase
        · exact .inl rfl
        · by_cases hzero : n' = 0
          · exact .inl (by omega)
          · exact .inr ⟨q, hq.step ht hinv hin hs hzero⟩
      · exact .inr hnew

theorem State.Answered.persisted (h : s.Answered C q cid n) : s.Persisted C q cid n := by
  obtain ⟨r, reply, hr, hcarries, hphase⟩ := h
  exact ⟨r, hr, hcarries, by rw [hphase]; rfl⟩

theorem State.Persisted.answered (hsettled : s.Settled) (h : s.Persisted C q cid n) :
    s.Answered C q cid n := by
  obtain ⟨r, hr, hcarries, hphase⟩ := h
  have hlogin : r.route.assertion.isSome := by
    obtain ⟨credential, hroute, _⟩ := hcarries
    rw [hroute]
    rfl
  obtain ⟨response, hreturned⟩ := hsettled q r hr hlogin
  rw [hreturned] at hphase
  cases response with
  | error status => cases hphase
  | ok reply => exact ⟨r, reply, hr, hcarries, hreturned⟩

/-- While the updates of logins are in order, no step lowers a stored counter, two
logins that answered 200 carry different nonzero counters, and once all logins have
returned the stored counter is the greatest of the one it started from and those of
the logins that answered 200. -/
theorem counter_never_back (hC : C.Lawful) (hW : W.Codec) (h : OrderedRun C log s) :
    (∀ a s' es, InOrder C s a → step s a = some (s', es) → ∀ cid n,
      C.counterOf s.db cid = some n → ∃ n', C.counterOf s'.db cid = some n' ∧ n ≤ n') ∧
    (∀ q q' cid n, s.Answered C q cid n → s.Answered C q' cid n → n ≠ 0 → q = q') ∧
    ∀ log' s' cid n₀, C.counterOf s.db cid = some n₀ → StepRun.Run step (InOrder C) s log' s' →
      s'.Settled → ∃ n, C.counterOf s'.db cid = some n ∧
        IsGreatest ({n₀} ∪ {m | ∃ q, s'.Answered C q cid m}) n := by
  obtain ⟨hinv, ht⟩ := run_tallied hC hW h
  refine ⟨?_, ?_, ?_⟩
  · intro a s' es hin hs cid n hcounter
    obtain ⟨pk, hholds⟩ := exists_holds hcounter
    obtain ⟨n', hn', hle, _⟩ := hholds.step ht hinv hin hs
    exact ⟨n', hn'.counterOf, hle⟩
  · intro q q' cid n hq hq' hn
    exact ht.distinct q q' cid n hq.persisted hq'.persisted hn
  · intro log' s' cid n₀ hcounter hrun hsettled
    obtain ⟨pk, hholds⟩ := exists_holds hcounter
    obtain ⟨n, hn, hle, hcase⟩ := run_accounted hC hW h hholds hrun
    obtain ⟨_, ht'⟩ := run_tallied hC hW (h.trans hrun)
    refine ⟨n, hn.counterOf, ?_, ?_⟩
    · obtain rfl | ⟨q, hq⟩ := hcase
      · exact .inl rfl
      · exact .inr ⟨q, hq.answered hsettled⟩
    · rintro m (rfl | ⟨q, hq⟩)
      · exact hle
      · obtain ⟨pk', m', hm', hle'⟩ := ht'.covered q cid m hq.persisted
        obtain ⟨_, rfl⟩ := hm'.pk_unique hn
        exact hle'

end Run

/-! ## A library with counters -/

/-- An assertion: the challenge it answers, the key, the user handle and the counter. -/
structure Assertion where
  nonce : ℕ
  key : ℕ
  handle : ℕ
  counter : ℕ
deriving Repr, DecidableEq

def isFresh (known new : ℕ) : Bool := decide (known < new) || known == 0 && new == 0

theorem isFresh_iff {known new : ℕ} : isFresh known new = true ↔ Fresh known new := by
  simp [isFresh, Fresh]

/-- A library whose challenges are its seeds and whose passkeys are a key with a
counter, new ones at zero. -/
def Webauthn.counting : Webauthn where
  Seed := ℕ
  Value := ChallengeState ℕ (ℕ × List (ℕ × ℕ)) ℕ ⊕ (ℕ × ℕ)
  Passkey := ℕ × ℕ
  PasskeyRegistration := ℕ
  PasskeyAuthentication := ℕ × List (ℕ × ℕ)
  DiscoverableAuthentication := ℕ
  RegisterPublicKeyCredential := ℕ × ℕ
  PublicKeyCredential := Assertion
  AuthenticationResult := ℕ × ℕ
  CreationChallengeResponse := ℕ
  RequestChallengeResponse := ℕ
  credId := fun passkey => [UInt8.ofNat passkey.1]
  resultCredId := fun result => [UInt8.ofNat result.1]
  startPasskeyRegistration := fun seed _ _ _ => some (seed, seed)
  setResidentKey := fun _ challenge => some challenge
  finishPasskeyRegistration := fun r st => if r.1 = st then some (r.2, 0) else none
  startPasskeyAuthentication := fun seed keys => some (seed, seed, keys)
  finishPasskeyAuthentication := fun r st =>
    if r.nonce = st.1 ∧ (st.2.any fun p => p.1 == r.key && isFresh p.2 r.counter) = true then
      some (r.key, r.counter)
    else none
  startDiscoverableAuthentication := fun seed => some (seed, seed)
  identifyDiscoverableAuthentication := fun r => some (r.handle, [UInt8.ofNat r.key])
  finishDiscoverableAuthentication := fun r st keys =>
    if r.nonce = st ∧ (keys.any fun p => p.1 == r.key && isFresh p.2 r.counter) = true then
      some (r.key, r.counter)
    else none
  updateCredential := fun p result =>
    if p.1 = result.1 then
      if p.2 < result.2 then some ((p.1, result.2), true) else some (p, false)
    else none
  challengeToValue := fun c => some (.inl c)
  challengeFromValue := Sum.getLeft?
  passkeyToValue := fun p => some (.inr p)
  passkeyFromValue := Sum.getRight?

def Webauthn.counted : Webauthn.counting.Counters where
  passkeyCounter := fun (p : ℕ × ℕ) => p.2
  resultCounter := fun (result : ℕ × ℕ) => result.2
  assertionId := fun (r : Assertion) => [UInt8.ofNat r.key]
  assertionCounter := fun (r : Assertion) => r.counter
  allowed := fun (st : ℕ × List (ℕ × ℕ)) => st.2

theorem Webauthn.counting_codec : Webauthn.counting.Codec where
  challenge := by
    intro c v hv
    cases hv
    rfl
  passkey := by
    intro p v hv
    cases hv
    rfl
  updated := by
    intro p result p' changed h
    simp only [counting] at h
    split_ifs at h with hkey hlt
    · cases h
      rfl
    · cases h
      rfl

theorem Webauthn.exists_fresh {keys : List (ℕ × ℕ)} {r : Assertion}
    (h : (keys.any fun p => p.1 == r.key && isFresh p.2 r.counter) = true) :
    ∃ p ∈ keys, [UInt8.ofNat p.1] = [UInt8.ofNat r.key] ∧ Fresh p.2 r.counter := by
  obtain ⟨p, hp, hboth⟩ := List.any_eq_true.1 h
  rw [Bool.and_eq_true, beq_iff_eq] at hboth
  exact ⟨p, hp, by rw [hboth.1], isFresh_iff.1 hboth.2⟩

theorem Webauthn.counted_lawful : Webauthn.counted.Lawful where
  started := by
    intro seed keys challenge st h
    cases h
    rfl
  authentication := by
    intro r st result h
    simp only [counting] at h
    split_ifs at h with hboth
    cases h
    exact ⟨rfl, rfl, exists_fresh hboth.2⟩
  discoverable := by
    intro r st keys result h
    simp only [counting] at h
    split_ifs at h with hboth
    cases h
    exact ⟨rfl, rfl, exists_fresh hboth.2⟩
  updated := by
    intro p result p' changed h
    simp only [counting] at h
    split_ifs at h with hkey hlt
    · cases h
      exact ⟨iff_of_true rfl hlt, fun _ => rfl⟩
    · cases h
      exact ⟨iff_of_false (by decide) hlt, fun hfalse => by cases hfalse⟩

/-- `n` statements of request `q`, all of which succeed. -/
def successes (q n : ℕ) : List (Action Webauthn.counting) :=
  List.replicate n (.exec q (0 : ℕ) 0 .done)

/-- Session 1 registers user 5 with key 7. -/
def enrolledActions : List (Action Webauthn.counting) :=
  [.arrive 0 (.registerStart ⟨"alice", none⟩) none, .exec 0 (0 : ℕ) 0 .done,
    .exec 0 (0 : ℕ) 1 .done, .exec 0 (9 : ℕ) 5 .done, .exec 0 (0 : ℕ) 0 .done,
    .arrive 1 (.registerFinish ((9, 7) : ℕ × ℕ)) (some 1), .exec 1 (0 : ℕ) 0 .done,
    .exec 1 (0 : ℕ) 0 .done, .exec 1 (0 : ℕ) 0 .done, .exec 1 (0 : ℕ) 20 .done] ++ successes 1 3

/-- Two discoverable logins of session 1, with the counters 5 and 3, read the row
before either writes it. -/
def overlappingActions : List (Action Webauthn.counting) :=
  enrolledActions ++
    [.arrive 2 .discoverableStart (some 1), .exec 2 (11 : ℕ) 0 .done, .exec 2 (0 : ℕ) 0 .done,
      .arrive 3 (.discoverableFinish (⟨11, 7, 5, 5⟩ : Assertion)) (some 1),
      .arrive 4 (.discoverableFinish (⟨11, 7, 5, 3⟩ : Assertion)) (some 1)] ++
    successes 3 2 ++ successes 4 2 ++ successes 3 1

/-- Two username logins, one after the other, whose challenges were stored before
both: each assertion carries the counter 5. -/
def frozenActions : List (Action Webauthn.counting) :=
  enrolledActions ++
    [.arrive 2 (.authStart ⟨"alice"⟩) (some 1), .exec 2 (0 : ℕ) 0 .done, .exec 2 (0 : ℕ) 0 .done,
      .exec 2 (11 : ℕ) 0 .done, .exec 2 (0 : ℕ) 0 .done,
      .arrive 3 (.authStart ⟨"alice"⟩) none, .exec 3 (0 : ℕ) 0 .done, .exec 3 (0 : ℕ) 2 .done,
      .exec 3 (0 : ℕ) 0 .done, .exec 3 (12 : ℕ) 0 .done, .exec 3 (0 : ℕ) 0 .done,
      .arrive 4 (.authFinish (⟨11, 7, 5, 5⟩ : Assertion)) (some 1)] ++ successes 4 5 ++
    [.arrive 5 (.authFinish (⟨12, 7, 5, 5⟩ : Assertion)) (some 2)] ++ successes 5 5

def Phase.isOk : Phase W → Bool
  | .returned (.ok _) => true
  | _ => false

theorem Phase.eq_of_isOk {phase : Phase W} (h : phase.isOk = true) :
    ∃ reply, phase = .returned (.ok reply) := by
  unfold isOk at h
  split at h
  · exact ⟨_, rfl⟩
  · cases h

/-- `State.Answered` as a test. -/
def State.answered (s : State W) (C : W.Counters) (q : ℕ) (cid : CredentialId) (n : ℕ) : Bool :=
  (s.requests q).any fun r => r.phase.isOk &&
    r.route.assertion.any fun credential =>
      C.assertionId credential == cid && C.assertionCounter credential == n

theorem State.answered_sound {s : State W} {C : W.Counters} {q n : ℕ} {cid : CredentialId}
    (h : s.answered C q cid n = true) : s.Answered C q cid n := by
  obtain ⟨r, hr, hboth⟩ := (Option.any_eq_true _ _).1 h
  rw [Bool.and_eq_true] at hboth
  obtain ⟨credential, hroute, hsame⟩ := (Option.any_eq_true _ _).1 hboth.2
  rw [Bool.and_eq_true, beq_iff_eq, beq_iff_eq] at hsame
  obtain ⟨reply, hreply⟩ := Phase.eq_of_isOk hboth.1
  exact ⟨r, reply, hr, ⟨credential, hroute, hsame⟩, hreply⟩

/-- A test for `InOrder` that accepts the raising updates alone. -/
def inOrder (C : W.Counters) (s : State W) : Action W → Bool
  | .exec q _ _ o =>
      (s.requests q).all fun r => r.route.assertion.all fun credential =>
        C.assertionCounter credential == 0 ||
          match r.phase with
          | .persisting _ _ _ _ (some _) =>
              o == .rejected || o == .done && (C.counterOf s.db (C.assertionId credential)).all
                fun m => decide (m < C.assertionCounter credential)
          | .persisting _ _ _ _ none => false
          | .settingUser .. | .clearing .. => o == .done
          | _ => true
  | _ => true

theorem inOrder_sound {C : W.Counters} {s : State W} {a : Action W} (h : inOrder C s a = true) :
    InOrder C s a where
  write := by
    rintro q seed fresh o r cid n sid read u pk json rfl hr ⟨credential, hroute, rfl, rfl⟩ hn hphase
      ho
    simp only [inOrder, hr, hroute, hphase, Option.all_some, Bool.or_eq_true, Bool.and_eq_true,
      beq_iff_eq, hn, ho, false_or] at h
    refine ⟨h.1, fun m hm => ?_⟩
    have hlt := h.2
    rw [hm] at hlt
    simpa using hlt
  keep := by
    rintro q seed fresh o r cid n sid read u pk rfl hr ⟨credential, hroute, rfl, rfl⟩ hn hphase
    simp [inOrder, hr, hroute, hphase, hn] at h
  close := by
    rintro q seed fresh o r cid n rfl hr ⟨credential, hroute, rfl, rfl⟩ hn hclosing
    obtain ⟨route, phase⟩ := r
    dsimp only at hroute
    cases phase with
    | settingUser sid read u => simpa [inOrder, hr, hroute, hn] using h
    | clearing sid read => simpa [inOrder, hr, hroute, hn] using h
    | _ => cases hclosing

/-- One discoverable login with the counter 5. -/
theorem counter_never_back_counted : ∃ log s, OrderedRun Webauthn.counted log s ∧
    s.Answered Webauthn.counted 3 [7] 5 ∧ ∀ q cid n, s.Answered Webauthn.counted q cid n →
      s.Answered Webauthn.counted 3 cid n → n ≠ 0 → q = 3 := by
  obtain ⟨log, s, hrun, hp⟩ := StepRun.exists_run step (inOrder Webauthn.counted) State.init
    (enrolledActions ++ [.arrive 2 .discoverableStart (some 1), .exec 2 (11 : ℕ) 0 .done,
      .exec 2 (0 : ℕ) 0 .done,
      .arrive 3 (.discoverableFinish (⟨11, 7, 5, 5⟩ : Assertion)) (some 1)] ++ successes 3 5)
    (fun _ s => s.answered Webauthn.counted 3 [7] 5) (by decide)
  have hordered : OrderedRun Webauthn.counted log s := hrun.mono fun _ _ => inOrder_sound
  have hlaw := counter_never_back Webauthn.counted_lawful Webauthn.counting_codec hordered
  exact ⟨log, s, hordered, State.answered_sound hp, fun q => hlaw.2.1 q 3⟩

/-- The second of two overlapping updates puts the counter back from 5 to 3; and two
logins, one after the other, answer 200 to the counter 5. -/
theorem not_counter_never_back : Webauthn.counted.Lawful ∧
    (∃ log s a s' es, PasskeyRun Webauthn.counting log s ∧ step s a = some (s', es) ∧
      Webauthn.counted.counterOf s.db [7] = some 5 ∧
      Webauthn.counted.counterOf s'.db [7] = some 3) ∧
    ∃ log s, PasskeyRun Webauthn.counting log s ∧ s.Answered Webauthn.counted 4 [7] 5 ∧
      s.Answered Webauthn.counted 5 [7] 5 := by
  refine ⟨Webauthn.counted_lawful, ?_, ?_⟩
  · obtain ⟨log, s, hrun, hp⟩ := StepRun.exists_free_run step State.init overlappingActions
      (fun _ s => Webauthn.counted.counterOf s.db [7] == some 5 &&
        (step s (.exec 4 (0 : ℕ) 0 .done)).any fun r =>
          Webauthn.counted.counterOf r.1.db [7] == some 3) (by decide)
    rw [Bool.and_eq_true, beq_iff_eq] at hp
    obtain ⟨⟨s', es⟩, hstep, hback⟩ := (Option.any_eq_true _ _).1 hp.2
    exact ⟨log, s, _, s', es, hrun, hstep, hp.1, beq_iff_eq.1 hback⟩
  · obtain ⟨log, s, hrun, hp⟩ := StepRun.exists_free_run step State.init frozenActions
      (fun _ s => s.answered Webauthn.counted 4 [7] 5 && s.answered Webauthn.counted 5 [7] 5)
      (by decide)
    rw [Bool.and_eq_true] at hp
    exact ⟨log, s, hrun, State.answered_sound hp.1, State.answered_sound hp.2⟩

end Cja.Passkeys
