import Cja.Passkeys.Login

/-!
# What a failed finish leaves behind

A finish request ends in statements of its own: a registration commits, a login
updates the credential, and both then set the user of the session and clear its
challenge. Each may fail with an error response, and nothing undoes the ones
before it. `Late` is the kind of failure that leaves an effect behind the error.
-/
namespace Cja.Passkeys
open Jobs (Uuid)

variable {W : Webauthn}

/-- One statement of a request, with the database before and after it. -/
structure Statement (W : Webauthn) where
  phase : Phase W
  outcome : Outcome
  before : Db W
  after : Db W

/-- No row of a user or credential is inserted, no session changes its user. -/
structure Statement.Kept (w : Statement W) : Prop where
  users : w.after.users = w.before.users
  credentials : w.after.credentials.map (fun row => row.credentialIdPk) =
    w.before.credentials.map fun row => row.credentialIdPk
  sessions : ∀ sid, w.after.userOf sid = w.before.userOf sid

/-- The statement that request `q` executes by an action. -/
def statementOf (q : ℕ) (s : State W) (db : Db W) : Action W → List (Statement W)
  | .exec q' _ _ o =>
      if q' = q then ((s.requests q).map fun r => ⟨r.phase, o, s.db, db⟩).toList else []
  | _ => []

/-- The step function, recording the statements of request `q`. -/
def observe (q : ℕ) (s : State W) (a : Action W) : Option (State W × List (Statement W)) :=
  (step s a).map fun r => (r.1, statementOf q s r.1.db a)

/-- A failed statement of request `q` has no effect. -/
def FailsClean (q : ℕ) (_ : State W) (a : Action W) : Prop :=
  ∀ seed fresh, a ≠ .exec q seed fresh .lost

/-- Runs of the system, with the statements of request `q`. -/
abbrev ObservedRun (W : Webauthn) (q : ℕ) : List (Statement W) → State W → Prop :=
  StepRun.Run (observe q) (FailsClean q) State.init

/-- The statements behind the commit of a registration or the update of a credential. -/
def Phase.isClosing : Phase W → Bool
  | .settingUser .. | .clearing .. => true
  | _ => false

/-- A statement failed behind an effect of its request: `set_user_id` of a
registration, or `clear_challenge_state` of a registration or of a login whose
session had not been the user's before. -/
def Late (route : Route W) (ws : List (Statement W)) : Prop :=
  ∃ w ∈ ws, w.outcome = .rejected ∧
    ((route.kind = .registration ∧ w.phase.isClosing = true) ∨
      ∃ sid read, w.phase = .clearing sid read ∧ ∃ w' ∈ ws, ∃ u,
        w'.phase = .settingUser sid read u ∧ w'.before.userOf sid ≠ some u)

/-! ## The statements of one request -/

section Statements

variable {q : ℕ} {fresh : Uuid} {seed : W.Seed} {route : Route W} {o : Outcome} {sid u : Uuid}
variable {read : ℕ} {db db' : Db W} {phase : Phase W} {es : List (Event W)} {p : Progress W}
variable {ws : List (Statement W)} {w : Statement W} {s s' : State W}

theorem Db.pks_updateCredentialJson (db : Db W) (pk : Uuid) (v : W.Value) :
    (db.updateCredentialJson pk v).credentials.map (fun row => row.credentialIdPk) =
      db.credentials.map fun row => row.credentialIdPk := by
  rw [updateCredentialJson, List.map_map]
  apply List.map_congr_left
  intro row _
  rw [Function.comp_apply]
  split <;> rfl

/-- Only the commit and `set_user_id` have an effect that the law is about. -/
theorem Wrote.kept (h : Wrote q fresh db phase db' es)
    (hcommit : ∀ sid read user k, phase ≠ .committing sid read user k)
    (hset : ∀ sid read u, phase ≠ .settingUser sid read u) (o : Outcome) :
    Statement.Kept ⟨phase, o, db, db'⟩ := by
  have hsessions : ∀ sid, db'.userOf sid = db.userOf sid := by
    intro sid
    obtain hsame | ⟨read, u, hphase, _⟩ := h.userOf sid
    · exact hsame
    · exact absurd hphase (hset sid read u)
  cases h with
  | nothing _ => exact ⟨rfl, rfl, hsessions⟩
  | created _ _ => exact ⟨rfl, rfl, hsessions⟩
  | stored => exact ⟨rfl, rfl, hsessions⟩
  | began => exact ⟨rfl, rfl, hsessions⟩
  | insertedUser _ => exact ⟨rfl, rfl, hsessions⟩
  | insertedCredential _ => exact ⟨rfl, rfl, hsessions⟩
  | committed => exact absurd rfl (hcommit _ _ _ _)
  | persisted => exact ⟨rfl, db.pks_updateCredentialJson _ _, hsessions⟩
  | loggedIn => exact absurd rfl (hset _ _ _)
  | cleared => exact ⟨rfl, rfl, hsessions⟩
  | finished => exact ⟨rfl, rfl, hsessions⟩

theorem sessions_updateSession_isSome (db : Db W) (sid other : Uuid)
    (f : SessionRow W → SessionRow W) (h : (db.sessions other).isSome) :
    ((db.updateSession sid f).sessions other).isSome := by
  rw [Db.sessions_updateSession]
  split
  · rename_i heq
    rw [Option.isSome_map, ← heq]
    exact h
  · exact h

/-- No statement deletes a session. -/
theorem Wrote.sessions (h : Wrote q fresh db phase db' es) {sid : Uuid}
    (hsid : (db.sessions sid).isSome) : (db'.sessions sid).isSome := by
  cases h with
  | nothing _ => exact hsid
  | created _ _ =>
      rw [Db.sessions_createSession]
      split
      · rfl
      · exact hsid
  | stored => exact sessions_updateSession_isSome db _ _ _ hsid
  | began => exact hsid
  | insertedUser _ => exact hsid
  | insertedCredential _ => exact hsid
  | committed =>
      rw [Db.sessions_commit]
      exact hsid
  | persisted => exact hsid
  | loggedIn => exact sessions_updateSession_isSome db _ _ _ hsid
  | cleared => exact sessions_updateSession_isSome db _ _ _ hsid
  | finished => exact sessions_updateSession_isSome db _ _ _ hsid

/-- Nothing so far outlasts the request, and it is not behind its commit or update. -/
def Early (ws : List (Statement W)) : Prop := ∀ w ∈ ws, w.Kept ∧ w.phase.isClosing = false

/-- No closing statement failed so far. -/
def Unbroken (ws : List (Statement W)) : Prop :=
  ∀ w ∈ ws, w.outcome = .rejected → w.phase.isClosing = false

theorem Early.nil : Early ([] : List (Statement W)) := by
  intro w hw
  cases hw

theorem Early.snoc (h : Early ws) (hw : w.Kept) (hphase : w.phase.isClosing = false) :
    Early (ws ++ [w]) := by
  intro w' hw'
  obtain hold | hnew := List.mem_append.1 hw'
  · exact h w' hold
  · rw [List.mem_singleton.1 hnew]
    exact ⟨hw, hphase⟩

theorem Early.unbroken (h : Early ws) : Unbroken ws :=
  fun w hw _ => (h w hw).2

theorem Unbroken.snoc (h : Unbroken ws) (hw : w.outcome = .rejected → w.phase.isClosing = false) :
    Unbroken (ws ++ [w]) := by
  intro w' hw'
  obtain hold | hnew := List.mem_append.1 hw'
  · exact h w' hold
  · rw [List.mem_singleton.1 hnew]
    exact hw

theorem Unbroken.not_late (h : Unbroken ws) : ¬ Late route ws := by
  rintro ⟨w, hw, hrejected, ⟨_, hclosing⟩ | ⟨sid, read, hphase, _⟩⟩
  · rw [h w hw hrejected] at hclosing
    cases hclosing
  · have hopen := h w hw hrejected
    rw [hphase] at hopen
    cases hopen

/-- What the statements of a request look like before the statement of its phase. -/
def Phase.Ledger (q : ℕ) (route : Route W) (ws : List (Statement W)) (db : Db W) :
    Phase W → Prop
  | .loading _ | .creating => Early ws
  | .checkingUsername _ | .findingUser _ | .listing .. | .storing .. => False
  | .beginning .. => Early ws ∧ route.kind = .registration
  | .insertingUser .. =>
      Early ws ∧ route.kind = .registration ∧ ∃ tx, db.txOf q = some tx
  | .insertingCredential _ _ user _ _ | .committing _ _ user _ =>
      Early ws ∧ route.kind = .registration ∧ ∃ tx, db.txOf q = some tx ∧ user ∈ tx.users
  | .findingVerified sid .. | .findingIdentified sid .. | .persisting sid .. =>
      Early ws ∧ route.kind ≠ .registration ∧ (db.sessions sid).isSome
  | .settingUser sid _ u =>
      (Unbroken ws ∧ route.kind = .registration ∧ (∃ w ∈ ws, ¬ w.Kept) ∧
        ∃ row ∈ db.users, row.userId = u) ∨
      (Early ws ∧ route.kind ≠ .registration ∧ (db.sessions sid).isSome)
  | .clearing sid read =>
      Unbroken ws ∧
        ((route.kind = .registration ∧ ∃ w ∈ ws, ¬ w.Kept) ∨
          (route.kind ≠ .registration ∧ ((∀ w ∈ ws, w.Kept) ↔ ∀ w ∈ ws, ∀ u,
            w.phase = .settingUser sid read u → w.before.userOf sid = some u)))
  | .returned (.error _) => (∀ w ∈ ws, w.Kept) ↔ ¬ Late route ws
  | .returned (.ok _) => True

/-- A request that fails before its closing statements. -/
theorem Early.failed (h : Early ws) {status : StatusCode} :
    Phase.Ledger q route ws db (.returned (.error status)) :=
  ⟨fun _ => h.unbroken.not_late, fun _ w hw => (h w hw).1⟩

/-- A registration that fails behind its commit. -/
theorem Ledger.behind_commit (hkind : route.kind = .registration) (hmem : ∃ w ∈ ws, ¬ w.Kept)
    (hrejected : w.outcome = .rejected) (hclosing : w.phase.isClosing = true)
    {status : StatusCode} :
    Phase.Ledger q route (ws ++ [w]) db (.returned (.error status)) := by
  obtain ⟨w', hw', hkept⟩ := hmem
  have hlate : Late route (ws ++ [w]) :=
    ⟨w, List.mem_append_right _ (List.mem_singleton.2 rfl), hrejected, .inl ⟨hkind, hclosing⟩⟩
  exact ⟨fun h => absurd (h w' (List.mem_append_left _ hw')) hkept,
    fun h => absurd hlate h⟩

/-- The finish routes up to their first statement. -/
theorem enter_ledger (hstart : route.isStart = false) (h : Early ws)
    (hsid : (db.sessions sid).isSome) (challengeState : Option (Stored W)) :
    (enter q route seed sid challengeState).1.Ledger q route ws db := by
  cases route with
  | registerStart body => cases hstart
  | authStart body => cases hstart
  | discoverableStart => cases hstart
  | registerFinish credential =>
      cases challengeState with
      | none => exact h.failed
      | some stored =>
          simp only [enter, finishRegistration]
          split
          · split
            · exact h.failed
            · split
              · exact h.failed
              · exact ⟨h, rfl⟩
          · exact h.failed
  | authFinish credential =>
      cases challengeState with
      | none => exact h.failed
      | some stored =>
          simp only [enter, finishAuthentication]
          split
          · split
            · exact h.failed
            · exact ⟨h, by simp [Route.kind], hsid⟩
          · exact h.failed
  | discoverableFinish credential =>
      cases challengeState with
      | none => exact h.failed
      | some stored =>
          simp only [enter, identifyDiscoverable]
          split
          · split
            · exact h.failed
            · exact ⟨h, by simp [Route.kind], hsid⟩
          · exact h.failed

theorem enter_none (hstart : route.isStart = false) :
    enter q route seed sid none = returnError .badRequest := by
  cases route with
  | registerStart body => cases hstart
  | authStart body => cases hstart
  | discoverableStart => cases hstart
  | registerFinish credential => rfl
  | authFinish credential => rfl
  | discoverableFinish credential => rfl

theorem persist_ledger (h : Early ws) (hkind : route.kind ≠ .registration)
    (hsid : (db.sessions sid).isSome) (row : CredentialRow W) (k : W.Passkey)
    (result : W.AuthenticationResult) :
    (persistAuthenticatedCredential sid read u row k result).Ledger q route ws db := by
  unfold persistAuthenticatedCredential
  split_ifs
  · exact h.failed
  · split
    · split
      · exact ⟨h, hkind, hsid⟩
      · exact h.failed
    · exact ⟨h, hkind, hsid⟩
    · exact h.failed

theorem verifiedRow_ledger (h : Early ws) (hkind : route.kind ≠ .registration)
    (hsid : (db.sessions sid).isSome) (result : W.AuthenticationResult)
    (found : Option (CredentialRow W)) :
    (verifiedRow sid read u result found).1.Ledger q route ws db := by
  unfold verifiedRow
  split
  · exact h.failed
  · split
    · exact h.failed
    · exact persist_ledger h hkind hsid _ _ _

theorem identifiedRow_ledger (h : Early ws) (hkind : route.kind ≠ .registration)
    (hsid : (db.sessions sid).isSome) (credential : W.PublicKeyCredential)
    (st : W.DiscoverableAuthentication) (found : Option (CredentialRow W)) :
    (identifiedRow q sid credential read st u found).1.Ledger q route ws db := by
  unfold identifiedRow
  split
  · exact h.failed
  · split
    · exact h.failed
    · split
      · exact h.failed
      · exact persist_ledger h hkind hsid _ _ _

/-- A statement before the closing ones: it fails, or goes on to `next`. -/
theorem ledger_writes {status : StatusCode} {next : Phase W} (ho : o ≠ .lost)
    (hrejected : Early (ws ++ [⟨phase, o, db, db⟩]))
    (hdone : o = .done → next.Ledger q route (ws ++ [⟨phase, o, db, db'⟩]) db') :
    (writes o db db' status next es).2.1.Ledger q route
      (ws ++ [⟨phase, o, db, (writes o db db' status next es).1⟩])
      (writes o db db' status next es).1 := by
  cases o with
  | done => exact hdone rfl
  | rejected => exact hrejected.failed
  | lost => exact absurd rfl ho

theorem ledger_reads {next : Phase W × List (Event W)} (hfail : Early (ws ++ [⟨phase, o, db, db⟩]))
    (hdone : next.1.Ledger q route (ws ++ [⟨phase, o, db, db⟩]) db) :
    (reads o db next).2.1.Ledger q route (ws ++ [⟨phase, o, db, (reads o db next).1⟩])
      (reads o db next).1 := by
  cases o with
  | done => exact hdone
  | rejected => exact hfail.failed
  | lost => exact hfail.failed

/-- A statement that changes nothing. -/
theorem Statement.Kept.same (phase : Phase W) (o : Outcome) (db : Db W) :
    Statement.Kept ⟨phase, o, db, db⟩ :=
  ⟨rfl, rfl, fun _ => rfl⟩

theorem createUser_ledger {user : UserRow} {k : W.Passkey} {v : W.Value} (ho : o ≠ .lost)
    (h : Phase.Ledger q route ws db (.insertingUser sid read user k v))
    (hp : createUser q o db sid read user k v = some p) :
    p.2.1.Ledger q route (ws ++ [⟨.insertingUser sid read user k v, o, db, p.1⟩]) p.1 := by
  obtain ⟨hearly, hkind, tx, htx⟩ := h
  have hfail := hearly.snoc (.same (.insertingUser sid read user k v) o db) rfl
  unfold createUser at hp
  cases hins : db.insertUser user with
  | inserted =>
      rw [hins] at hp
      cases hp
      refine ledger_writes ho hfail fun _ => ⟨hearly.snoc ⟨rfl, rfl, fun _ => rfl⟩ rfl, hkind, _,
        Db.txOf_updateTx_self (fun _ => rfl) htx, ?_⟩
      exact List.mem_append_right _ (List.mem_singleton.2 rfl)
  | conflict =>
      rw [hins] at hp
      cases hp
      exact hfail.failed
  | waits =>
      rw [hins] at hp
      cases o with
      | rejected => cases hp; exact hfail.failed
      | done => cases hp
      | lost => cases hp

theorem createCredential_ledger {user : UserRow} {k : W.Passkey} {v : W.Value} (ho : o ≠ .lost)
    (h : Phase.Ledger q route ws db (.insertingCredential sid read user k v))
    (hp : createCredential q o fresh db sid read user k v = some p) :
    p.2.1.Ledger q route (ws ++ [⟨.insertingCredential sid read user k v, o, db, p.1⟩]) p.1 := by
  obtain ⟨hearly, hkind, tx, htx, hmem⟩ := h
  have hfail := hearly.snoc (.same (.insertingCredential sid read user k v) o db) rfl
  unfold createCredential at hp
  dsimp only at hp
  cases hins : db.insertCredential ⟨fresh, user.userId, v, W.credId k⟩ with
  | inserted =>
      rw [hins] at hp
      cases hp
      exact ledger_writes ho hfail fun _ => ⟨hearly.snoc ⟨rfl, rfl, fun _ => rfl⟩ rfl, hkind, _,
        Db.txOf_updateTx_self (fun _ => rfl) htx, hmem⟩
  | conflict =>
      rw [hins] at hp
      cases hp
      exact hfail.failed
  | waits =>
      rw [hins] at hp
      cases o with
      | rejected => cases hp; exact hfail.failed
      | done => cases hp
      | lost => cases hp

/-- The commit inserts its user. -/
theorem committed_not_kept {user : UserRow} {k : W.Passkey} {tx : Tx W}
    (htx : db.txOf q = some tx) (hmem : user ∈ tx.users) :
    ¬ Statement.Kept ⟨.committing sid read user k, .done, db, db.commit q⟩ := by
  intro hkept
  have husers : (db.commit q).users = db.users := hkept.users
  have hnil : tx.users = [] := by simpa [(Db.commit_of_tx htx).1] using husers
  rw [hnil] at hmem
  cases hmem

theorem commit_ledger {user : UserRow} {k : W.Passkey} (ho : o ≠ .lost)
    (h : Phase.Ledger q route ws db (.committing sid read user k)) {status : StatusCode}
    (es : List (Event W)) :
    (writes o db (db.commit q) status (.settingUser sid read user.userId) es).2.1.Ledger q route
      (ws ++ [⟨.committing sid read user k, o, db,
        (writes o db (db.commit q) status (.settingUser sid read user.userId) es).1⟩])
      (writes o db (db.commit q) status (.settingUser sid read user.userId) es).1 := by
  obtain ⟨hearly, hkind, tx, htx, hmem⟩ := h
  refine ledger_writes ho (hearly.snoc (.same _ o db) rfl) ?_
  rintro rfl
  refine .inl ⟨hearly.unbroken.snoc fun _ => rfl, hkind, ?_, user, ?_, rfl⟩
  · exact ⟨_, List.mem_append_right _ (List.mem_singleton.2 rfl), committed_not_kept htx hmem⟩
  · rw [(Db.commit_of_tx htx).1]
    exact List.mem_append_right _ hmem

theorem setUserId_kept_iff (read : ℕ) (hsid : (db.sessions sid).isSome) (o : Outcome) :
    Statement.Kept ⟨.settingUser sid read u, o, db, db.setUserId sid u⟩ ↔
      db.userOf sid = some u := by
  have hself : (db.setUserId sid u).userOf sid = some u := by
    obtain ⟨row, hrow⟩ := Option.isSome_iff_exists.1 hsid
    simp [Db.userOf, Db.setUserId, Db.sessions_updateSession, hrow]
  constructor
  · intro hkept
    exact (hkept.sessions sid).symm.trans hself
  · intro hown
    refine ⟨rfl, rfl, fun other => ?_⟩
    obtain hsame | ⟨rfl, hset⟩ := Db.userOf_setUserId db sid u other
    · exact hsame
    · exact hset.trans hown.symm

/-- `set_user_id` of a login fails: nothing is behind it. -/
theorem Early.login_failed (h : Early ws) (hkind : route.kind ≠ .registration) (o : Outcome)
    {status : StatusCode} :
    Phase.Ledger q route (ws ++ [⟨.settingUser sid read u, o, db, db⟩]) db
      (.returned (.error status)) := by
  have hlate : ¬ Late route (ws ++ [⟨.settingUser sid read u, o, db, db⟩]) := by
    rintro ⟨w, hw, _, ⟨hreg, _⟩ | ⟨sid', read', hphase, _⟩⟩
    · exact hkind hreg
    · obtain hold | hnew := List.mem_append.1 hw
      · have hopen := (h w hold).2
        rw [hphase] at hopen
        cases hopen
      · rw [List.mem_singleton.1 hnew] at hphase
        cases hphase
  refine ⟨fun _ => hlate, fun _ w hw => ?_⟩
  obtain hold | hnew := List.mem_append.1 hw
  · exact (h w hold).1
  · rw [List.mem_singleton.1 hnew]
    exact .same _ _ _

/-- `set_user_id` of a login succeeds: the session changed unless it was the user's. -/
theorem Early.login_set (h : Early ws) (hkind : route.kind ≠ .registration)
    (hsid : (db.sessions sid).isSome) :
    Phase.Ledger q route (ws ++ [⟨.settingUser sid read u, .done, db, db.setUserId sid u⟩])
      (db.setUserId sid u) (.clearing sid read) := by
  have hiff := setUserId_kept_iff (u := u) read hsid .done
  refine ⟨h.unbroken.snoc (by simp), .inr ⟨hkind, ?_⟩⟩
  constructor
  · intro hall w hw u' hphase
    obtain hold | hnew := List.mem_append.1 hw
    · have hopen := (h w hold).2
      rw [hphase] at hopen
      cases hopen
    · have hkept := hall w hw
      rw [List.mem_singleton.1 hnew] at hkept hphase ⊢
      cases hphase
      exact hiff.1 hkept
  · intro hown w hw
    obtain hold | hnew := List.mem_append.1 hw
    · exact (h w hold).1
    · have hbefore := hown w hw u
      rw [List.mem_singleton.1 hnew] at hbefore ⊢
      exact hiff.2 (hbefore rfl)

theorem setUser_ledger (ho : o ≠ .lost)
    (h : Phase.Ledger q route ws db (.settingUser sid read u)) :
    (setUser q o db sid read u).2.1.Ledger q route
      (ws ++ [⟨.settingUser sid read u, o, db, (setUser q o db sid read u).1⟩])
      (setUser q o db sid read u).1 := by
  obtain ⟨hunbroken, hkind, hmem, row, hrow, huser⟩ | ⟨hearly, hkind, hsid⟩ := h
  · have hfk : (db.users.any fun row => row.userId == u) = true :=
      List.any_eq_true.2 ⟨row, hrow, by simp [huser]⟩
    simp only [setUser, hfk, if_true]
    cases o with
    | done =>
        obtain ⟨w, hw, hkept⟩ := hmem
        exact ⟨hunbroken.snoc (by simp), .inl ⟨hkind, w, List.mem_append_left _ hw, hkept⟩⟩
    | rejected => exact Ledger.behind_commit hkind hmem rfl rfl
    | lost => exact absurd rfl ho
  · unfold setUser
    split
    · cases o with
      | done => exact hearly.login_set hkind hsid
      | rejected => exact hearly.login_failed hkind _
      | lost => exact absurd rfl ho
    · exact hearly.login_failed hkind _

/-- The clear of a login fails: what is behind it is its `set_user_id`. -/
theorem login_clear_failed (hunbroken : Unbroken ws) (hkind : route.kind ≠ .registration)
    (hiff : (∀ w ∈ ws, w.Kept) ↔ ∀ w ∈ ws, ∀ u, w.phase = .settingUser sid read u →
      w.before.userOf sid = some u) {status : StatusCode} :
    Phase.Ledger q route (ws ++ [⟨.clearing sid read, .rejected, db, db⟩]) db
      (.returned (.error status)) := by
  constructor
  · rintro hall ⟨w, hw, hrejected, ⟨hreg, _⟩ | ⟨sid', read', hphase, w', hw', u, hset, hne⟩⟩
    · exact hkind hreg
    · obtain hold | hnew := List.mem_append.1 hw
      · have hopen := hunbroken w hold hrejected
        rw [hphase] at hopen
        cases hopen
      · rw [List.mem_singleton.1 hnew] at hphase
        cases hphase
        obtain hold' | hnew' := List.mem_append.1 hw'
        · exact hne (hiff.1 (fun w hw => hall w (List.mem_append_left _ hw)) w' hold' u hset)
        · rw [List.mem_singleton.1 hnew'] at hset
          cases hset
  · intro hlate
    have hown : ∀ w ∈ ws, ∀ u, w.phase = .settingUser sid read u →
        w.before.userOf sid = some u := by
      intro w hw u hset
      by_contra hne
      exact hlate ⟨_, List.mem_append_right _ (List.mem_singleton.2 rfl), rfl,
        .inr ⟨sid, read, rfl, w, List.mem_append_left _ hw, u, hset, hne⟩⟩
    intro w hw
    obtain hold | hnew := List.mem_append.1 hw
    · exact hiff.2 hown w hold
    · rw [List.mem_singleton.1 hnew]
      exact .same _ _ _

theorem clearChallenge_ledger (ho : o ≠ .lost)
    (h : Phase.Ledger q route ws db (.clearing sid read)) :
    (clearChallenge q o db sid read).2.1.Ledger q route
      (ws ++ [⟨.clearing sid read, o, db, (clearChallenge q o db sid read).1⟩])
      (clearChallenge q o db sid read).1 := by
  obtain ⟨hunbroken, ⟨hkind, hmem⟩ | ⟨hkind, hiff⟩⟩ := h
  · cases o with
    | done => trivial
    | rejected => exact Ledger.behind_commit hkind hmem rfl rfl
    | lost => exact absurd rfl ho
  · cases o with
    | done => trivial
    | rejected => exact login_clear_failed hunbroken hkind hiff
    | lost => exact absurd rfl ho

theorem loadSession_ledger (hstart : route.isStart = false) (h : Early ws) (cookie : Option Uuid) :
    (loadSession q route seed o db cookie).1.Ledger q route
      (ws ++ [⟨.loading cookie, o, db, db⟩]) db := by
  have hearly := h.snoc (.same (.loading cookie) o db) rfl
  unfold loadSession
  split
  · split
    · rename_i row hrow
      exact enter_ledger hstart hearly (by rw [hrow]; rfl) _
    · exact hearly
  · exact hearly

theorem createSession_ledger (hstart : route.isStart = false) (ho : o ≠ .lost) (h : Early ws)
    (hp : createSession q route seed fresh o db = some p) :
    p.2.1.Ledger q route (ws ++ [⟨.creating, o, db, p.1⟩]) p.1 := by
  have hkept : Statement.Kept ⟨.creating, o, db, p.1⟩ :=
    (createSession_wrote hp).kept (by simp) (by simp) o
  have hearly := h.snoc hkept rfl
  unfold createSession at hp
  split at hp
  · cases hp
    rw [enter_none hstart] at hearly ⊢
    exact hearly.failed
  · exact absurd rfl ho
  · cases hp
    exact hearly.failed
  · cases hp

/-- What one statement adds to the ledger of its request. -/
theorem advance_ledger (hstart : route.isStart = false) (ho : o ≠ .lost)
    (h : phase.Ledger q route ws db) (hp : advance q route seed fresh o db phase = some p) :
    p.2.1.Ledger q route (ws ++ [⟨phase, o, db, p.1⟩]) p.1 := by
  cases phase with
  | loading cookie => cases hp; exact loadSession_ledger hstart h cookie
  | creating => exact createSession_ledger hstart ho h hp
  | checkingUsername sid => cases h
  | findingUser sid => cases h
  | listing sid user => cases h
  | storing sid c v reply => cases h
  | beginning sid read user k v =>
      cases hp
      exact ledger_writes ho (h.1.snoc (.same _ o db) rfl) fun _ =>
        ⟨h.1.snoc ⟨rfl, rfl, fun _ => rfl⟩ rfl, h.2, _, Db.txOf_begin db q⟩
  | insertingUser sid read user k v => exact createUser_ledger ho h hp
  | insertingCredential sid read user k v => exact createCredential_ledger ho h hp
  | committing sid read user k => cases hp; exact commit_ledger ho h _
  | findingVerified sid read userId result =>
      cases hp
      have hearly := h.1.snoc (.same (.findingVerified sid read userId result) o db) rfl
      exact ledger_reads hearly (verifiedRow_ledger hearly h.2.1 h.2.2 _ _)
  | findingIdentified sid read st userId cid =>
      cases route with
      | discoverableFinish credential =>
          cases hp
          have hearly := h.1.snoc (.same (.findingIdentified sid read st userId cid) o db) rfl
          exact ledger_reads hearly (identifiedRow_ledger hearly h.2.1 h.2.2 _ _ _)
      | _ => cases hp
  | persisting sid read userId pk json =>
      cases hp
      refine ledger_writes ho (h.1.snoc (.same _ o db) rfl) fun _ => .inr ⟨?_, h.2.1, ?_⟩
      · cases json with
        | none => exact h.1.snoc (.same _ o db) rfl
        | some v => exact h.1.snoc ⟨rfl, db.pks_updateCredentialJson pk v, fun _ => rfl⟩ rfl
      · cases json with
        | none => exact h.2.2
        | some v => exact h.2.2
  | settingUser sid read userId => cases hp; exact setUser_ledger ho h
  | clearing sid read => cases hp; exact clearChallenge_ledger ho h
  | returned response => cases hp

/-- What the other requests do leaves the ledger of a request. -/
theorem Phase.Ledger.frame (h : phase.Ledger q route ws db) (htx : db'.txOf q = db.txOf q)
    (husers : ∀ row ∈ db.users, row ∈ db'.users)
    (hsessions : ∀ sid, (db.sessions sid).isSome → (db'.sessions sid).isSome) :
    phase.Ledger q route ws db' := by
  cases phase with
  | insertingUser sid read user k v => exact ⟨h.1, h.2.1, htx ▸ h.2.2⟩
  | insertingCredential sid read user k v => exact ⟨h.1, h.2.1, htx ▸ h.2.2⟩
  | committing sid read user k => exact ⟨h.1, h.2.1, htx ▸ h.2.2⟩
  | findingVerified sid read u result => exact ⟨h.1, h.2.1, hsessions sid h.2.2⟩
  | findingIdentified sid read st u cid => exact ⟨h.1, h.2.1, hsessions sid h.2.2⟩
  | persisting sid read u pk json => exact ⟨h.1, h.2.1, hsessions sid h.2.2⟩
  | settingUser sid read u =>
      obtain ⟨hunbroken, hkind, hmem, row, hrow, huser⟩ | ⟨hearly, hkind, hsid⟩ := h
      · exact .inl ⟨hunbroken, hkind, hmem, row, husers row hrow, huser⟩
      · exact .inr ⟨hearly, hkind, hsessions sid hsid⟩
  | returned response =>
      cases response with
      | error status => exact h
      | ok reply => trivial
  | _ => exact h

/-! ## Runs -/

/-- The ledger of request `q` in a state. -/
structure Books (q : ℕ) (ws : List (Statement W)) (s : State W) : Prop where
  absent : s.requests q = none → ws = []
  ledger : ∀ r, s.requests q = some r → r.route.isStart = false →
    r.phase.Ledger q r.route ws s.db

theorem State.requests_setRequest (s : State W) (q : ℕ) (r : Request W) :
    (s.setRequest q r).requests q = some r :=
  Function.update_self ..

theorem State.requests_after (s : State W) (q : ℕ) (route : Route W) (p : Progress W) :
    (s.after q route p).requests q = some ⟨route, p.2.1⟩ :=
  Function.update_self ..

theorem Books.arrive (h : Books q ws s) {q' : ℕ} (hnone : s.requests q' = none)
    (cookie : Option Uuid) : Books q ws (s.setRequest q' ⟨route, .loading cookie⟩) := by
  by_cases heq : q = q'
  · subst heq
    constructor
    · intro hnew
      rw [State.requests_setRequest] at hnew
      cases hnew
    · intro r hr _
      rw [State.requests_setRequest] at hr
      cases hr
      rw [h.absent hnone]
      exact .nil
  · have hsame : (s.setRequest q' ⟨route, .loading cookie⟩).requests q = s.requests q :=
      Function.update_of_ne heq ..
    exact ⟨fun hnew => h.absent (hsame ▸ hnew), fun r hr => h.ledger r (hsame ▸ hr)⟩

theorem Books.exec_self (h : Books q ws s) {r : Request W} (hr : s.requests q = some r)
    (ho : o ≠ .lost) (hp : advance q r.route seed fresh o s.db r.phase = some p) :
    Books q (ws ++ [⟨r.phase, o, s.db, p.1⟩]) (s.after q r.route p) := by
  constructor
  · intro hnew
    rw [State.requests_after] at hnew
    cases hnew
  · intro r' hr' hstart
    rw [State.requests_after] at hr'
    cases hr'
    exact advance_ledger hstart ho (h.ledger r hr hstart) hp

theorem Books.exec_other (h : Books q ws s) {q' : ℕ} (hne : q ≠ q') {r : Request W}
    (hp : advance q' r.route seed fresh o s.db r.phase = some p) :
    Books q ws (s.after q' r.route p) := by
  have hwrote := advance_wrote hp
  have hsame : (s.after q' r.route p).requests q = s.requests q :=
    Function.update_of_ne hne ..
  constructor
  · intro hnew
    exact h.absent (hsame ▸ hnew)
  · intro r' hr' hstart
    rw [hsame] at hr'
    exact (h.ledger r' hr' hstart).frame (hwrote.extends.txs q hne) hwrote.extends.users
      fun _ => hwrote.sessions

/-- A rollback removes the transaction of a request that has returned. -/
theorem Books.rollback (h : Books q ws s) {q' : ℕ} {response : Except StatusCode (Reply W)}
    (hr : s.requests q' = some ⟨route, .returned response⟩) :
    Books q ws { s with db := s.db.rollback q' } := by
  refine ⟨h.absent, fun r hr' hstart => ?_⟩
  have hledger := h.ledger r hr' hstart
  by_cases heq : q = q'
  · subst heq
    have hsame : s.requests q = some r := hr'
    rw [hr] at hsame
    cases hsame
    cases response with
    | error status => exact hledger
    | ok reply => trivial
  · exact hledger.frame (Db.txOf_rollback_other s.db heq) (fun _ hrow => hrow) fun _ hsid => hsid

theorem statementOf_other {q' : ℕ} (hne : q ≠ q') :
    statementOf q s db (.exec q' seed fresh o) = [] := by
  simp [statementOf, hne.symm]

theorem observe_books {a : Action W} (h : Books q ws s) (hclean : FailsClean q s a)
    {more : List (Statement W)} (hs : observe q s a = some (s', more)) :
    Books q (ws ++ more) s' := by
  obtain ⟨⟨s₁, es⟩, hstep, heq⟩ := Option.map_eq_some_iff.1 hs
  cases heq
  obtain ⟨q', route, cookie, rfl, hnone, rfl, _⟩ | ⟨q', seed, fresh, o, r, p, rfl, hr, hp, rfl, _⟩ |
    ⟨q', route, response, rfl, hr, rfl, _⟩ := step_cases hstep
  · simpa [statementOf] using h.arrive hnone cookie
  · by_cases heq : q = q'
    · subst heq
      have ho : o ≠ .lost := by
        rintro rfl
        exact hclean seed fresh rfl
      have hself := h.exec_self hr ho hp
      rwa [statementOf, if_pos rfl, hr]
    · simpa [statementOf_other heq] using h.exec_other heq hp
  · simpa [statementOf] using h.rollback hr

theorem run_books (h : ObservedRun W q ws s) : Books q ws s := by
  refine h.invariant ⟨fun _ => rfl, fun r hr => ?_⟩ fun _ _ _ _ _ _ hbooks hclean hs =>
    observe_books hbooks hclean hs
  cases hr

/-- A finish request that answers an error left nothing behind, unless the statement
that failed is one of those `Late` names. -/
theorem finish_all_or_nothing (h : ObservedRun W q ws s) {status : StatusCode}
    (hr : s.requests q = some ⟨route, .returned (.error status)⟩)
    (hfinish : route.isStart = false) : (∀ w ∈ ws, w.Kept) ↔ ¬ Late route ws :=
  (run_books h).ledger _ hr hfinish

end Statements

/-! ## Failures of a registration -/

/-- `FailsClean` as a test. -/
def failsClean (q : ℕ) (_ : State W) : Action W → Bool
  | .exec q' _ _ o => !(q' == q && o == .lost)
  | _ => true

theorem failsClean_sound {q : ℕ} {s : State W} {a : Action W} (h : failsClean q s a = true) :
    FailsClean q s a := by
  rintro seed fresh rfl
  simp [failsClean] at h

/-- Request 1 of `registrationActions` up to its statement `n`, which fails. -/
def failingActions (n : ℕ) : List (Action Webauthn.scripted) :=
  registrationActions.take (6 + n) ++ [.exec 1 (0 : ℕ) 0 .rejected]

def Request.isFailedFinish : Request W → Bool
  | ⟨.registerFinish _, .returned (.error _)⟩ => true
  | _ => false

theorem Request.of_isFailedFinish {r : Request W} (h : r.isFailedFinish = true) :
    ∃ credential status, r = ⟨.registerFinish credential, .returned (.error status)⟩ := by
  unfold isFailedFinish at h
  split at h
  · exact ⟨_, _, rfl⟩
  · cases h

/-- A run of the failing request, with the users its statements find and leave. -/
theorem exists_failing (n : ℕ) (p : List (Statement Webauthn.scripted) → Bool)
    (h : ((StepRun.execute (observe 1) (failsClean 1) (failingActions n) State.init).any fun r =>
      (r.1.requests 1).any Request.isFailedFinish && p r.2) = true) :
    ∃ ws s credential status, ObservedRun Webauthn.scripted 1 ws s ∧
      s.requests 1 = some ⟨.registerFinish credential, .returned (.error status)⟩ ∧
      p ws = true := by
  obtain ⟨ws, s, hrun, hp⟩ := StepRun.exists_run (observe 1) (failsClean 1) State.init
    (failingActions n) (fun ws s => (s.requests 1).any Request.isFailedFinish && p ws) h
  rw [Bool.and_eq_true] at hp
  obtain ⟨r, hr, hfailed⟩ := Option.any_eq_true _ _ |>.1 hp.1
  obtain ⟨credential, status, rfl⟩ := Request.of_isFailedFinish hfailed
  exact ⟨ws, s, credential, status, hrun.mono fun _ _ => failsClean_sound, hr, hp.2⟩

/-- The commit fails. -/
theorem finish_all_or_nothing_commit : ∃ ws s credential status,
    ObservedRun Webauthn.scripted 1 ws s ∧
    s.requests 1 = some ⟨.registerFinish credential, .returned (.error status)⟩ ∧
    ((∀ w ∈ ws, w.Kept) ↔ ¬ Late (.registerFinish credential) ws) := by
  obtain ⟨ws, s, credential, status, hrun, hr, _⟩ := exists_failing 4 (fun _ => true) (by decide)
  exact ⟨ws, s, credential, status, hrun, hr, finish_all_or_nothing hrun hr rfl⟩

/-- `set_user_id` fails: the answer is 500, and the user stays. -/
theorem not_finish_all_or_nothing : ∃ ws s credential status,
    ObservedRun Webauthn.scripted 1 ws s ∧
    s.requests 1 = some ⟨.registerFinish credential, .returned (.error status)⟩ ∧
    ∃ w ∈ ws, ¬ w.Kept := by
  obtain ⟨ws, s, credential, status, hrun, hr, hp⟩ := exists_failing 5
    (fun ws => ws.any fun w => w.after.users.length != w.before.users.length) (by decide)
  obtain ⟨w, hw, hlength⟩ := List.any_eq_true.1 hp
  refine ⟨ws, s, credential, status, hrun, hr, w, hw, fun hkept => ?_⟩
  rw [hkept.users, bne_self_eq_false] at hlength
  cases hlength

end Cja.Passkeys
