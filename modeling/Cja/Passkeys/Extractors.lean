import Cja.Passkeys.Login

/-!
# Who a handler sees

`CurrentUser` and `OptionalUser` select the row of the session and then that of its user,
two statements with those of other requests between them. A session without a row, or a
failed `SELECT`, makes a new session, which nobody is logged in on. The extractions run
beside the routes, on the same tables.
-/
namespace Cja.Passkeys
open Jobs (Uuid)

variable {W : Webauthn}

/-- `user::find_by_id` -/
def Db.findById (db : Db W) (userId : Uuid) : Option UserRow :=
  db.users.find? fun row => row.userId == userId

/-- The statement an extraction runs next. From the `SELECT` on it keeps the user column it
was answered. -/
inductive Extraction
  | loading (cookie : Option Uuid)
  | creating
  | finding (sid userId : Uuid)
  | loaded (seen : Option (Uuid × Uuid)) (user : Except StatusCode (Option UserRow))

/-- `load_user_from_session` behind its `SELECT` of the session. -/
def loadedSession (o : Outcome) (db : Db W) (cookie : Option Uuid) : Extraction :=
  match o, cookie with
  | .done, some sid =>
      match db.sessions sid with
      | some row =>
          match row.userId with
          | some userId => .finding sid userId
          | none => .loaded none (.ok none)
      | none => .creating
  | _, _ => .creating

/-- The next statement of an extraction. `fresh` is the id of the session it may create. -/
def Extraction.advance (fresh : Uuid) (o : Outcome) (db : Db W) :
    Extraction → Option (Db W × Extraction)
  | loading cookie => some (db, loadedSession o db cookie)
  | creating =>
      match o, db.sessions fresh with
      | .done, none => some (db.createSession fresh, loaded none (.ok none))
      | .lost, none => some (db.createSession fresh, loaded none (.error .internalServerError))
      | .rejected, _ => some (db, loaded none (.error .internalServerError))
      | _, some _ => none
  | finding sid userId =>
      match o with
      | .done => some (db, loaded (some (sid, userId)) (.ok (db.findById userId)))
      | _ => some (db, loaded (some (sid, userId)) (.error .internalServerError))
  | loaded _ _ => none

/-- `CurrentUser::from_request_parts` -/
def currentUser (user : Except StatusCode (Option UserRow)) : Except StatusCode UserRow :=
  match user with
  | .ok (some user) => .ok user
  | .ok none => .error .unauthorized
  | .error status => .error status

/-- `OptionalUser::from_request_parts` -/
def optionalUser (user : Except StatusCode (Option UserRow)) :
    Except StatusCode (Option UserRow) := user

/-- An extraction with the session id of its cookie. -/
structure Handler where
  cookie : Option Uuid
  extraction : Extraction

structure Site (W : Webauthn) where
  passkeys : State W
  handlers : ℕ → Option Handler

inductive SiteAction (W : Webauthn)
  | route (a : Action W)
  | enter (k : ℕ) (cookie : Option Uuid)
  | exec (k : ℕ) (fresh : Uuid) (o : Outcome)

namespace Site

def setHandler (s : Site W) (k : ℕ) (handler : Handler) : Site W :=
  { s with handlers := Function.update s.handlers k (some handler) }

def setDb (s : Site W) (db : Db W) : Site W :=
  { s with passkeys := { s.passkeys with db := db } }

def init : Site W := ⟨.init, fun _ => none⟩

def step (s : Site W) : SiteAction W → Option (Site W × List (Event W))
  | .route a => (Passkeys.step s.passkeys a).map fun p => ({ s with passkeys := p.1 }, p.2)
  | .enter k cookie =>
      match s.handlers k with
      | none => some (s.setHandler k ⟨cookie, .loading cookie⟩, [])
      | some _ => none
  | .exec k fresh o =>
      (s.handlers k).bind fun handler =>
        (handler.extraction.advance fresh o s.passkeys.db).map fun p =>
          ((s.setDb p.1).setHandler k ⟨handler.cookie, p.2⟩, [])

end Site

abbrev SiteRun (W : Webauthn) : List (Event W) → Site W → Prop :=
  StepRun.Run Site.step StepRun.Free Site.init

/-! ## Users of sessions -/

/-- The user column references `passkey_users`. -/
def Db.UsersExist (db : Db W) : Prop :=
  ∀ sid u, db.userOf sid = some u → ∃ user ∈ db.users, user.userId = u

variable {made : Response W → W.Challenge → CredentialId → Prop}
variable {log es : List (Event W)} {s s' : State W} {db db' : Db W} {sid u fresh : Uuid}

theorem Db.UsersExist.grows (h : db.UsersExist) (hu : ∀ row ∈ db.users, row ∈ db'.users)
    (hs : ∀ sid, db'.userOf sid = db.userOf sid) : db'.UsersExist := by
  intro sid u hsid
  obtain ⟨user, huser, heq⟩ := h sid u (hs sid ▸ hsid)
  exact ⟨user, hu user huser, heq⟩

theorem step_users {a : Action W} (h : s.db.UsersExist) (hs : step s a = some (s', es)) :
    s'.db.UsersExist ∧ ∀ row ∈ s.db.users, row ∈ s'.db.users := by
  obtain ⟨q, route, cookie, rfl, -, rfl, -⟩ | ⟨q, seed, fresh, o, r, p, rfl, hr, hp, rfl, -⟩ |
    ⟨q, route, response, rfl, -, rfl, -⟩ := step_cases hs
  · exact ⟨h, fun _ hrow => hrow⟩
  · have hwrote := advance_wrote hp
    refine ⟨?_, hwrote.extends.users⟩
    intro sid u hsid
    obtain hsame | ⟨read, u', hphase, hes, hset⟩ := hwrote.userOf sid
    · obtain ⟨user, huser, heq⟩ := h sid u (hsame ▸ hsid)
      exact ⟨user, hwrote.extends.users user huser, heq⟩
    · obtain rfl : u' = u := Option.some.inj (hset.symm.trans hsid)
      have hlogin : setUser q o s.db sid read u' = p := by
        rw [hphase] at hp
        exact Option.some.inj hp
      unfold setUser at hlogin
      split at hlogin
      · rename_i hany
        obtain ⟨user, huser, heq⟩ := List.any_eq_true.mp hany
        exact ⟨user, hwrote.extends.users user huser, beq_iff_eq.mp heq⟩
      · rw [← hlogin] at hes
        cases hes
  · exact ⟨h, fun _ hrow => hrow⟩

/-- The session that an extraction creates changes nothing the routes rely on. -/
theorem created_grows (s : State W) (fresh : Uuid) (q : ℕ) :
    Grows q s { s with db := s.db.createSession fresh } :=
  ⟨fun _ _ h => h, .of_tables rfl rfl fun _ _ => rfl⟩

theorem created_inv (hinv : Inv made log s) (hfree : s.db.sessions fresh = none) :
    Inv made log { s with db := s.db.createSession fresh } := by
  constructor
  · exact hinv.consistent.mono fun _ hr => hr
  · intro sid d hd
    have hd : s.db.challengeOf sid = some d := Db.challengeOf_createSession s.db hfree sid ▸ hd
    simpa using (hinv.traced sid d hd).grows (created_grows s fresh 0) []
  · intro sid u hu
    have hu : s.db.userOf sid = some u := Db.userOf_createSession s.db hfree sid ▸ hu
    obtain ⟨q, read, he⟩ := hinv.justified sid u hu
    exact ⟨q, read, by simpa using he.grows (created_grows s fresh 0) []⟩
  · intro q r hr
    simpa using (hinv.phases q r hr).grows (created_grows s fresh 0) rfl []

theorem step_grows {a : Action W} (h : step s a = some (s', es)) : ∃ q, Grows q s s' := by
  obtain ⟨q, route, cookie, rfl, hnone, rfl, -⟩ | ⟨q, seed, fresh, o, r, p, rfl, hr, hp, rfl, -⟩ |
    ⟨q, route, response, rfl, -, rfl, -⟩ := step_cases h
  · refine ⟨q, fun q' route' hroute => ?_, .refl q s.db⟩
    obtain ⟨phase, hphase⟩ := hroute
    have hne : q' ≠ q := by
      rintro rfl
      rw [hnone] at hphase
      cases hphase
    exact ⟨phase, (Function.update_of_ne hne ..).trans hphase⟩
  · exact ⟨q, grows_after ⟨r.phase, hr⟩ (advance_wrote hp).extends⟩
  · exact ⟨q, fun _ _ h => h, .of_tables rfl rfl fun _ => Db.txOf_rollback_other s.db⟩

/-! ## Extractions -/

/-- What holds of an extraction: a user that it was answered is one the session of its
cookie is justified to carry, and its row is there. -/
inductive Handler.Ok (made : Response W → W.Challenge → CredentialId → Prop)
    (log : List (Event W)) (s : State W) : Handler → Prop
  | loading (cookie : Option Uuid) : Handler.Ok made log s ⟨cookie, .loading cookie⟩
  | creating (cookie : Option Uuid) : Handler.Ok made log s ⟨cookie, .creating⟩
  | finding {sid u : Uuid} (hlogin : Justified made log s sid u)
      (huser : ∃ user ∈ s.db.users, user.userId = u) :
      Handler.Ok made log s ⟨some sid, .finding sid u⟩
  | found {sid : Uuid} {user : UserRow} (hlogin : Justified made log s sid user.userId)
      (huser : user ∈ s.db.users) :
      Handler.Ok made log s ⟨some sid, .loaded (some (sid, user.userId)) (.ok (some user))⟩
  | failed (cookie : Option Uuid) (seen : Option (Uuid × Uuid)) :
      Handler.Ok made log s ⟨cookie, .loaded seen (.error .internalServerError)⟩
  | anonymous (cookie : Option Uuid) : Handler.Ok made log s ⟨cookie, .loaded none (.ok none)⟩

theorem Handler.Ok.grows {handler : Handler} {q : ℕ} (h : handler.Ok made log s)
    (hg : Grows q s s') (es : List (Event W)) : handler.Ok made (log ++ es) s' := by
  have hjustified : ∀ sid u, Justified made log s sid u → Justified made (log ++ es) s' sid u := by
    rintro sid u ⟨q', read, he⟩
    exact ⟨q', read, he.grows hg es⟩
  cases h with
  | loading cookie => exact .loading cookie
  | creating cookie => exact .creating cookie
  | finding hlogin huser =>
      obtain ⟨user, huser, heq⟩ := huser
      exact .finding (hjustified _ _ hlogin) ⟨user, hg.db.users user huser, heq⟩
  | found hlogin huser => exact .found (hjustified _ _ hlogin) (hg.db.users _ huser)
  | failed cookie seen => exact .failed cookie seen
  | anonymous cookie => exact .anonymous cookie

theorem Db.findById_found (h : ∃ user ∈ db.users, user.userId = u) :
    ∃ user, db.findById u = some user ∧ user ∈ db.users ∧ user.userId = u := by
  obtain ⟨user, huser, rfl⟩ := h
  cases hfind : db.findById user.userId with
  | none => exact absurd (List.find?_eq_none.mp hfind user huser) (by simp)
  | some row =>
      exact ⟨row, rfl, List.mem_of_find?_eq_some hfind, by simpa using List.find?_some hfind⟩

/-- One statement of an extraction. -/
theorem Handler.Ok.advance {handler : Handler} {extraction : Extraction} {o : Outcome}
    (h : handler.Ok made log s) (hinv : Inv made log s) (husers : s.db.UsersExist)
    (hs : handler.extraction.advance fresh o s.db = some (db, extraction)) :
    (db = s.db ∨ s.db.sessions fresh = none ∧ db = s.db.createSession fresh) ∧
      Handler.Ok made log s ⟨handler.cookie, extraction⟩ := by
  cases h with
  | loading cookie =>
      cases hs
      refine ⟨.inl rfl, ?_⟩
      unfold loadedSession
      split
      · rename_i sid
        cases hrow : s.db.sessions sid with
        | none => exact .creating _
        | some row =>
            cases hu : row.userId with
            | none =>
                simp only [hu]
                exact .anonymous _
            | some u =>
                have huser : s.db.userOf sid = some u := by
                  rw [Db.userOf, hrow, Option.bind_some, hu]
                simp only [hu]
                exact .finding (hinv.justified sid u huser) (husers sid u huser)
      · exact .creating _
  | creating cookie =>
      simp only [Extraction.advance] at hs
      split at hs
      · rename_i hfree
        cases hs
        exact ⟨.inr ⟨hfree, rfl⟩, .anonymous _⟩
      · rename_i hfree
        cases hs
        exact ⟨.inr ⟨hfree, rfl⟩, .failed _ _⟩
      · cases hs
        exact ⟨.inl rfl, .failed _ _⟩
      · cases hs
  | finding hlogin huser =>
      simp only [Extraction.advance] at hs
      split at hs
      · cases hs
        obtain ⟨user, hfind, hmem, rfl⟩ := Db.findById_found huser
        rw [hfind]
        exact ⟨.inl rfl, .found hlogin hmem⟩
      · cases hs
        exact ⟨.inl rfl, .failed _ _⟩
  | found hlogin huser => cases hs
  | failed cookie seen => cases hs
  | anonymous cookie => cases hs

/-! ## Every run of the site -/

structure Site.Inv (made : Response W → W.Challenge → CredentialId → Prop) (log : List (Event W))
    (s : Site W) : Prop where
  passkeys : Passkeys.Inv made log s.passkeys
  users : s.passkeys.db.UsersExist
  handlers : ∀ k handler, s.handlers k = some handler → handler.Ok made log s.passkeys

variable {t t' : Site W}

theorem Site.setHandler_cases {k k' : ℕ} {handler handler' : Handler}
    (h : (t.setHandler k handler).handlers k' = some handler') :
    handler' = handler ∨ t.handlers k' = some handler' := by
  by_cases heq : k' = k
  · have hself : (t.setHandler k handler).handlers k' = some handler := by
      rw [heq]
      exact Function.update_self ..
    rw [hself] at h
    exact .inl (Option.some.inj h).symm
  · have hother : (t.setHandler k handler).handlers k' = t.handlers k' :=
      Function.update_of_ne heq ..
    exact .inr (hother ▸ h)

theorem Site.Inv.step {a : SiteAction W} (hW : W.Codec) (hsound : W.Sound made)
    (h : t.Inv made log) (hs : t.step a = some (t', es)) : t'.Inv made (log ++ es) := by
  cases a with
  | route a =>
      obtain ⟨⟨s', es'⟩, hp, heq⟩ := Option.map_eq_some_iff.1 hs
      cases heq
      obtain ⟨q, hg⟩ := step_grows hp
      exact ⟨step_inv hW hsound h.passkeys hp, (step_users h.users hp).1,
        fun k handler hk => (h.handlers k handler hk).grows hg _⟩
  | enter k cookie =>
      simp only [Site.step] at hs
      split at hs
      · cases hs
        rw [List.append_nil]
        refine ⟨h.passkeys, h.users, fun k' handler hk => ?_⟩
        obtain rfl | hold := Site.setHandler_cases hk
        · exact .loading cookie
        · exact h.handlers k' handler hold
      · cases hs
  | exec k fresh o =>
      obtain ⟨handler, hk, hs⟩ := Option.bind_eq_some_iff.1 hs
      obtain ⟨⟨db, extraction⟩, hp, heq⟩ := Option.map_eq_some_iff.1 hs
      cases heq
      obtain ⟨hdb, hok⟩ := (h.handlers k handler hk).advance h.passkeys h.users hp
      rw [List.append_nil]
      cases hdb with
      | inl hsame =>
          subst hsame
          refine ⟨h.passkeys, h.users, fun k' handler' hk' => ?_⟩
          obtain rfl | hold := Site.setHandler_cases hk'
          · exact hok
          · exact h.handlers k' handler' hold
      | inr hcreated =>
          obtain ⟨hfree, rfl⟩ := hcreated
          have hg : Grows 0 t.passkeys { t.passkeys with db := t.passkeys.db.createSession fresh } :=
            created_grows t.passkeys fresh 0
          refine ⟨created_inv h.passkeys hfree, h.users.grows (fun _ hrow => hrow)
            (Db.userOf_createSession t.passkeys.db hfree), fun k' handler' hk' => ?_⟩
          obtain rfl | hold := Site.setHandler_cases hk'
          · have hgrown := hok.grows hg []
            rwa [List.append_nil] at hgrown
          · have hgrown := (h.handlers k' handler' hold).grows hg []
            rwa [List.append_nil] at hgrown

theorem Site.run_inv (hW : W.Codec) (hsound : W.Sound made) (h : SiteRun W log t) :
    t.Inv made log := by
  refine h.invariant ⟨.init made, ?_, ?_⟩ fun _ _ _ _ _ _ hinv _ hs => hinv.step hW hsound hs
  · intro sid u hu
    cases hu
  · intro k handler hk
    cases hk

/-- The user that `CurrentUser` hands to a handler logged in on the session of its cookie;
and where the session was read with a user, neither extractor answers that there is none. -/
theorem extracted_user (hW : W.Codec) (hsound : W.Sound made) (h : SiteRun W log t) {k : ℕ}
    {cookie : Option Uuid} {seen : Option (Uuid × Uuid)}
    {user : Except StatusCode (Option UserRow)}
    (hk : t.handlers k = some ⟨cookie, .loaded seen user⟩) :
    (∀ row, currentUser user = .ok row → ∃ sid, cookie = some sid ∧
      seen = some (sid, row.userId) ∧ Justified made log t.passkeys sid row.userId ∧
        row ∈ t.passkeys.db.users) ∧
      (seen ≠ none → currentUser user ≠ .error .unauthorized ∧ optionalUser user ≠ .ok none) := by
  have hok := (Site.run_inv hW hsound h).handlers k _ hk
  cases hok with
  | found hlogin huser =>
      refine ⟨?_, fun _ => ⟨by simp [currentUser], by simp [optionalUser]⟩⟩
      rintro row ⟨⟩
      exact ⟨_, rfl, rfl, hlogin, huser⟩
  | failed cookie seen =>
      refine ⟨?_, fun _ => ⟨by simp [currentUser], by simp [optionalUser]⟩⟩
      rintro row ⟨⟩
  | anonymous cookie =>
      refine ⟨?_, fun hseen => absurd rfl hseen⟩
      rintro row ⟨⟩

/-- The user that was found, with the session it was read for. -/
def Extraction.found? : Extraction → Option ((Uuid × Uuid) × UserRow)
  | loaded (some seen) (.ok (some row)) => some (seen, row)
  | _ => none

theorem Extraction.found?_eq_some {e : Extraction} {seen : Uuid × Uuid} {row : UserRow}
    (h : e.found? = some (seen, row)) : e = loaded (some seen) (.ok (some row)) := by
  unfold Extraction.found? at h
  split at h
  · cases h
    rfl
  · cases h

/-- Session 1 registers user 5; a handler with its cookie then sees that user. -/
def siteActions : List (SiteAction Webauthn.scripted) :=
  registrationActions.map .route ++ [.enter 0 (some 1), .exec 0 0 .done, .exec 0 0 .done]

theorem extracted_user_registered : ∃ log t row, SiteRun Webauthn.scripted log t ∧
    t.handlers 0 = some ⟨some 1, .loaded (some (1, 5)) (.ok (some row))⟩ ∧ row.userId = 5 ∧
      Justified Webauthn.scriptedMade log t.passkeys 1 5 := by
  obtain ⟨log, t, hrun, hp⟩ := StepRun.exists_free_run Site.step Site.init siteActions
    (fun _ t => (t.handlers 0).any fun handler => handler.cookie == some 1 &&
      handler.extraction.found?.any fun found => found.1 == (1, 5) && found.2.userId == 5)
    (by decide)
  simp only [Option.any_eq_true, Bool.and_eq_true, beq_iff_eq] at hp
  obtain ⟨⟨cookie, extraction⟩, hk, hcookie, ⟨seen, row⟩, hfound, hseen, hrow⟩ := hp
  obtain rfl : cookie = some 1 := hcookie
  obtain rfl : seen = (1, 5) := hseen
  obtain rfl : extraction = .loaded (some (1, 5)) (.ok (some row)) :=
    Extraction.found?_eq_some hfound
  obtain ⟨sid, hsid, -, hlogin, -⟩ := (extracted_user Webauthn.scripted_codec
    Webauthn.scripted_sound hrun hk).1 row rfl
  cases hsid
  have hfive : row.userId = 5 := hrow
  rw [hfive] at hlogin
  exact ⟨log, t, row, hrun, hk, hfive, hlogin⟩

end Cja.Passkeys
