import Cja.Passkeys.Effects

/-!
# Who a session is logged in as

`Evidence` is what a finish request has behind it before it may set the user of a
session: a challenge that a start request of its kind stored on that session, a
response verified against it, and rows of the database that tie the credential to
the user. The invariant follows it through the phases of every request, and
`set_user_id` turns it into the reason for the user of the session.
-/
namespace Cja.Passkeys
open Jobs (Uuid)

variable {W : Webauthn}

inductive Kind where
  | registration | authentication | discoverable
deriving Repr, DecidableEq

def ChallengeState.kind {R A D : Type} : ChallengeState R A D → Kind
  | .registration .. => .registration
  | .authentication .. => .authentication
  | .discoverableAuthentication _ => .discoverable

def Route.kind : Route W → Kind
  | .registerStart _ | .registerFinish _ => .registration
  | .authStart _ | .authFinish _ => .authentication
  | .discoverableStart | .discoverableFinish _ => .discoverable

def Route.isStart : Route W → Bool
  | .registerStart _ | .authStart _ | .discoverableStart => true
  | .registerFinish _ | .authFinish _ | .discoverableFinish _ => false

/-! ## The library's part -/

/-- Serializing loses nothing, and using a passkey keeps its id. -/
structure Webauthn.Codec (W : Webauthn) : Prop where
  challenge : ∀ c v, W.challengeToValue c = some v → W.challengeFromValue v = some c
  passkey : ∀ p v, W.passkeyToValue p = some v → W.passkeyFromValue v = some p
  updated : ∀ p result p' changed, W.updateCredential p result = some (p', changed) →
    W.credId p' = W.credId p

/-- Verification is sound: what it accepts was `made` for the challenge by the
holder of the credential it reports. -/
structure Webauthn.Sound (W : Webauthn) (made : Response W → W.Challenge → CredentialId → Prop) :
    Prop where
  registration : ∀ credential st p, W.finishPasskeyRegistration credential st = some p →
    ∀ u n d, made (.attestation credential) (.registration st u n d) (W.credId p)
  authentication : ∀ credential st result,
    W.finishPasskeyAuthentication credential st = some result →
    ∀ u, made (.assertion credential) (.authentication st u) (W.resultCredId result)
  discoverable : ∀ credential st keys result,
    W.finishDiscoverableAuthentication credential st keys = some result →
    made (.assertion credential) (.discoverableAuthentication st) (W.resultCredId result)

/-! ## Evidence -/

def State.HasRoute (s : State W) (q : ℕ) (route : Route W) : Prop :=
  ∃ phase, s.requests q = some ⟨route, phase⟩

/-- Request `q` runs the start route of this kind. -/
def State.Started (s : State W) (q : ℕ) (kind : Kind) : Prop :=
  ∃ route, s.HasRoute q route ∧ route.isStart = true ∧ route.kind = kind

/-- The finish request `q` may set the user of session `sid` to `u`, by the
challenge that request `read` stored there. The events stand in this order in the
log, `last` after them. -/
inductive Evidence (made : Response W → W.Challenge → CredentialId → Prop) (log : List (Event W))
    (s : State W) (q : ℕ) (sid : Uuid) (read : ℕ) (u : Uuid) (last : List (Event W)) : Prop
  | registration {credential : W.RegisterPublicKeyCredential} {st : W.PasskeyRegistration}
      {username : String} {displayName : Option String} {p : W.Passkey} :
      s.Started read .registration → s.HasRoute q (.registerFinish credential) →
      W.finishPasskeyRegistration credential st = some p →
      made (.attestation credential) (.registration st u username displayName) (W.credId p) →
      ⟨u, username, displayName⟩ ∈ s.db.users → s.db.Owns u (W.credId p) →
      List.Sublist ([.stored read sid (.registration st u username displayName),
        .verified q sid read (.registration st u username displayName) (.attestation credential),
        .registered q ⟨u, username, displayName⟩ (W.credId p)] ++ last) log →
      Evidence made log s q sid read u last
  | authentication {credential : W.PublicKeyCredential} {st : W.PasskeyAuthentication}
      {result : W.AuthenticationResult} :
      s.Started read .authentication → s.HasRoute q (.authFinish credential) →
      W.finishPasskeyAuthentication credential st = some result →
      made (.assertion credential) (.authentication st u) (W.resultCredId result) →
      s.db.Owns u (W.resultCredId result) →
      List.Sublist ([.stored read sid (.authentication st u),
        .verified q sid read (.authentication st u) (.assertion credential)] ++ last) log →
      Evidence made log s q sid read u last
  | discoverable {credential : W.PublicKeyCredential} {st : W.DiscoverableAuthentication}
      {keys : List W.Passkey} {result : W.AuthenticationResult} {cid : CredentialId} :
      s.Started read .discoverable → s.HasRoute q (.discoverableFinish credential) →
      W.identifyDiscoverableAuthentication credential = some (u, cid) →
      W.finishDiscoverableAuthentication credential st keys = some result →
      made (.assertion credential) (.discoverableAuthentication st) (W.resultCredId result) →
      s.db.Owns u (W.resultCredId result) →
      List.Sublist ([.stored read sid (.discoverableAuthentication st),
        .verified q sid read (.discoverableAuthentication st) (.assertion credential)] ++ last)
        log →
      Evidence made log s q sid read u last

/-- Why session `sid` may carry the user `u`. -/
def Justified (made : Response W → W.Challenge → CredentialId → Prop) (log : List (Event W))
    (s : State W) (sid u : Uuid) : Prop :=
  ∃ q read, Evidence made log s q sid read u [.loggedIn q sid u]

/-- What every step of request `q` keeps of a state. -/
structure Grows (q : ℕ) (s s' : State W) : Prop where
  routes : ∀ q' route, s.HasRoute q' route → s'.HasRoute q' route
  db : s.db.Extends q s'.db

variable {made : Response W → W.Challenge → CredentialId → Prop}
variable {log es last : List (Event W)} {s s' : State W} {q q' read : ℕ} {sid u : Uuid}
variable {route : Route W} {phase : Phase W} {db db' : Db W} {o : Outcome} {seed : W.Seed}
variable {fresh : Uuid} {e : Event W}

theorem Grows.started (h : Grows q s s') {kind : Kind} (hs : s.Started q' kind) :
    s'.Started q' kind := by
  obtain ⟨route, hroute, hstart, hkind⟩ := hs
  exact ⟨route, h.routes _ _ hroute, hstart, hkind⟩

theorem Evidence.grows (h : Evidence made log s q sid read u last) (hg : Grows q' s s')
    (es : List (Event W)) : Evidence made (log ++ es) s' q sid read u last := by
  have hlog : List.Sublist log (log ++ es) := List.sublist_append_left log es
  cases h with
  | registration hs hr hf hm hu ho hsub =>
      exact .registration (hg.started hs) (hg.routes _ _ hr) hf hm (hg.db.users _ hu)
        (hg.db.owns ho) (hsub.trans hlog)
  | authentication hs hr hf hm ho hsub =>
      exact .authentication (hg.started hs) (hg.routes _ _ hr) hf hm (hg.db.owns ho)
        (hsub.trans hlog)
  | discoverable hs hr hi hf hm ho hsub =>
      exact .discoverable (hg.started hs) (hg.routes _ _ hr) hi hf hm (hg.db.owns ho)
        (hsub.trans hlog)

theorem sublist_snoc {l : List (Event W)} (h : l.Sublist log) (e : Event W) :
    (l ++ [e]).Sublist (log ++ [e]) :=
  h.append (List.Sublist.refl [e])

/-- `set_user_id` closes the evidence. -/
theorem Evidence.close (h : Evidence made log s q sid read u []) (e : Event W) :
    Evidence made (log ++ [e]) s q sid read u [e] := by
  cases h with
  | registration hs hr hf hm hu ho hsub =>
      exact .registration hs hr hf hm hu ho (sublist_snoc (by simpa using hsub) e)
  | authentication hs hr hf hm ho hsub =>
      exact .authentication hs hr hf hm ho (sublist_snoc (by simpa using hsub) e)
  | discoverable hs hr hi hf hm ho hsub =>
      exact .discoverable hs hr hi hf hm ho (sublist_snoc (by simpa using hsub) e)

/-! ## Credential rows name their passkeys -/

/-- The credential rows, committed or not. -/
def Db.Row (db : Db W) (row : CredentialRow W) : Prop :=
  row ∈ db.credentials ∨ ∃ tx ∈ db.txs, row ∈ tx.credentials

structure Db.Consistent (db : Db W) : Prop where
  agree : ∀ r r', db.Row r → db.Row r' → r.credentialIdPk = r'.credentialIdPk →
    r.credentialId = r'.credentialId
  named : ∀ r p, db.Row r → W.passkeyFromValue r.credentialJson = some p →
    W.credId p = r.credentialId

theorem Db.Consistent.mono (h : db.Consistent) (hrows : ∀ r, db'.Row r → db.Row r) :
    db'.Consistent :=
  ⟨fun r r' hr hr' => h.agree r r' (hrows r hr) (hrows r' hr'),
    fun r p hr => h.named r p (hrows r hr)⟩

theorem Db.row_begin {r : CredentialRow W} (h : (db.begin q).Row r) : db.Row r := by
  obtain hmem | ⟨tx, htx, hmem⟩ := h
  · exact .inl hmem
  · obtain rfl | htx := List.mem_cons.1 htx
    · cases hmem
    · exact .inr ⟨tx, htx, hmem⟩

theorem Db.row_rollback {r : CredentialRow W} (h : (db.rollback q).Row r) : db.Row r := by
  obtain hmem | ⟨tx, htx, hmem⟩ := h
  · exact .inl hmem
  · exact .inr ⟨tx, List.mem_of_mem_filter htx, hmem⟩

theorem Db.row_commit {r : CredentialRow W} (h : (db.commit q).Row r) : db.Row r := by
  unfold Db.commit at h
  split at h
  · rename_i tx htx
    obtain hmem | hpending := h
    · obtain hmem | hmem := List.mem_append.1 hmem
      · exact .inl hmem
      · exact .inr ⟨tx, List.mem_of_find?_eq_some htx, hmem⟩
    · exact Db.row_rollback (q := q) (.inr hpending)
  · exact h

theorem Db.row_updateTx {f : Tx W → Tx W} {r : CredentialRow W} (h : (db.updateTx q f).Row r) :
    db.Row r ∨ ∃ tx ∈ db.txs, r ∈ (f tx).credentials := by
  obtain hmem | ⟨tx', htx', hmem⟩ := h
  · exact .inl (.inl hmem)
  · obtain ⟨tx, htx, rfl⟩ := List.mem_map.1 htx'
    split at hmem
    · exact .inr ⟨tx, htx, hmem⟩
    · exact .inl (.inr ⟨tx, htx, hmem⟩)

theorem Db.insertCredential_fresh {row r : CredentialRow W} (h : db.insertCredential row = .inserted)
    (hr : db.Row r) : row.credentialIdPk ≠ r.credentialIdPk := by
  unfold Db.insertCredential at h
  split_ifs at h with hcommitted hpending
  simp only [List.any_eq_true, CredentialRow.clashes, not_exists, not_and, Bool.not_eq_true,
    Bool.or_eq_false_iff, beq_eq_false_iff_ne] at hcommitted hpending
  obtain hmem | ⟨tx, htx, hmem⟩ := hr
  · exact (hcommitted r hmem).1
  · exact (hpending tx htx r hmem).1

theorem Db.Consistent.insertCredential (h : db.Consistent) {row : CredentialRow W}
    (hins : db.insertCredential row = .inserted)
    (hnamed : ∀ p, W.passkeyFromValue row.credentialJson = some p → W.credId p = row.credentialId) :
    (db.updateTx q fun tx => { tx with credentials := tx.credentials ++ [row] }).Consistent := by
  have hrows : ∀ r,
      (db.updateTx q fun tx => { tx with credentials := tx.credentials ++ [row] }).Row r →
      db.Row r ∨ r = row := by
    intro r hr
    obtain hold | ⟨tx, htx, hmem⟩ := Db.row_updateTx hr
    · exact .inl hold
    · obtain hmem | hmem := List.mem_append.1 hmem
      · exact .inl (.inr ⟨tx, htx, hmem⟩)
      · exact .inr (List.mem_singleton.1 hmem)
  constructor
  · intro r r' hr hr' hpk
    obtain hold | rfl := hrows r hr
    · obtain hold' | rfl := hrows r' hr'
      · exact h.agree r r' hold hold' hpk
      · exact absurd hpk.symm (Db.insertCredential_fresh hins hold)
    · obtain hold' | rfl := hrows r' hr'
      · exact absurd hpk (Db.insertCredential_fresh hins hold')
      · rfl
  · intro r p hr hp
    obtain hold | rfl := hrows r hr
    · exact h.named r p hold hp
    · exact hnamed p hp

theorem Db.Consistent.updateCredentialJson (hW : W.Codec) (h : db.Consistent) {pk : Uuid}
    {p : W.Passkey} {v : W.Value} (hv : W.passkeyToValue p = some v)
    (hrow : ∃ row ∈ db.credentials, row.credentialIdPk = pk ∧ row.credentialId = W.credId p) :
    (db.updateCredentialJson pk v).Consistent := by
  have hrows : ∀ r, (db.updateCredentialJson pk v).Row r → ∃ r₀, db.Row r₀ ∧
      r.credentialIdPk = r₀.credentialIdPk ∧ r.credentialId = r₀.credentialId ∧
      (r.credentialJson = r₀.credentialJson ∨ r.credentialIdPk = pk ∧ r.credentialJson = v) := by
    intro r hr
    obtain hmem | hpending := hr
    · obtain ⟨r₀, hr₀, rfl⟩ := List.mem_map.1 hmem
      refine ⟨r₀, .inl hr₀, ?_⟩
      split
      · rename_i heq
        exact ⟨rfl, rfl, .inr ⟨heq, rfl⟩⟩
      · exact ⟨rfl, rfl, .inl rfl⟩
    · exact ⟨r, .inr hpending, rfl, rfl, .inl rfl⟩
  constructor
  · intro r r' hr hr' hpk
    obtain ⟨r₀, hr₀, hpk₀, hcid₀, _⟩ := hrows r hr
    obtain ⟨r₁, hr₁, hpk₁, hcid₁, _⟩ := hrows r' hr'
    rw [hcid₀, hcid₁]
    exact h.agree r₀ r₁ hr₀ hr₁ (by rw [← hpk₀, ← hpk₁, hpk])
  · intro r p' hr hp'
    obtain ⟨r₀, hr₀, hpk₀, hcid₀, hjson | ⟨hpk, hjson⟩⟩ := hrows r hr
    · rw [hcid₀]
      exact h.named r₀ p' hr₀ (hjson ▸ hp')
    · obtain ⟨row, hmem, hrowpk, hrowcid⟩ := hrow
      rw [hjson, hW.passkey p v hv] at hp'
      cases hp'
      rw [← hrowcid, hcid₀]
      exact h.agree row r₀ (.inl hmem) hr₀ (by rw [hrowpk, ← hpk, hpk₀])

/-! ## The phases of a request -/

/-- A registration whose response is verified, up to its commit. -/
structure Registering (log : List (Event W)) (s : State W) (q : ℕ) (route : Route W) (sid : Uuid)
    (read : ℕ) (user : UserRow) (p : W.Passkey) : Prop where
  finish : ∃ credential st, route = .registerFinish credential ∧
    W.finishPasskeyRegistration credential st = some p ∧ s.Started read .registration ∧
    List.Sublist
      [.stored read sid (.registration st user.userId user.username user.displayName),
        .verified q sid read (.registration st user.userId user.username user.displayName)
          (.attestation credential)] log

/-- What holds of a request before the statement of its phase. -/
def Phase.Ok (made : Response W → W.Challenge → CredentialId → Prop) (log : List (Event W))
    (s : State W) (q : ℕ) (route : Route W) : Phase W → Prop
  | .listing _ _ => route.isStart = true ∧ route.kind = .authentication
  | .storing _ c v _ =>
      route.isStart = true ∧ route.kind = c.kind ∧ W.challengeToValue c = some v
  | .beginning sid read user p v =>
      Registering log s q route sid read user p ∧ W.passkeyToValue p = some v
  | .insertingUser sid read user p v =>
      Registering log s q route sid read user p ∧ W.passkeyToValue p = some v ∧
        ∃ tx, s.db.txOf q = some tx
  | .insertingCredential sid read user p v =>
      Registering log s q route sid read user p ∧ W.passkeyToValue p = some v ∧
        ∃ tx, s.db.txOf q = some tx ∧ user ∈ tx.users
  | .committing sid read user p =>
      Registering log s q route sid read user p ∧
        ∃ tx, s.db.txOf q = some tx ∧ user ∈ tx.users ∧
          ∃ row ∈ tx.credentials, row.credentialId = W.credId p ∧ row.userId = user.userId
  | .findingVerified sid read u result =>
      ∃ credential st, route = .authFinish credential ∧
        W.finishPasskeyAuthentication credential st = some result ∧
        s.Started read .authentication ∧
        List.Sublist [.stored read sid (.authentication st u),
          .verified q sid read (.authentication st u) (.assertion credential)] log
  | .findingIdentified sid read st u cid =>
      ∃ credential, route = .discoverableFinish credential ∧
        W.identifyDiscoverableAuthentication credential = some (u, cid) ∧
        s.Started read .discoverable ∧ .stored read sid (.discoverableAuthentication st) ∈ log
  | .persisting sid read u pk json =>
      Evidence made log s q sid read u [] ∧ ∀ v, json = some v → ∃ p,
        W.passkeyToValue p = some v ∧
        ∃ row ∈ s.db.credentials, row.credentialIdPk = pk ∧ row.credentialId = W.credId p
  | .settingUser sid read u => Evidence made log s q sid read u []
  | _ => True

theorem Registering.grows {user : UserRow} {p : W.Passkey}
    (h : Registering log s q route sid read user p) (hg : Grows q' s s') (es : List (Event W)) :
    Registering (log ++ es) s' q route sid read user p := by
  obtain ⟨credential, st, hroute, hfinish, hstarted, hsub⟩ := h.finish
  exact ⟨credential, st, hroute, hfinish, hg.started hstarted,
    hsub.trans (List.sublist_append_left log es)⟩

/-- What keeps its transaction keeps what holds of a request. -/
theorem Phase.Ok.grows (h : phase.Ok made log s q route) (hg : Grows q' s s')
    (htx : s'.db.txOf q = s.db.txOf q) (es : List (Event W)) :
    phase.Ok made (log ++ es) s' q route := by
  cases phase with
  | storing sid c v reply => exact h
  | beginning sid read user p v => exact ⟨h.1.grows hg es, h.2⟩
  | insertingUser sid read user p v => exact ⟨h.1.grows hg es, h.2.1, htx ▸ h.2.2⟩
  | insertingCredential sid read user p v => exact ⟨h.1.grows hg es, h.2.1, htx ▸ h.2.2⟩
  | committing sid read user p => exact ⟨h.1.grows hg es, htx ▸ h.2⟩
  | findingVerified sid read u result =>
      obtain ⟨credential, st, hroute, hfinish, hstarted, hsub⟩ := h
      exact ⟨credential, st, hroute, hfinish, hg.started hstarted,
        hsub.trans (List.sublist_append_left log es)⟩
  | findingIdentified sid read st u cid =>
      obtain ⟨credential, hroute, hidentify, hstarted, hmem⟩ := h
      exact ⟨credential, hroute, hidentify, hg.started hstarted, List.mem_append_left es hmem⟩
  | persisting sid read u pk json =>
      refine ⟨h.1.grows hg es, fun v hv => ?_⟩
      obtain ⟨p, hp, row, hmem, hpk, hcid⟩ := h.2 v hv
      obtain ⟨row', hmem', hpk', hcid', _⟩ := hg.db.credentials row hmem
      exact ⟨p, hp, row', hmem', hpk'.trans hpk, hcid'.trans hcid⟩
  | settingUser sid read u => exact Evidence.grows h hg es
  | loading cookie => trivial
  | creating => trivial
  | checkingUsername sid => trivial
  | findingUser sid => trivial
  | listing sid user => exact h
  | clearing sid read => trivial
  | returned response => trivial

/-- The challenge of a session is the JSON of what a start request stored there. -/
def State.Traced (log : List (Event W)) (s : State W) (sid : Uuid) (d : Stored W) : Prop :=
  ∃ c, W.challengeToValue c = some d.value ∧ s.Started d.writer c.kind ∧
    .stored d.writer sid c ∈ log

theorem State.Traced.grows {d : Stored W} (h : s.Traced log sid d) (hg : Grows q s s')
    (es : List (Event W)) : s'.Traced (log ++ es) sid d := by
  obtain ⟨c, hv, hstarted, hmem⟩ := h
  exact ⟨c, hv, hg.started hstarted, List.mem_append_left es hmem⟩

structure Inv (made : Response W → W.Challenge → CredentialId → Prop) (log : List (Event W))
    (s : State W) : Prop where
  consistent : s.db.Consistent
  traced : ∀ sid d, s.db.challengeOf sid = some d → s.Traced log sid d
  justified : ∀ sid u, s.db.userOf sid = some u → Justified made log s sid u
  phases : ∀ q r, s.requests q = some r → r.phase.Ok made log s q r.route

theorem Inv.init (made : Response W → W.Challenge → CredentialId → Prop) :
    Inv made [] (State.init : State W) := by
  have hrow : ∀ r : CredentialRow W, ¬ (Db.empty : Db W).Row r := by
    rintro r (hmem | ⟨tx, htx, _⟩)
    · cases hmem
    · cases htx
  constructor
  · exact ⟨fun r _ hr => absurd hr (hrow r), fun r _ hr => absurd hr (hrow r)⟩
  · intro sid d hd
    cases hd
  · intro sid u hu
    cases hu
  · intro q r hr
    cases hr

/-! ## One statement -/

section Phases

/-- The start routes end in a phase that stores a challenge of their kind. -/
theorem store_ok {c : W.Challenge} {reply : Reply W} (hstart : route.isStart = true)
    (hkind : route.kind = c.kind) :
    (store sid c reply).1.Ok made (log ++ (store sid c reply).2) s q route := by
  unfold store
  split
  · rename_i v hv
    exact ⟨hstart, hkind, hv⟩
  · trivial

theorem startRegistration_ok {body : RegisterStartRequest} (hstart : route.isStart = true)
    (hkind : route.kind = .registration) :
    (startRegistration seed fresh sid body).1.Ok made
      (log ++ (startRegistration seed fresh sid body).2) s q route := by
  unfold startRegistration
  split
  · trivial
  · split
    · trivial
    · exact store_ok hstart hkind

theorem startAuthentication_ok {user : UserRow} {creds : List (CredentialRow W)}
    (hstart : route.isStart = true) (hkind : route.kind = .authentication) :
    (startAuthentication seed sid user creds).1.Ok made
      (log ++ (startAuthentication seed sid user creds).2) s q route := by
  unfold startAuthentication
  split
  · trivial
  · split
    · trivial
    · split
      · trivial
      · exact store_ok hstart hkind

theorem startDiscoverable_ok (hstart : route.isStart = true) (hkind : route.kind = .discoverable) :
    (startDiscoverable seed sid).1.Ok made (log ++ (startDiscoverable seed sid).2) s q route := by
  unfold startDiscoverable
  split
  · trivial
  · exact store_ok hstart hkind

theorem pair_sublist {e : Event W} (h : e ∈ log) (e' : Event W) :
    List.Sublist [e, e'] (log ++ [e']) :=
  sublist_snoc (List.singleton_sublist.2 h) e'

theorem finishRegistration_ok (hW : W.Codec) {credential : W.RegisterPublicKeyCredential}
    {d : Stored W} (ht : s.Traced log sid d) :
    (finishRegistration q sid credential d.writer (W.challengeFromValue d.value)).1.Ok made
      (log ++ (finishRegistration q sid credential d.writer (W.challengeFromValue d.value)).2) s q
      (.registerFinish credential) := by
  obtain ⟨c, hv, hstarted, hmem⟩ := ht
  rw [hW.challenge c d.value hv]
  cases c with
  | registration st u username displayName =>
      unfold finishRegistration
      dsimp only
      split
      · trivial
      · rename_i p hp
        split
        · trivial
        · rename_i json hjson
          exact ⟨⟨credential, st, rfl, hp, hstarted, pair_sublist hmem _⟩, hjson⟩
  | authentication st u => trivial
  | discoverableAuthentication st => trivial

theorem finishAuthentication_ok (hW : W.Codec) {credential : W.PublicKeyCredential}
    {d : Stored W} (ht : s.Traced log sid d) :
    (finishAuthentication q sid credential d.writer (W.challengeFromValue d.value)).1.Ok made
      (log ++ (finishAuthentication q sid credential d.writer (W.challengeFromValue d.value)).2) s q
      (.authFinish credential) := by
  obtain ⟨c, hv, hstarted, hmem⟩ := ht
  rw [hW.challenge c d.value hv]
  cases c with
  | registration st u username displayName => trivial
  | authentication st u =>
      unfold finishAuthentication
      dsimp only
      split
      · trivial
      · rename_i result hresult
        exact ⟨credential, st, rfl, hresult, hstarted, pair_sublist hmem _⟩
  | discoverableAuthentication st => trivial

theorem identifyDiscoverable_ok (hW : W.Codec) {credential : W.PublicKeyCredential}
    {d : Stored W} (ht : s.Traced log sid d) :
    (identifyDiscoverable sid credential d.writer (W.challengeFromValue d.value)).1.Ok made
      (log ++ (identifyDiscoverable sid credential d.writer (W.challengeFromValue d.value)).2) s q
      (.discoverableFinish credential) := by
  obtain ⟨c, hv, hstarted, hmem⟩ := ht
  rw [hW.challenge c d.value hv]
  cases c with
  | registration st u username displayName => trivial
  | authentication st u => trivial
  | discoverableAuthentication st =>
      unfold identifyDiscoverable
      dsimp only
      split
      · trivial
      · rename_i u cid hid
        exact ⟨credential, rfl, hid, hstarted, List.mem_append_left _ hmem⟩

theorem enter_ok (hW : W.Codec) {challengeState : Option (Stored W)}
    (ht : ∀ d, challengeState = some d → s.Traced log sid d) :
    (enter q route seed sid challengeState).1.Ok made
      (log ++ (enter q route seed sid challengeState).2) s q route := by
  cases route with
  | registerStart body =>
      unfold enter
      dsimp only
      split <;> trivial
  | authStart body => trivial
  | discoverableStart => exact startDiscoverable_ok rfl rfl
  | registerFinish credential =>
      cases challengeState with
      | none => trivial
      | some d => exact finishRegistration_ok hW (ht d rfl)
  | authFinish credential =>
      cases challengeState with
      | none => trivial
      | some d => exact finishAuthentication_ok hW (ht d rfl)
  | discoverableFinish credential =>
      cases challengeState with
      | none => trivial
      | some d => exact identifyDiscoverable_ok hW (ht d rfl)

theorem persist_ok (hW : W.Codec) (hcons : s.db.Consistent) {row : CredentialRow W}
    {p : W.Passkey} {result : W.AuthenticationResult} (hrow : row ∈ s.db.credentials)
    (hp : W.passkeyFromValue row.credentialJson = some p)
    (he : W.credId p = W.resultCredId result → Evidence made log s q sid read u []) :
    (persistAuthenticatedCredential sid read u row p result).Ok made log s q route := by
  unfold persistAuthenticatedCredential
  split_ifs with hcid
  · trivial
  · have hcid : W.credId p = W.resultCredId result := not_not.1 hcid
    split
    · rename_i p' hupdate
      split
      · rename_i json hjson
        refine ⟨he hcid, fun v hv => ?_⟩
        cases hv
        refine ⟨p', hjson, row, hrow, rfl, ?_⟩
        rw [hW.updated _ _ _ _ hupdate]
        exact (hcons.named row p (.inl hrow) hp).symm
      · trivial
    · refine ⟨he hcid, fun v hv => ?_⟩
      cases hv
    · trivial

theorem verifiedRow_ok (hW : W.Codec) (hsound : W.Sound made) (hcons : s.db.Consistent)
    {credential : W.PublicKeyCredential} {st : W.PasskeyAuthentication}
    {result : W.AuthenticationResult} (hroute : s.HasRoute q (.authFinish credential))
    (hfinish : W.finishPasskeyAuthentication credential st = some result)
    (hstarted : s.Started read .authentication)
    (hsub : List.Sublist [.stored read sid (.authentication st u),
      .verified q sid read (.authentication st u) (.assertion credential)] log) :
    (verifiedRow sid read u result (s.db.findByCredentialId (W.resultCredId result))).1.Ok made
      (log ++ (verifiedRow sid read u result
        (s.db.findByCredentialId (W.resultCredId result))).2) s q route := by
  unfold verifiedRow
  split
  · trivial
  · rename_i row hfound
    obtain ⟨hfind, huser⟩ := Option.filter_eq_some_iff.1 hfound
    have hmem : row ∈ s.db.credentials := List.mem_of_find?_eq_some hfind
    have hcid : row.credentialId = W.resultCredId result := by
      simpa using List.find?_some hfind
    have howns : s.db.Owns u (W.resultCredId result) := ⟨row, hmem, hcid, by simpa using huser⟩
    split
    · trivial
    · rename_i p hp
      simp only [List.append_nil]
      refine persist_ok hW hcons hmem hp fun _ => ?_
      exact .authentication hstarted hroute hfinish
        (hsound.authentication credential st result hfinish u) howns (by simpa using hsub)

theorem identifiedRow_ok (hW : W.Codec) (hsound : W.Sound made) (hcons : s.db.Consistent)
    {credential : W.PublicKeyCredential} {st : W.DiscoverableAuthentication} {cid : CredentialId}
    (hroute : s.HasRoute q (.discoverableFinish credential))
    (hidentify : W.identifyDiscoverableAuthentication credential = some (u, cid))
    (hstarted : s.Started read .discoverable)
    (hmem : .stored read sid (.discoverableAuthentication st) ∈ log) :
    (identifiedRow q sid credential read st u (s.db.findByCredentialId cid)).1.Ok made
      (log ++ (identifiedRow q sid credential read st u (s.db.findByCredentialId cid)).2)
      s q route := by
  unfold identifiedRow
  split
  · trivial
  · rename_i row hfound
    obtain ⟨hfind, huser⟩ := Option.filter_eq_some_iff.1 hfound
    have hrow : row ∈ s.db.credentials := List.mem_of_find?_eq_some hfind
    split
    · trivial
    · rename_i p hp
      split
      · trivial
      · rename_i result hresult
        refine persist_ok hW hcons hrow hp fun hcid => ?_
        -- the row was looked up by the id in the response, its passkey was verified
        have hnamed : W.credId p = row.credentialId := hcons.named row p (.inl hrow) hp
        have howns : s.db.Owns u (W.resultCredId result) :=
          ⟨row, hrow, by rw [← hnamed, hcid], by simpa using huser⟩
        exact .discoverable hstarted hroute hidentify hresult
          (hsound.discoverable credential st [p] result hresult) howns
          (by simpa using pair_sublist hmem _)

end Phases

/-- The state after a statement of request `q`. -/
def State.after (s : State W) (q : ℕ) (route : Route W) (p : Progress W) : State W :=
  { s with db := p.1 }.setRequest q ⟨route, p.2.1⟩

def OkAfter (made : Response W → W.Challenge → CredentialId → Prop) (log : List (Event W))
    (s : State W) (q : ℕ) (route : Route W) (p : Progress W) : Prop :=
  p.2.1.Ok made (log ++ p.2.2) (s.after q route p) q route

theorem State.hasRoute_after {p : Progress W} (hroute : s.HasRoute q route) {q' : ℕ}
    {route' : Route W} (h : s.HasRoute q' route') : (s.after q route p).HasRoute q' route' := by
  by_cases heq : q' = q
  · subst heq
    obtain ⟨phase, hr⟩ := hroute
    obtain ⟨phase', hr'⟩ := h
    rw [hr] at hr'
    cases hr'
    exact ⟨p.2.1, Function.update_self ..⟩
  · obtain ⟨phase', hr'⟩ := h
    exact ⟨phase', (Function.update_of_ne heq ..).trans hr'⟩

theorem grows_after {p : Progress W} (hroute : s.HasRoute q route)
    (hdb : s.db.Extends q p.1) : Grows q s (s.after q route p) :=
  ⟨fun _ _ => State.hasRoute_after hroute, hdb⟩

theorem OkAfter.returned {response : Except StatusCode (Reply W)} :
    OkAfter made log s q route (db, .returned response, es) :=
  trivial

theorem OkAfter.of_writes {status : StatusCode} {next : Phase W}
    (h : OkAfter made log s q route (db', next, es)) :
    OkAfter made log s q route (writes o db db' status next es) := by
  cases o with
  | done => exact h
  | rejected => exact .returned
  | lost => exact .returned

/-- A phase that holds in the state before, with the database's rows as they are. -/
theorem OkAfter.of_ok {next : Phase W × List (Event W)} (hroute : s.HasRoute q route)
    (hdb : s.db.Extends q db') (htx : db'.txOf q = s.db.txOf q)
    (h : next.1.Ok made (log ++ next.2) s q route) : OkAfter made log s q route (db', next) := by
  have hok := h.grows (grows_after (p := (db', next)) hroute hdb) htx []
  rwa [List.append_nil] at hok

theorem OkAfter.of_reads {next : Phase W × List (Event W)} (hroute : s.HasRoute q route)
    (h : next.1.Ok made (log ++ next.2) s q route) :
    OkAfter made log s q route (reads o s.db next) := by
  cases o with
  | done => exact .of_ok hroute (.refl q s.db) rfl h
  | rejected => exact .returned
  | lost => exact .returned

theorem createUser_ok {p : Progress W} {user : UserRow} {k : W.Passkey} {v : W.Value}
    (hroute : s.HasRoute q route)
    (hok : Phase.Ok made log s q route (.insertingUser sid read user k v))
    (h : createUser q o s.db sid read user k v = some p) : OkAfter made log s q route p := by
  obtain ⟨hreg, hv, tx, htx⟩ := hok
  unfold createUser at h
  cases hins : s.db.insertUser user with
  | inserted =>
      rw [hins] at h
      cases h
      apply OkAfter.of_writes
      refine ⟨hreg.grows (grows_after hroute ?_) [], hv, _, Db.txOf_updateTx_self (fun _ => rfl) htx,
        List.mem_append_right _ (List.mem_singleton.2 rfl)⟩
      exact s.db.extends_updateTx q fun _ => rfl
  | conflict =>
      rw [hins] at h
      cases h
      exact .returned
  | waits =>
      rw [hins] at h
      cases o with
      | rejected => cases h; exact .returned
      | done => cases h
      | lost => cases h

theorem createCredential_ok {p : Progress W} {user : UserRow} {k : W.Passkey} {v : W.Value}
    (hroute : s.HasRoute q route)
    (hok : Phase.Ok made log s q route (.insertingCredential sid read user k v))
    (h : createCredential q o fresh s.db sid read user k v = some p) :
    OkAfter made log s q route p := by
  obtain ⟨hreg, hv, tx, htx, huser⟩ := hok
  unfold createCredential at h
  dsimp only at h
  cases hins : s.db.insertCredential ⟨fresh, user.userId, v, W.credId k⟩ with
  | inserted =>
      rw [hins] at h
      cases h
      apply OkAfter.of_writes
      refine ⟨hreg.grows (grows_after hroute ?_) [], _, Db.txOf_updateTx_self (fun _ => rfl) htx, huser, _,
        List.mem_append_right _ (List.mem_singleton.2 rfl), rfl, rfl⟩
      exact s.db.extends_updateTx q fun _ => rfl
  | conflict =>
      rw [hins] at h
      cases h
      exact .returned
  | waits =>
      rw [hins] at h
      cases o with
      | rejected => cases h; exact .returned
      | done => cases h
      | lost => cases h

theorem Db.commit_of_tx {tx : Tx W} (h : db.txOf q = some tx) :
    (db.commit q).users = db.users ++ tx.users ∧
      (db.commit q).credentials = db.credentials ++ tx.credentials := by
  unfold Db.commit
  rw [h]
  exact ⟨rfl, rfl⟩

/-- The commit of a registration leaves its evidence behind. -/
theorem commit_ok (hsound : W.Sound made) {user : UserRow} {k : W.Passkey}
    (hroute : s.HasRoute q route)
    (hok : Phase.Ok made log s q route (.committing sid read user k)) :
    OkAfter made log s q route (s.db.commit q, .settingUser sid read user.userId,
      [.registered q user (W.credId k)]) := by
  obtain ⟨hreg, tx, htx, huser, row, hrow, hcid, howner⟩ := hok
  obtain ⟨credential, st, rfl, hfinish, hstarted, hsub⟩ := hreg.finish
  obtain ⟨husers, hcreds⟩ := Db.commit_of_tx htx
  have hg := grows_after
    (p := (s.db.commit q, .settingUser sid read user.userId, [.registered q user (W.credId k)]))
    hroute (s.db.extends_commit q)
  have hmem : user ∈ (s.db.commit q).users := husers ▸ List.mem_append_right _ huser
  have howns : (s.db.commit q).Owns user.userId (W.credId k) :=
    ⟨row, hcreds ▸ List.mem_append_right _ hrow, hcid, howner⟩
  exact .registration (hg.started hstarted) (hg.routes _ _ hroute) hfinish
    (hsound.registration credential st k hfinish _ _ _) hmem howns
    (by simpa using sublist_snoc hsub (.registered q user (W.credId k)))

theorem setUser_ok {p : Progress W} (h : setUser q o s.db sid read u = p) :
    OkAfter made log s q route p := by
  subst h
  unfold setUser
  split
  · exact .of_writes trivial
  · exact .returned

theorem clearChallenge_ok {p : Progress W} (h : clearChallenge q o s.db sid read = p) :
    OkAfter made log s q route p := by
  subst h
  cases o with
  | done => exact .returned
  | rejected => exact .returned
  | lost => exact .returned

theorem loadSession_ok (hW : W.Codec) (hinv : Inv made log s) (hroute : s.HasRoute q route)
    (cookie : Option Uuid) :
    OkAfter made log s q route (s.db, loadSession q route seed o s.db cookie) := by
  refine .of_ok hroute (.refl q s.db) rfl ?_
  unfold loadSession
  split
  · rename_i sid
    split
    · rename_i row hrow
      refine enter_ok hW fun d hd => hinv.traced sid d ?_
      rw [Db.challengeOf, hrow]
      exact hd
    · trivial
  · trivial

theorem createSession_ok (hW : W.Codec) {p : Progress W} (hroute : s.HasRoute q route)
    (h : createSession q route seed fresh o s.db = some p) : OkAfter made log s q route p := by
  unfold createSession at h
  split at h
  · rename_i hnone
    cases h
    refine .of_ok hroute (.of_tables rfl rfl fun _ _ => rfl) rfl ?_
    refine enter_ok hW fun d hd => ?_
    cases hd
  · cases h
    exact .returned
  · cases h
    exact .returned
  · cases h

/-- After its statement, what its new phase promises holds of a request. -/
theorem advance_ok (hW : W.Codec) (hsound : W.Sound made) (hinv : Inv made log s) {p : Progress W}
    (hroute : s.HasRoute q route) (hok : phase.Ok made log s q route)
    (h : advance q route seed fresh o s.db phase = some p) : OkAfter made log s q route p := by
  cases phase with
  | loading cookie => cases h; exact loadSession_ok hW hinv hroute cookie
  | creating => exact createSession_ok hW hroute h
  | checkingUsername sid =>
      cases route with
      | registerStart body =>
          cases h
          refine .of_reads hroute ?_
          split
          · trivial
          · exact startRegistration_ok rfl rfl
      | _ => cases h
  | findingUser sid =>
      cases route with
      | authStart body =>
          cases h
          refine .of_reads hroute ?_
          split
          · trivial
          · exact ⟨rfl, rfl⟩
      | _ => cases h
  | listing sid user => cases h; exact .of_reads hroute (startAuthentication_ok hok.1 hok.2)
  | storing sid c v reply => cases h; exact .of_writes .returned
  | beginning sid read user k v =>
      cases h
      apply OkAfter.of_writes
      have hg := grows_after (p := (s.db.begin q, .insertingUser sid read user k v, [])) hroute
        (s.db.extends_begin q)
      exact ⟨hok.1.grows hg [], hok.2, _, Db.txOf_begin s.db q⟩
  | insertingUser sid read user k v => exact createUser_ok hroute hok h
  | insertingCredential sid read user k v => exact createCredential_ok hroute hok h
  | committing sid read user k => cases h; exact .of_writes (commit_ok hsound hroute hok)
  | findingVerified sid read u result =>
      obtain ⟨credential, st, rfl, hfinish, hstarted, hsub⟩ := hok
      cases h
      exact .of_reads hroute
        (verifiedRow_ok hW hsound hinv.consistent hroute hfinish hstarted hsub)
  | findingIdentified sid read st u cid =>
      obtain ⟨credential, rfl, hidentify, hstarted, hmem⟩ := hok
      cases h
      exact .of_reads hroute
        (identifiedRow_ok hW hsound hinv.consistent hroute hidentify hstarted hmem)
  | persisting sid read u pk json =>
      cases h
      apply OkAfter.of_writes
      refine Evidence.grows hok.1 (grows_after (q := q) hroute ?_) []
      cases json with
      | none => exact .refl q s.db
      | some v => exact Db.extends_updateCredentialJson s.db q pk v
  | settingUser sid read u => cases h; exact setUser_ok rfl
  | clearing sid read => cases h; exact clearChallenge_ok rfl
  | returned response => cases h

/-! ## One step -/

theorem wrote_consistent (hW : W.Codec) (hcons : s.db.Consistent)
    (hok : phase.Ok made log s q route) (h : Wrote q fresh s.db phase db' es) :
    db'.Consistent := by
  cases h with
  | nothing _ => exact hcons
  | created _ _ => exact hcons.mono fun _ hr => hr
  | stored => exact hcons.mono fun _ hr => hr
  | began => exact hcons.mono fun _ => Db.row_begin
  | insertedUser _ =>
      refine hcons.mono fun r hr => ?_
      obtain hold | ⟨tx, htx, hmem⟩ := Db.row_updateTx hr
      · exact hold
      · exact .inr ⟨tx, htx, hmem⟩
  | insertedCredential hins =>
      refine hcons.insertCredential hins fun p hp => ?_
      rw [hW.passkey _ _ hok.2.1] at hp
      cases hp
      rfl
  | committed => exact hcons.mono fun _ => Db.row_commit
  | persisted =>
      obtain ⟨p, hp, hrow⟩ := hok.2 _ rfl
      exact hcons.updateCredentialJson hW hp hrow
  | loggedIn => exact hcons.mono fun _ hr => hr
  | cleared => exact hcons.mono fun _ hr => hr
  | finished => exact hcons.mono fun _ hr => hr

theorem exec_inv (hW : W.Codec) (hsound : W.Sound made) (hinv : Inv made log s) {p : Progress W}
    {r : Request W} (hr : s.requests q = some r)
    (h : advance q r.route seed fresh o s.db r.phase = some p) :
    Inv made (log ++ p.2.2) (s.after q r.route p) := by
  have hroute : s.HasRoute q r.route := ⟨r.phase, hr⟩
  have hok : r.phase.Ok made log s q r.route := hinv.phases q r hr
  have hwrote := advance_wrote h
  have hg : Grows q s (s.after q r.route p) := grows_after hroute hwrote.extends
  constructor
  · exact wrote_consistent hW hinv.consistent hok hwrote
  · intro sid d hd
    obtain hsame | ⟨other, c, v, reply, hphase, hes, hdb⟩ | ⟨other, read, _, hdb⟩ :=
      hwrote.challenges
    · exact (hinv.traced sid d ((hsame sid) ▸ hd)).grows hg _
    · have hd : (s.db.setChallengeState other ⟨v, q⟩).challengeOf sid = some d := hdb ▸ hd
      obtain hsame | ⟨rfl, hset⟩ := Db.challengeOf_setChallengeState s.db other ⟨v, q⟩ sid
      · exact (hinv.traced sid d (hsame ▸ hd)).grows hg _
      · obtain rfl : ⟨v, q⟩ = d := Option.some.inj (hset.symm.trans hd)
        rw [hphase] at hok
        obtain ⟨hstart, hkind, hv⟩ := hok
        exact ⟨c, hv, ⟨r.route, hg.routes _ _ hroute, hstart, hkind⟩,
          List.mem_append_right _ (hes ▸ List.mem_singleton.2 rfl)⟩
    · have hd : (s.db.clearChallengeState other).challengeOf sid = some d := hdb ▸ hd
      obtain hsame | ⟨_, hnone⟩ := Db.challengeOf_clearChallengeState s.db other sid
      · exact (hinv.traced sid d (hsame ▸ hd)).grows hg _
      · cases hnone.symm.trans hd
  · intro sid u hu
    obtain hsame | ⟨read, u', hphase, hes, hset⟩ := hwrote.userOf sid
    · obtain ⟨q', read, he⟩ := hinv.justified sid u (hsame ▸ hu)
      exact ⟨q', read, he.grows hg _⟩
    · obtain rfl : u' = u := Option.some.inj (hset.symm.trans hu)
      rw [hphase] at hok
      have he : Evidence made log s q sid read u' [] := hok
      rw [hes]
      have hclosed := (he.close (.loggedIn q sid u')).grows hg []
      rw [List.append_nil] at hclosed
      exact ⟨q, read, hclosed⟩
  · intro q' r' hr'
    by_cases heq : q' = q
    · subst heq
      have hself : (s.after q' r.route p).requests q' = some ⟨r.route, p.2.1⟩ :=
        Function.update_self ..
      rw [hself] at hr'
      cases hr'
      exact advance_ok hW hsound hinv hroute hok h
    · have hother : (s.after q r.route p).requests q' = s.requests q' :=
        Function.update_of_ne heq ..
      exact (hinv.phases q' r' (hother ▸ hr')).grows hg (hg.db.txs q' heq) _

theorem arrive_inv (hinv : Inv made log s) (hnone : s.requests q = none) (cookie : Option Uuid) :
    Inv made log (s.setRequest q ⟨route, .loading cookie⟩) := by
  have hg : Grows q s (s.setRequest q ⟨route, .loading cookie⟩) := by
    refine ⟨fun q' route' hroute => ?_, .refl q s.db⟩
    obtain ⟨phase, hphase⟩ := hroute
    have hne : q' ≠ q := by
      rintro rfl
      rw [hnone] at hphase
      cases hphase
    exact ⟨phase, (Function.update_of_ne hne ..).trans hphase⟩
  constructor
  · exact hinv.consistent
  · intro sid d hd
    simpa using (hinv.traced sid d hd).grows hg []
  · intro sid u hu
    obtain ⟨q', read, he⟩ := hinv.justified sid u hu
    exact ⟨q', read, by simpa using he.grows hg []⟩
  · intro q' r' hr'
    by_cases heq : q' = q
    · subst heq
      have hself : (s.setRequest q' ⟨route, .loading cookie⟩).requests q' =
          some ⟨route, .loading cookie⟩ := Function.update_self ..
      rw [hself] at hr'
      cases hr'
      trivial
    · have hother : (s.setRequest q ⟨route, .loading cookie⟩).requests q' = s.requests q' :=
        Function.update_of_ne heq ..
      simpa using (hinv.phases q' r' (hother ▸ hr')).grows hg rfl []

theorem rollback_inv (hinv : Inv made log s) {response : Except StatusCode (Reply W)}
    (hr : s.requests q = some ⟨route, .returned response⟩) :
    Inv made log { s with db := s.db.rollback q } := by
  have hg : Grows q s { s with db := s.db.rollback q } :=
    ⟨fun _ _ h => h, .of_tables rfl rfl fun _ => Db.txOf_rollback_other s.db⟩
  constructor
  · exact hinv.consistent.mono fun _ => Db.row_rollback
  · intro sid d hd
    simpa using (hinv.traced sid d hd).grows hg []
  · intro sid u hu
    obtain ⟨q', read, he⟩ := hinv.justified sid u hu
    exact ⟨q', read, by simpa using he.grows hg []⟩
  · intro q' r' hr'
    by_cases heq : q' = q
    · subst heq
      have hsame : s.requests q' = some r' := hr'
      rw [hr] at hsame
      cases hsame
      trivial
    · simpa using (hinv.phases q' r' hr').grows hg (Db.txOf_rollback_other s.db heq) []

/-- What each action can do. -/
theorem step_cases {a : Action W} (h : step s a = some (s', es)) :
    (∃ q route cookie, a = .arrive q route cookie ∧ s.requests q = none ∧
      s' = s.setRequest q ⟨route, .loading cookie⟩ ∧ es = []) ∨
    (∃ q seed fresh o r p, a = .exec q seed fresh o ∧ s.requests q = some r ∧
      advance q r.route seed fresh o s.db r.phase = some p ∧ s' = s.after q r.route p ∧
      es = p.2.2) ∨
    (∃ q route response, a = .rollback q ∧ s.requests q = some ⟨route, .returned response⟩ ∧
      s' = { s with db := s.db.rollback q } ∧ es = []) := by
  cases a with
  | arrive q route cookie =>
      simp only [step] at h
      split at h
      · rename_i hnone
        cases h
        exact .inl ⟨q, route, cookie, rfl, hnone, rfl, rfl⟩
      · cases h
  | exec q seed fresh o =>
      simp only [step] at h
      split at h
      · rename_i r hr
        obtain ⟨p, hp, heq⟩ := Option.map_eq_some_iff.1 h
        cases heq
        exact .inr (.inl ⟨q, seed, fresh, o, r, p, rfl, hr, hp, rfl, rfl⟩)
      · cases h
  | rollback q =>
      simp only [step] at h
      split at h
      · rename_i route response hr
        cases h
        exact .inr (.inr ⟨q, route, response, rfl, hr, rfl, rfl⟩)
      · cases h

theorem step_inv (hW : W.Codec) (hsound : W.Sound made) (hinv : Inv made log s) {a : Action W}
    (h : step s a = some (s', es)) : Inv made (log ++ es) s' := by
  obtain ⟨q, route, cookie, rfl, hnone, rfl, rfl⟩ | ⟨q, seed, fresh, o, r, p, rfl, hr, hp, rfl, rfl⟩ |
    ⟨q, route, response, rfl, hr, rfl, rfl⟩ := step_cases h
  · rw [List.append_nil]
    exact arrive_inv hinv hnone cookie
  · exact exec_inv hW hsound hinv hr hp
  · rw [List.append_nil]
    exact rollback_inv hinv hr

theorem run_inv (hW : W.Codec) (hsound : W.Sound made) (h : PasskeyRun W log s) :
    Inv made log s :=
  h.invariant (Inv.init made) fun _ _ _ _ _ _ hinv _ hs => step_inv hW hsound hinv hs

/-- A start route never runs `set_user_id`. -/
theorem Phase.Ok.not_settingUser (h : Phase.Ok made log s q route (.settingUser sid read u))
    (huniq : ∀ route', s.HasRoute q route' → route' = route) : route.isStart = false := by
  cases h with
  | registration _ hr _ _ _ _ _ => rw [← huniq _ hr]; rfl
  | authentication _ hr _ _ _ _ => rw [← huniq _ hr]; rfl
  | discoverable _ hr _ _ _ _ _ => rw [← huniq _ hr]; rfl

theorem State.HasRoute.unique {r : Request W} (hr : s.requests q = some r) {route' : Route W}
    (h : s.HasRoute q route') : route' = r.route := by
  obtain ⟨phase, hphase⟩ := h
  rw [hr] at hphase
  cases hphase
  rfl

/-- The user of a session got there by a finish request that verified a response
of its holder against a challenge which a start request of the same kind had
stored on that very session; a step of a start request changes no session's user. -/
theorem login_sound (hW : W.Codec) (hsound : W.Sound made) (h : PasskeyRun W log s) :
    (∀ sid u, s.db.userOf sid = some u → Justified made log s sid u) ∧
    ∀ q r seed fresh o s' es, s.requests q = some r → r.route.isStart = true →
      step s (.exec q seed fresh o) = some (s', es) →
      ∀ sid, s'.db.userOf sid = s.db.userOf sid := by
  have hinv := run_inv hW hsound h
  refine ⟨hinv.justified, fun q r seed fresh o s' es hr hstart hs sid => ?_⟩
  obtain ⟨_, _, _, ha, _⟩ | ⟨_, _, _, _, r', p, ha, hr', hp, rfl, _⟩ | ⟨_, _, _, ha, _⟩ := step_cases hs
  · cases ha
  · cases ha
    rw [hr] at hr'
    cases hr'
    obtain hsame | ⟨read, u, hphase, _⟩ := (advance_wrote hp).userOf sid
    · exact hsame
    · have hok := hinv.phases q r hr
      rw [hphase] at hok
      have hfinish := hok.not_settingUser fun _ => State.HasRoute.unique hr
      rw [hstart] at hfinish
      cases hfinish
  · cases ha

/-! ## An instance -/

/-- A library whose challenges are its seeds and whose keys are numbers: a
response names the challenge and the key, an assertion also the user handle. -/
def Webauthn.scripted : Webauthn where
  Seed := ℕ
  Value := ChallengeState ℕ (ℕ × List ℕ) ℕ ⊕ ℕ
  Passkey := ℕ
  PasskeyRegistration := ℕ
  PasskeyAuthentication := ℕ × List ℕ
  DiscoverableAuthentication := ℕ
  RegisterPublicKeyCredential := ℕ × ℕ
  PublicKeyCredential := ℕ × ℕ × ℕ
  AuthenticationResult := ℕ
  CreationChallengeResponse := ℕ
  RequestChallengeResponse := ℕ
  credId := fun key => [UInt8.ofNat key]
  resultCredId := fun key => [UInt8.ofNat key]
  startPasskeyRegistration := fun seed _ _ _ => some (seed, seed)
  setResidentKey := fun _ challenge => some challenge
  finishPasskeyRegistration := fun r st => if r.1 = st then some r.2 else none
  startPasskeyAuthentication := fun seed keys => some (seed, seed, keys)
  finishPasskeyAuthentication := fun r st =>
    if r.1 = st.1 ∧ r.2.1 ∈ st.2 then some r.2.1 else none
  startDiscoverableAuthentication := fun seed => some (seed, seed)
  identifyDiscoverableAuthentication := fun r => some (r.2.2, [UInt8.ofNat r.2.1])
  finishDiscoverableAuthentication := fun r st keys =>
    if r.1 = st ∧ r.2.1 ∈ keys then some r.2.1 else none
  updateCredential := fun p result => if p = result then some (p, false) else none
  challengeToValue := fun c => some (.inl c)
  challengeFromValue := Sum.getLeft?
  passkeyToValue := fun p => some (.inr p)
  passkeyFromValue := Sum.getRight?

theorem Webauthn.scripted_codec : Webauthn.scripted.Codec where
  challenge := by
    intro c v hv
    cases hv
    rfl
  passkey := by
    intro p v hv
    cases hv
    rfl
  updated := by
    intro p result p' changed h
    simp only [scripted] at h
    split_ifs at h
    cases h
    rfl

/-- Response and challenge name the same nonce, and the response names the key. -/
def Webauthn.scriptedMade : Response Webauthn.scripted → Webauthn.scripted.Challenge →
    CredentialId → Prop
  | .attestation (nonce, key), .registration (st : ℕ) _ _ _, cid =>
      nonce = st ∧ cid = [UInt8.ofNat key]
  | .assertion (nonce, key, _), .authentication (st : ℕ × List ℕ) _, cid =>
      nonce = st.1 ∧ cid = [UInt8.ofNat key]
  | .assertion (nonce, key, _), .discoverableAuthentication (st : ℕ), cid =>
      nonce = st ∧ cid = [UInt8.ofNat key]
  | _, _, _ => False

theorem Webauthn.scripted_sound : Webauthn.scripted.Sound scriptedMade where
  registration := by
    rintro ⟨nonce, key⟩ st p h u n d
    simp only [scripted] at h
    split_ifs at h with heq
    cases h
    exact ⟨heq, rfl⟩
  authentication := by
    rintro ⟨nonce, key, handle⟩ st result h u
    simp only [scripted] at h
    split_ifs at h with heq
    cases h
    exact ⟨heq.1, rfl⟩
  discoverable := by
    rintro ⟨nonce, key, handle⟩ st keys result h
    simp only [scripted] at h
    split_ifs at h with heq
    cases h
    exact ⟨heq.1, rfl⟩

/-- Session 1 registers user 5 with key 7, by the requests 0 and 1. -/
def registrationActions : List (Action Webauthn.scripted) :=
  [.arrive 0 (.registerStart ⟨"alice", none⟩) none, .exec 0 (0 : ℕ) 0 .done,
    .exec 0 (0 : ℕ) 1 .done, .exec 0 (9 : ℕ) 5 .done, .exec 0 (0 : ℕ) 0 .done,
    .arrive 1 (.registerFinish ((9, 7) : ℕ × ℕ)) (some 1), .exec 1 (0 : ℕ) 0 .done,
    .exec 1 (0 : ℕ) 0 .done, .exec 1 (0 : ℕ) 0 .done, .exec 1 (0 : ℕ) 20 .done,
    .exec 1 (0 : ℕ) 0 .done, .exec 1 (0 : ℕ) 0 .done, .exec 1 (0 : ℕ) 0 .done]

theorem login_sound_scripted : ∃ log s, PasskeyRun Webauthn.scripted log s ∧
    s.db.userOf 1 = some 5 ∧ Justified Webauthn.scriptedMade log s 1 5 := by
  obtain ⟨log, s, hrun, hp⟩ := StepRun.exists_free_run step State.init registrationActions
    (fun _ s => s.db.userOf 1 == some 5) (by decide)
  have hu : s.db.userOf 1 = some 5 := by simpa using hp
  exact ⟨log, s, hrun, hu,
    (login_sound Webauthn.scripted_codec Webauthn.scripted_sound hrun).1 1 5 hu⟩

end Cja.Passkeys
