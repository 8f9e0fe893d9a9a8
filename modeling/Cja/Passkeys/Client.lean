import Cja.Lib.Base64
import Cja.Lib.Text

/-!
# The passkey client in the browser

`frontend/src` turns the options of the server, where bytes are base64url text, into what
`navigator.credentials` takes, and the credential back into what the server reads. `btoa`
and `atob` are the browser's: padded base64, and its forgiving decoder.
-/
namespace Cja.Passkeys.Client

open Base64

abbrev Buffer := List UInt8

/-! ## Text and bytes -/

/-- What brings a length to a multiple of four. -/
def padding (length : ℕ) : Text := List.replicate ((4 - length % 4) % 4) '='

def btoa (binary : Buffer) : Text :=
  let text := (encode binary).map standard.char
  text ++ padding text.length

def isAsciiWhitespace (c : Char) : Bool :=
  c == '\t' || c == '\n' || c == '\x0c' || c == '\r' || c == ' '

/-- One or two `=` at the end. -/
def dropPadding (text : Text) : Text :=
  match text.reverse with
  | '=' :: '=' :: rest => rest.reverse
  | '=' :: rest => rest.reverse
  | _ => text

/-- `none` is the exception of a text that is not base64. -/
def atob (data : Text) : Option Buffer :=
  let text := data.filter fun c => !isAsciiWhitespace c
  let text := if text.length % 4 = 0 then dropPadding text else text
  (standard.digits text).bind decode

/-- The replacements of `base64urlToBuffer`. -/
def fromUrl (c : Char) : Char :=
  let c := if c = '-' then '+' else c
  if c = '_' then '/' else c

/-- The replacements of `bufferToBase64url`. -/
def toUrl (c : Char) : Char :=
  let c := if c = '+' then '-' else c
  if c = '/' then '_' else c

def base64urlToBuffer (b64url : Text) : Option Buffer :=
  let s := b64url.map fromUrl
  atob (s ++ padding s.length)

def bufferToBase64url (buffer : Buffer) : Text :=
  ((btoa buffer).map toUrl).rdropWhile fun c => c = '='

theorem fromUrl_char (d : Digit) : fromUrl (urlSafe.char d) = standard.char d := by
  revert d
  decide +kernel

theorem toUrl_char (d : Digit) : toUrl (standard.char d) = urlSafe.char d := by
  revert d
  decide +kernel

theorem standard_char_plain (d : Digit) :
    standard.char d ≠ '=' ∧ isAsciiWhitespace (standard.char d) = false := by
  revert d
  decide +kernel

theorem standard_digit_pad : standard.digit '=' = none := by decide +kernel

theorem urlSafe_char_ne (d : Digit) : urlSafe.char d ≠ '=' := by
  revert d
  decide +kernel

theorem rdropWhile_replicate {s : Text} (hs : '=' ∉ s) (n : ℕ) :
    (s ++ List.replicate n '=').rdropWhile (fun c => c = '=') = s := by
  induction n with
  | zero =>
      rw [List.replicate_zero, List.append_nil, List.rdropWhile_eq_self_iff]
      intro hne hlast
      rw [decide_eq_true_eq] at hlast
      exact hs (hlast ▸ List.getLast_mem hne)
  | succ n ih =>
      rw [List.replicate_succ', ← List.append_assoc, List.rdropWhile_concat_pos _ _ _ (by simp), ih]

theorem head_reverse_ne {s rest : Text} {c : Char} (hs : '=' ∉ s) (h : s.reverse = c :: rest) :
    c ≠ '=' := by
  rintro rfl
  have hmem : '=' ∈ s.reverse := h ▸ List.mem_cons_self ..
  exact hs (List.mem_reverse.mp hmem)

theorem dropPadding_none {s : Text} (hs : '=' ∉ s) : dropPadding s = s := by
  unfold dropPadding
  split
  · rename_i h
    exact absurd rfl (head_reverse_ne hs h)
  · rename_i h
    exact absurd rfl (head_reverse_ne hs h)
  · rfl

theorem dropPadding_one {s : Text} (hs : '=' ∉ s) : dropPadding (s ++ ['=']) = s := by
  unfold dropPadding
  rw [List.reverse_append, List.reverse_singleton, List.singleton_append]
  cases hr : s.reverse with
  | nil =>
      rw [List.reverse_eq_nil_iff.mp hr]
      rfl
  | cons c rest =>
      have hc := head_reverse_ne hs hr
      split
      · rename_i h
        injection h with _ h
        injection h with h _
        exact absurd h hc
      · rename_i h
        injection h with _ h
        rw [← h, ← hr, List.reverse_reverse]
      · rename_i h
        exact absurd rfl (h _)

theorem dropPadding_two (s : Text) : dropPadding (s ++ ['=', '=']) = s := by
  simp [dropPadding]

/-- What the client writes are the digits of the bytes, without padding. -/
theorem bufferToBase64url_eq (buffer : Buffer) :
    bufferToBase64url buffer = (encode buffer).map urlSafe.char := by
  have htext : ((encode buffer).map standard.char).map toUrl = (encode buffer).map urlSafe.char := by
    rw [List.map_map]
    exact List.map_congr_left fun d _ => toUrl_char d
  have hplain : '=' ∉ (encode buffer).map urlSafe.char := by
    rw [List.mem_map]
    rintro ⟨d, -, hd⟩
    exact urlSafe_char_ne d hd
  unfold bufferToBase64url btoa padding
  simp only [List.map_append, htext, List.map_replicate, show toUrl '=' = '=' from rfl]
  exact rdropWhile_replicate hplain _

/-- Base64url text of any digits is read as their bytes; one digit too many is refused. -/
theorem base64urlToBuffer_digits (ds : List Digit) :
    base64urlToBuffer (ds.map urlSafe.char) = decode ds := by
  have htext : (ds.map urlSafe.char).map fromUrl = ds.map standard.char := by
    rw [List.map_map]
    exact List.map_congr_left fun d _ => fromUrl_char d
  have hplain : '=' ∉ ds.map standard.char := by
    rw [List.mem_map]
    rintro ⟨d, -, hd⟩
    exact (standard_char_plain d).1 hd
  have hfilter : (ds.map standard.char ++ padding ds.length).filter
      (fun c => !isAsciiWhitespace c) = ds.map standard.char ++ padding ds.length := by
    rw [List.filter_eq_self]
    intro c hc
    rcases List.mem_append.mp hc with hc | hc
    · obtain ⟨d, -, rfl⟩ := List.mem_map.mp hc
      simp [(standard_char_plain d).2]
    · rw [(List.mem_replicate.mp hc).2]
      rfl
  have hfull : (ds.map standard.char ++ padding ds.length).length % 4 = 0 := by
    rw [List.length_append, List.length_map, padding, List.length_replicate]
    omega
  unfold base64urlToBuffer atob
  simp only [htext, List.length_map, hfilter]
  rw [if_pos hfull]
  have hk : ds.length % 4 = 0 ∨ ds.length % 4 = 1 ∨ ds.length % 4 = 2 ∨ ds.length % 4 = 3 := by
    omega
  rcases hk with hk | hk | hk | hk
  · rw [padding, hk, show (4 - 0) % 4 = 0 from rfl, List.replicate_zero, List.append_nil,
      dropPadding_none hplain, Alphabet.digits_map, Option.bind_some]
  · have hrefused : decode ds = none := by
      rw [← Option.not_isSome_iff_eq_none, decode_isSome_iff]
      omega
    have hthree : ds.map standard.char ++ padding ds.length =
        (ds.map standard.char ++ ['=']) ++ ['=', '='] := by
      simp [padding, hk]
    have hspoilt : standard.digits (ds.map standard.char ++ ['=']) = none :=
      Alphabet.digits_eq_none standard (by simp) standard_digit_pad
    rw [hthree, dropPadding_two, hspoilt, hrefused, Option.bind_none]
  · rw [padding, hk, show List.replicate ((4 - 2) % 4) '=' = ['=', '='] from rfl, dropPadding_two,
      Alphabet.digits_map, Option.bind_some]
  · rw [padding, hk, show List.replicate ((4 - 3) % 4) '=' = ['='] from rfl,
      dropPadding_one hplain, Alphabet.digits_map, Option.bind_some]

theorem base64urlToBuffer_bufferToBase64url (buffer : Buffer) :
    base64urlToBuffer (bufferToBase64url buffer) = some buffer := by
  rw [bufferToBase64url_eq, base64urlToBuffer_digits, decode_encode]

/-! ## Options and responses -/

/-- `B` is text on the wire and bytes in the browser; `Rest` holds the members that are
only copied. -/
structure Descriptor (B : Type) where
  id : B
  type : String
  transports : Option (List String)
deriving Repr, DecidableEq

structure User (B : Type) where
  id : B
  name : String
  displayName : String
deriving Repr, DecidableEq

structure CreationOptions (Rest B : Type) where
  challenge : B
  user : User B
  excludeCredentials : Option (List (Descriptor B))
  rest : Rest
deriving Repr, DecidableEq

structure RequestOptions (Rest B : Type) where
  challenge : B
  allowCredentials : Option (List (Descriptor B))
  rest : Rest
deriving Repr, DecidableEq

structure CreationResponse (Extensions B : Type) where
  id : String
  rawId : B
  type : String
  clientDataJson : B
  attestationObject : B
  transports : Option (List String)
  extensions : Extensions
deriving Repr, DecidableEq

structure AssertionResponse (Extensions B : Type) where
  id : String
  rawId : B
  type : String
  authenticatorData : B
  clientDataJson : B
  signature : B
  userHandle : Option B
  extensions : Extensions
deriving Repr, DecidableEq

variable {A B Rest : Type}

def Descriptor.map (f : A → B) (d : Descriptor A) : Descriptor B := ⟨f d.id, d.type, d.transports⟩

def CreationOptions.map (f : A → B) (o : CreationOptions Rest A) : CreationOptions Rest B where
  challenge := f o.challenge
  user := ⟨f o.user.id, o.user.name, o.user.displayName⟩
  excludeCredentials := o.excludeCredentials.map (List.map (Descriptor.map f))
  rest := o.rest

def RequestOptions.map (f : A → B) (o : RequestOptions Rest A) : RequestOptions Rest B where
  challenge := f o.challenge
  allowCredentials := o.allowCredentials.map (List.map (Descriptor.map f))
  rest := o.rest

def CreationResponse.map (f : A → B) (r : CreationResponse Rest A) : CreationResponse Rest B where
  id := r.id
  rawId := f r.rawId
  type := r.type
  clientDataJson := f r.clientDataJson
  attestationObject := f r.attestationObject
  transports := r.transports
  extensions := r.extensions

def AssertionResponse.map (f : A → B) (r : AssertionResponse Rest A) : AssertionResponse Rest B where
  id := r.id
  rawId := f r.rawId
  type := r.type
  authenticatorData := f r.authenticatorData
  clientDataJson := f r.clientDataJson
  signature := f r.signature
  userHandle := r.userHandle.map f
  extensions := r.extensions

/-- The descriptors of a list, each with its id decoded. -/
def decodeDescriptors : List (Descriptor Text) → Option (List (Descriptor Buffer))
  | [] => some []
  | c :: cs =>
      (base64urlToBuffer c.id).bind fun id =>
        (decodeDescriptors cs).map (⟨id, c.type, c.transports⟩ :: ·)

/-- A member that need not be there. -/
def decodeOptional (credentials : Option (List (Descriptor Text))) :
    Option (Option (List (Descriptor Buffer))) :=
  match credentials with
  | none => some none
  | some cs => (decodeDescriptors cs).map some

def prepareCreationOptions (pk : CreationOptions Rest Text) :
    Option (CreationOptions Rest Buffer) :=
  (base64urlToBuffer pk.challenge).bind fun challenge =>
    (base64urlToBuffer pk.user.id).bind fun id =>
      (decodeOptional pk.excludeCredentials).map fun excluded =>
        ⟨challenge, ⟨id, pk.user.name, pk.user.displayName⟩, excluded, pk.rest⟩

def prepareAssertionOptions (pk : RequestOptions Rest Text) :
    Option (RequestOptions Rest Buffer) :=
  (base64urlToBuffer pk.challenge).bind fun challenge =>
    (decodeOptional pk.allowCredentials).map fun allowed => ⟨challenge, allowed, pk.rest⟩

/-- Every `ArrayBuffer` of the credential becomes text. -/
def prepareCreationResponse (r : CreationResponse Rest Buffer) : CreationResponse Rest Text :=
  r.map bufferToBase64url

def prepareAssertionResponse (r : AssertionResponse Rest Buffer) : AssertionResponse Rest Text :=
  r.map bufferToBase64url

/-! ## The ceremonies -/

inductive Thrown
  | error (message : String)
  /-- `atob` was given a text that is not base64. -/
  | invalidCharacter
  /-- The body of a response is not JSON. -/
  | syntaxError
  /-- The `fetch` or the authenticator rejected. -/
  | rejected
deriving Repr, DecidableEq

/-- What a `fetch` resolves to; `json` is `none` where the body is not JSON. -/
structure Response (J : Type) where
  status : ℕ
  json : Option J
deriving Repr, DecidableEq

def Response.ok {J : Type} (r : Response J) : Bool := 200 ≤ r.status && r.status ≤ 299

/-- What the client calls: the start request, the authenticator and the finish request. -/
structure Browser (Options Asked Credential Body J : Type) where
  start : Except Thrown (Response Options)
  credential : Asked → Except Thrown (Option Credential)
  finish : Body → Except Thrown (Response J)

variable {Options Asked Credential Body J : Type}

/-- What a ceremony posts to its finish path, where it gets that far. -/
def finishBody (startName nullName : String) (prepareOptions : Options → Option Asked)
    (prepareResponse : Credential → Body) (browser : Browser Options Asked Credential Body J) :
    Except Thrown Body := do
  let startResp ← browser.start
  if !startResp.ok then
    throw (.error (startName ++ " failed: " ++ toString startResp.status))
  match startResp.json with
  | none => throw .syntaxError
  | some startJson =>
      match prepareOptions startJson with
      | none => throw .invalidCharacter
      | some options =>
          match ← browser.credential options with
          | none => throw (.error (nullName ++ " returned null"))
          | some credential => pure (prepareResponse credential)

/-- The answer to what was posted; `{}` where it is not JSON. -/
def finished (finishName : String) (empty : J) (browser : Browser Options Asked Credential Body J)
    (body : Body) : Except Thrown J := do
  let finishResp ← browser.finish body
  if !finishResp.ok then
    throw (.error (finishName ++ " failed: " ++ toString finishResp.status))
  pure (finishResp.json.getD empty)

/-- The options, the credential, and its way back to the server. -/
def ceremony (startName nullName finishName : String) (empty : J)
    (prepareOptions : Options → Option Asked) (prepareResponse : Credential → Body)
    (browser : Browser Options Asked Credential Body J) : Except Thrown J := do
  finished finishName empty browser
    (← finishBody startName nullName prepareOptions prepareResponse browser)

/-- The browser a registration runs in. -/
abbrev Registering (Rest Extensions J : Type) :=
  Browser (CreationOptions Rest Text) (CreationOptions Rest Buffer)
    (CreationResponse Extensions Buffer) (CreationResponse Extensions Text) J

/-- The browser a login runs in. -/
abbrev LoggingIn (Rest Extensions J : Type) :=
  Browser (RequestOptions Rest Text) (RequestOptions Rest Buffer)
    (AssertionResponse Extensions Buffer) (AssertionResponse Extensions Text) J

variable {Extensions : Type}

def register (empty : J) (browser : Registering Rest Extensions J) : Except Thrown J :=
  ceremony "register/start" "navigator.credentials.create" "register/finish" empty
    prepareCreationOptions prepareCreationResponse browser

def assertCredential (startPath finishPath : String) (empty : J)
    (browser : LoggingIn Rest Extensions J) : Except Thrown J :=
  ceremony startPath "navigator.credentials.get" finishPath empty
    prepareAssertionOptions prepareAssertionResponse browser

def login (empty : J) (browser : LoggingIn Rest Extensions J) : Except Thrown J :=
  assertCredential "/auth/discoverable/start" "/auth/discoverable/finish" empty browser

def loginWithUsername (empty : J) (browser : LoggingIn Rest Extensions J) : Except Thrown J :=
  assertCredential "/auth/start" "/auth/finish" empty browser

/-! ## The wire format

Both sides write base64url without padding. `wire` and `unwire` are that format; the
client gets there through `btoa`, `atob` and replacements. -/

def wire (bytes : Buffer) : Text := (encode bytes).map urlSafe.char

def unwire (text : Text) : Option Buffer := (urlSafe.digits text).bind decode

theorem unwire_wire (bytes : Buffer) : unwire (wire bytes) = some bytes := by
  rw [unwire, wire, Alphabet.digits_map, Option.bind_some, decode_encode]

theorem bufferToBase64url_wire : bufferToBase64url = wire := funext bufferToBase64url_eq

theorem base64urlToBuffer_wire (bytes : Buffer) : base64urlToBuffer (wire bytes) = some bytes := by
  rw [wire, base64urlToBuffer_digits, decode_encode]

/-- Text of the format is read by the client as the format says, canonical or not. -/
theorem base64urlToBuffer_unwire {text : Text} {ds : List Digit}
    (h : urlSafe.digits text = some ds) : base64urlToBuffer text = unwire text := by
  rw [unwire, h, Option.bind_some, ← Alphabet.map_digits urlSafe h, base64urlToBuffer_digits]

theorem decodeDescriptors_wire (cs : List (Descriptor Buffer)) :
    decodeDescriptors (cs.map (Descriptor.map wire)) = some cs := by
  induction cs with
  | nil => rfl
  | cons c cs ih =>
      simp only [List.map_cons, decodeDescriptors, Descriptor.map, base64urlToBuffer_wire,
        Option.bind_some]
      rw [ih, Option.map_some]

theorem decodeOptional_wire (cs : Option (List (Descriptor Buffer))) :
    decodeOptional (cs.map (List.map (Descriptor.map wire))) = some cs := by
  cases cs with
  | none => rfl
  | some cs => rw [Option.map_some, decodeOptional, decodeDescriptors_wire, Option.map_some]

theorem prepareCreationOptions_wire (o : CreationOptions Rest Buffer) :
    prepareCreationOptions (o.map wire) = some o := by
  simp only [prepareCreationOptions, CreationOptions.map, base64urlToBuffer_wire,
    decodeOptional_wire, Option.bind_some, Option.map_some]

theorem prepareAssertionOptions_wire (o : RequestOptions Rest Buffer) :
    prepareAssertionOptions (o.map wire) = some o := by
  simp only [prepareAssertionOptions, RequestOptions.map, base64urlToBuffer_wire,
    decodeOptional_wire, Option.bind_some, Option.map_some]

/-- The server's reading of a registration. -/
def CreationResponse.read (r : CreationResponse Extensions Text) :
    Option (CreationResponse Extensions Buffer) := do
  let rawId ← unwire r.rawId
  let clientDataJson ← unwire r.clientDataJson
  let attestationObject ← unwire r.attestationObject
  some ⟨r.id, rawId, r.type, clientDataJson, attestationObject, r.transports, r.extensions⟩

/-- The server's reading of a login. -/
def AssertionResponse.read (r : AssertionResponse Extensions Text) :
    Option (AssertionResponse Extensions Buffer) := do
  let rawId ← unwire r.rawId
  let authenticatorData ← unwire r.authenticatorData
  let clientDataJson ← unwire r.clientDataJson
  let signature ← unwire r.signature
  let userHandle ← match r.userHandle with
    | none => some none
    | some handle => (unwire handle).map some
  some ⟨r.id, rawId, r.type, authenticatorData, clientDataJson, signature, userHandle,
    r.extensions⟩

theorem prepareCreationResponse_read (r : CreationResponse Extensions Buffer) :
    (prepareCreationResponse r).read = some r := by
  simp [prepareCreationResponse, CreationResponse.map, CreationResponse.read,
    bufferToBase64url_wire, unwire_wire]

theorem prepareAssertionResponse_read (r : AssertionResponse Extensions Buffer) :
    (prepareAssertionResponse r).read = some r := by
  obtain ⟨id, rawId, type, data, client, signature, handle, extensions⟩ := r
  cases handle <;>
    simp [prepareAssertionResponse, AssertionResponse.map, AssertionResponse.read,
      bufferToBase64url_wire, unwire_wire]

/-! ## What reaches the server -/

/-- A ceremony whose server sent `o`: the authenticator is asked with the bytes of `o`, a
credential it gives is posted so that the server reads it as it was given, and the
ceremony succeeds only where the server took one. -/
def Carries (toWire : Asked → Options) (read : Body → Option Credential) (finishName : String)
    (empty : J) (ceremony : Browser Options Asked Credential Body J → Except Thrown J) : Prop :=
  ∀ (browser : Browser Options Asked Credential Body J) (startResp : Response Options) (o : Asked),
    browser.start = .ok startResp → startResp.ok = true → startResp.json = some (toWire o) →
      (∀ c, browser.credential o = .ok (some c) →
        ∃ body, read body = some c ∧ ceremony browser = finished finishName empty browser body) ∧
      (∀ j, ceremony browser = .ok j →
        ∃ c body finishResp, browser.credential o = .ok (some c) ∧ read body = some c ∧
          browser.finish body = .ok finishResp ∧ finishResp.ok = true ∧
            j = finishResp.json.getD empty)

theorem finishBody_eq {startName nullName : String} {prepareOptions : Options → Option Asked}
    {prepareResponse : Credential → Body} {browser : Browser Options Asked Credential Body J}
    {startResp : Response Options} {options : Options} {o : Asked}
    (hstart : browser.start = .ok startResp) (hok : startResp.ok = true)
    (hjson : startResp.json = some options) (hread : prepareOptions options = some o) :
    finishBody startName nullName prepareOptions prepareResponse browser =
      (browser.credential o).bind fun given =>
        match given with
        | none => .error (.error (nullName ++ " returned null"))
        | some c => .ok (prepareResponse c) := by
  unfold finishBody
  simp only [hstart, bind, Except.bind, hok, hjson, hread]
  rfl

theorem finished_ok {finishName : String} {empty j : J}
    {browser : Browser Options Asked Credential Body J} {body : Body}
    (h : finished finishName empty browser body = .ok j) :
    ∃ finishResp, browser.finish body = .ok finishResp ∧ finishResp.ok = true ∧
      j = finishResp.json.getD empty := by
  unfold finished at h
  cases hfinish : browser.finish body with
  | error thrown =>
      rw [hfinish] at h
      cases h
  | ok finishResp =>
      simp only [hfinish, bind, Except.bind] at h
      cases hok : finishResp.ok with
      | false =>
          rw [hok] at h
          cases h
      | true =>
          rw [hok] at h
          cases h
          exact ⟨finishResp, rfl, hok, rfl⟩

/-- A ceremony carries what its two preparations carry. -/
theorem carries_of_prepared {startName nullName finishName : String} {empty : J}
    {prepareOptions : Options → Option Asked} {prepareResponse : Credential → Body}
    {toWire : Asked → Options} {read : Body → Option Credential}
    (hoptions : ∀ o, prepareOptions (toWire o) = some o)
    (hresponse : ∀ c, read (prepareResponse c) = some c) :
    Carries toWire read finishName empty
      (ceremony startName nullName finishName empty prepareOptions prepareResponse) := by
  intro browser startResp o hstart hok hjson
  have hbody : finishBody startName nullName prepareOptions prepareResponse browser = _ :=
    finishBody_eq hstart hok hjson (hoptions o)
  constructor
  · intro c hc
    refine ⟨prepareResponse c, hresponse c, ?_⟩
    rw [ceremony, hbody, hc]
    rfl
  · intro j hj
    rw [ceremony, hbody] at hj
    cases hc : browser.credential o with
    | error thrown =>
        rw [hc] at hj
        cases hj
    | ok given =>
        rw [hc] at hj
        cases given with
        | none => cases hj
        | some c =>
            obtain ⟨finishResp, hfinish, htaken, hresult⟩ := finished_ok hj
            exact ⟨c, prepareResponse c, finishResp, rfl, hresponse c, hfinish, htaken, hresult⟩

/-- Registrations and both logins carry the server's bytes to the authenticator and the
authenticator's bytes to the server. -/
theorem ceremonies_carry (empty : J) :
    Carries (CreationOptions.map wire) CreationResponse.read "register/finish" empty
        (register empty : Registering Rest Extensions J → Except Thrown J) ∧
      Carries (RequestOptions.map wire) AssertionResponse.read "/auth/discoverable/finish" empty
        (login empty : LoggingIn Rest Extensions J → Except Thrown J) ∧
      Carries (RequestOptions.map wire) AssertionResponse.read "/auth/finish" empty
        (loginWithUsername empty : LoggingIn Rest Extensions J → Except Thrown J) :=
  ⟨carries_of_prepared prepareCreationOptions_wire prepareCreationResponse_read,
    carries_of_prepared prepareAssertionOptions_wire prepareAssertionResponse_read,
    carries_of_prepared prepareAssertionOptions_wire prepareAssertionResponse_read⟩

def askedOptions : RequestOptions Unit Buffer := ⟨[251, 255, 7], none, ()⟩

def givenCredential : AssertionResponse Unit Buffer :=
  ⟨"key", [1], "public-key", [2, 3], [62, 63], [250, 191, 255, 1], some [9], ()⟩

/-- A server and an authenticator that take nothing but the bytes they expect. -/
def strictBrowser : LoggingIn Unit Unit String where
  start := .ok ⟨200, some (askedOptions.map wire)⟩
  credential o := .ok (if o = askedOptions then some givenCredential else none)
  finish body := .ok ⟨if body.read = some givenCredential then 200 else 400, some "signed in"⟩

/-- They agree over the client. -/
theorem ceremonies_carry_login : login "" strictBrowser = .ok "signed in" := by
  have hcarries : Carries (RequestOptions.map wire) AssertionResponse.read
      "/auth/discoverable/finish" "" (login "" : LoggingIn Unit Unit String → _) :=
    (ceremonies_carry "").2.1
  obtain ⟨body, hread, hlogin⟩ :=
    (hcarries strictBrowser ⟨200, some (askedOptions.map wire)⟩ askedOptions rfl rfl rfl).1
      givenCredential rfl
  rw [hlogin]
  simp only [finished, strictBrowser, hread, if_true]
  rfl

end Cja.Passkeys.Client
