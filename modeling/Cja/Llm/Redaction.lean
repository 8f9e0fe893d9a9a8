import Cja.Llm.Error

/-!
# Which error texts depend on content

Two failures agree where they differ in content only: in the text of a reply body, in
model output, in the messages of serde errors. The texts of an error are its `Display`
and its `Debug` and those of its source chain.
-/
namespace Cja.Llm
open Cja.Durable Replace

/-! ## Agreement -/

/-- What a serde error is besides its message. -/
def SerdeError.place (e : SerdeError) : Category × ℕ × ℕ := (e.category, e.line, e.column)

/-- The text of a failed transport is no content; every other text may be. -/
structure Agree (R : Crates) (err err' : PromptError) : Prop where
  variant : err'.variant = err.variant
  kind : err'.kind = err.kind
  status : err'.reply.map (fun reply => reply.status) = err.reply.map fun reply => reply.status
  length : err'.reply.map (fun reply => Text.byteLength reply.body) =
    err.reply.map fun reply => Text.byteLength reply.body
  fields : err'.reply.map (fun reply => R.fields reply.body) =
    err.reply.map fun reply => R.fields reply.body
  serde : err'.serde.map SerdeError.place = err.serde.map SerdeError.place
  text : err.reply = none → err.isHttpTransport = true → err'.text = err.text

/-- The `Display` and the `Debug` of every link of the source chain. -/
def Error.texts (R : Crates) (e : Error) : List (Text × Text) :=
  (e.display, e.debug R) :: (e.source.map fun source => (source.display, source.debug R)).toList

/-- The texts of the error of a failure are those of every failure that agrees with it. -/
def ContentFree (R : Crates) (err : PromptError) : Prop :=
  ∀ err', Agree R err err' → (fromPromptError R err').texts R = (fromPromptError R err).texts R

/-- A failed transport whose marker is found. -/
def PromptError.marked (err : PromptError) : Bool :=
  err.isHttpTransport && (contains err.text connectMarker || contains err.text timeoutMarker)

/-- What the summary of the source is to be, up to serde errors: the body is replaced where
it stands, behind the fixed text. -/
def intended (R : Crates) (err : PromptError) : Option Text :=
  match err.reply with
  | some reply =>
      some (R.replyText err.variant err.kind reply.status ++
        if reply.body = [] then [] else redacted reply.body)
  | none => if err.marked then some err.text else none

/-- A reply body is empty or has one of the fields, and no serde error says where it is in
the words of the summary. -/
structure Sealed (R : Crates) (err : PromptError) : Prop where
  body : ∀ reply, err.reply = some reply → reply.body = [] ∨ R.fields reply.body ≠ ⟨none, none⟩
  serde : ∀ text, intended R err = some text → ∀ link ∈ err.serde, ¬ link.position <:+: text

/-- An ASCII character that opens neither an object nor a marker. -/
def Plain (c : Char) : Prop := c.utf8Size = 1 ∧ c ≠ '<' ∧ c ≠ '\x7b'

/-- The text before a body opens no object, ends in a plain character (rig's in a blank)
and lacks some plain character; only a JSON object has fields. -/
structure Crates.Lawful (R : Crates) : Prop where
  replyText_brace : ∀ v k status, '\x7b' ∉ R.replyText v k status
  replyText_last : ∀ v k status, ∃ words c, R.replyText v k status = words ++ [c] ∧ Plain c
  replyText_lacks : ∀ v k status, ∃ c, Plain c ∧ c ∉ R.replyText v k status
  fields_object : ∀ body, R.fields body ≠ ⟨none, none⟩ → '\x7b' ∈ body

theorem Crates.Lawful.replyText_ne {R : Crates} (hR : R.Lawful) (v : Variant) (k : ErrorKind)
    (status : ℕ) : R.replyText v k status ≠ [] := by
  obtain ⟨words, c, heq, -⟩ := hR.replyText_last v k status
  rw [heq]
  exact List.append_ne_nil_of_right_ne_nil _ (List.cons_ne_nil c [])

section

variable {R : Crates} {err err' : PromptError} {reply : Reply} {text body : Text}
variable {link : SerdeError} {links : List SerdeError}

/-! ## Replaced texts -/

theorem redacted_eq (body : Text) : ∃ rest, redacted body = '<' :: rest :=
  ⟨("redacted " ++ toString (Text.byteLength body) ++ " bytes>").toList, by
    simp [redacted, String.toList_append]⟩

theorem redactBodies_singleton (hne : body ≠ []) :
    redactBodies [body] text = replace body (redacted body) text := by
  cases body with
  | nil => exact absurd rfl hne
  | cons c body => rfl

theorem redactBodies_empty : redactBodies [[]] text = text := rfl

/-- A body with a character that the fixed text lacks is redacted where it stands. -/
theorem redactBodies_clear {fixed : Text} {c : Char} (hc : c ∈ body) (hnot : c ∉ fixed) :
    redactBodies [body] (fixed ++ body) = fixed ++ redacted body := by
  have hne : body ≠ [] := List.ne_nil_of_mem hc
  have hclear : Clear body fixed (body ++ []) := clear_of_not_mem hc hnot
  have hreplace := replace_clear (redacted body) hclear
  rw [redactBodies_singleton hne]
  rw [List.append_nil] at hreplace
  rw [hreplace]
  have hbody := replace_append (redacted body) [] hne
  rw [List.append_nil] at hbody
  rw [hbody, replace_nil, List.append_nil]

theorem redactSerde_cons : redactSerde (link :: links) text =
    redactSerde links
      (if link.display.isEmpty then text else replace link.display (serdeSummary link) text) :=
  rfl

/-- Serde errors that the text does not show leave it. -/
theorem redactSerde_absent (h : ∀ link ∈ links, ¬ link.display <:+: text) :
    redactSerde links text = text := by
  induction links with
  | nil => rfl
  | cons link links ih =>
      have hlink := h link (List.mem_cons_self ..)
      have hrest : redactSerde links text = text :=
        ih fun link' hlink' => h link' (List.mem_cons_of_mem _ hlink')
      rw [redactSerde_cons]
      split
      · exact hrest
      · rw [replace_absent hlink, hrest]

theorem position_in_display (link : SerdeError) : link.position <:+: link.display :=
  ⟨link.message, [], List.append_nil _⟩

theorem place_position {link' : SerdeError} (h : link'.place = link.place) :
    link'.position = link.position := by
  simp only [SerdeError.place, Prod.mk.injEq] at h
  simp only [SerdeError.position, h.2.1, h.2.2]

/-! ## Sealed failures -/

theorem Agree.isHttpTransport (h : Agree R err err') :
    err'.isHttpTransport = err.isHttpTransport := by
  rw [PromptError.isHttpTransport, PromptError.isHttpTransport, h.variant, h.kind]

/-- The replies of failures that agree. -/
theorem Agree.replies (h : Agree R err err') (hreply : err.reply = some reply) :
    ∃ reply', err'.reply = some reply' ∧ reply'.status = reply.status ∧
      Text.byteLength reply'.body = Text.byteLength reply.body ∧
      R.fields reply'.body = R.fields reply.body := by
  have hstatus := h.status
  rw [hreply] at hstatus
  obtain ⟨reply', hreply', hstatus⟩ := Option.map_eq_some_iff.1 hstatus
  have hlength := h.length
  have hfields := h.fields
  rw [hreply, hreply'] at hlength hfields
  exact ⟨reply', hreply', hstatus, Option.some.inj hlength, Option.some.inj hfields⟩

theorem Agree.no_reply (h : Agree R err err') (hreply : err.reply = none) :
    err'.reply = none := by
  have hstatus := h.status
  rw [hreply] at hstatus
  exact Option.map_eq_none_iff.1 hstatus

theorem Agree.marked (h : Agree R err err') (hreply : err.reply = none) :
    err'.marked = err.marked := by
  unfold PromptError.marked
  rw [h.isHttpTransport]
  cases htransport : err.isHttpTransport with
  | false => rfl
  | true => rw [h.text hreply htransport]

theorem Agree.intended (h : Agree R err err') : intended R err' = intended R err := by
  cases hreply : err.reply with
  | some reply =>
      obtain ⟨reply', hreply', hstatus, hlength, -⟩ := h.replies hreply
      have hempty : reply'.body = [] ↔ reply.body = [] := by
        rw [← Text.byteLength_eq_zero, hlength, Text.byteLength_eq_zero]
      simp only [Llm.intended, hreply, hreply', h.variant, h.kind, hstatus, hempty, redacted,
        hlength]
  | none =>
      have hmarked := h.marked hreply
      simp only [Llm.intended, hreply, h.no_reply hreply, hmarked]
      split
      · rename_i htrue
        have htransport : err.isHttpTransport = true := by
          unfold PromptError.marked at htrue
          rw [Bool.and_eq_true] at htrue
          exact htrue.1
        rw [h.text hreply htransport]
      · rfl

theorem Agree.sealed (h : Agree R err err') (hs : Sealed R err) : Sealed R err' := by
  constructor
  · intro reply' hreply'
    cases hreply : err.reply with
    | none =>
        rw [h.no_reply hreply] at hreply'
        cases hreply'
    | some reply =>
        obtain ⟨reply'', hreply'', -, hlength, hfields⟩ := h.replies hreply
        rw [hreply'] at hreply''
        cases hreply''
        rw [hfields, ← Text.byteLength_eq_zero, hlength, Text.byteLength_eq_zero]
        exact hs.body reply hreply
  · intro text htext link' hlink'
    rw [h.intended] at htext
    have hplace : link'.place ∈ err.serde.map SerdeError.place := by
      rw [← h.serde]
      exact List.mem_map_of_mem hlink'
    obtain ⟨link, hlink, heq⟩ := List.mem_map.1 hplace
    rw [place_position heq.symm]
    exact hs.serde text htext link hlink

theorem redactBodies_sealed (hR : R.Lawful) (hreply : err.reply = some reply)
    (hbody : reply.body = [] ∨ R.fields reply.body ≠ ⟨none, none⟩) :
    some (redactBodies [reply.body] (err.display R)) = intended R err := by
  simp only [PromptError.display, Llm.intended, hreply]
  obtain hnil | hfields := hbody
  · rw [hnil, redactBodies_empty]
    rfl
  · have hbrace := hR.fields_object reply.body hfields
    have hne : reply.body ≠ [] := List.ne_nil_of_mem hbrace
    rw [if_neg hne, redactBodies_clear hbrace (hR.replyText_brace _ _ _)]

theorem redactSerde_sealed (hs : Sealed R err) (htext : intended R err = some text) :
    redactSerde err.serde text = text :=
  redactSerde_absent fun link hlink hdisplay =>
    hs.serde text htext link hlink ((position_in_display link).trans hdisplay)

/-- The variants of a reply. -/
inductive OfReply (status : ℕ) : (Text → SanitizedError → Error) → Prop
  | budgetExceeded : OfReply status .budgetExceeded
  | identityRejected : OfReply status .identityRejected
  | adminOnly : OfReply status .adminOnly
  | upstream : OfReply status (.upstream status)

/-- Status and fields decide the variant. -/
theorem classifyReply_eq (status : ℕ) (fields : Fields) :
    ∃ variant, OfReply status variant ∧ ∀ (reply : Reply) (source : SanitizedError),
      reply.status = status → classifyReply reply fields source = variant reply.body source := by
  by_cases h402 : status = 402
  · refine ⟨_, .budgetExceeded, ?_⟩
    intro reply source hstatus
    rw [classifyReply, hstatus, if_pos h402]
  by_cases hstale : (status = 401 ∨ status = 403) ∧
      (fields.type = some "access_not_found" ∨ fields.type = some "access_blocked")
  · refine ⟨_, .upstream, ?_⟩
    intro reply source hstatus
    rw [classifyReply, hstatus, if_neg h402, if_pos hstale]
  by_cases hidentity : status = 403 ∧ fields.error = some identity403Body
  · refine ⟨_, .identityRejected, ?_⟩
    intro reply source hstatus
    rw [classifyReply, hstatus, if_neg h402, if_neg hstale, if_pos hidentity]
  by_cases hadmin : status = 403 ∧ fields.error = some admin403Body
  · refine ⟨_, .adminOnly, ?_⟩
    intro reply source hstatus
    rw [classifyReply, hstatus, if_neg h402, if_neg hstale, if_neg hidentity, if_pos hadmin]
  · refine ⟨_, .upstream, ?_⟩
    intro reply source hstatus
    rw [classifyReply, hstatus, if_neg h402, if_neg hstale, if_neg hidentity, if_neg hadmin]

/-- The texts are decided by the variant, the `Debug` and the summary of the source. -/
theorem texts_eq {e e' : Error} {source source' : SanitizedError}
    (houtline : e'.outline = e.outline) (hdebug : e'.debug R = e.debug R)
    (hsource' : e'.source = some source') (hsource : e.source = some source)
    (hsummary : source'.summary = source.summary) : e'.texts R = e.texts R := by
  have hdisplay : e'.display = e.display := congrArg (fun o : LlmError => o.display.toList) houtline
  rw [Error.texts, Error.texts, hdisplay, hdebug, hsource, hsource', Option.map_some,
    Option.map_some, SanitizedError.display, SanitizedError.display, SanitizedError.debug,
    SanitizedError.debug, hsummary]

theorem classifyReply_texts {reply' : Reply} {fields : Fields} {source source' : SanitizedError}
    (hstatus : reply'.status = reply.status)
    (hlength : Text.byteLength reply'.body = Text.byteLength reply.body)
    (hsummary : source'.summary = source.summary) :
    (classifyReply reply' fields source').texts R = (classifyReply reply fields source).texts R := by
  obtain ⟨variant, hvariant, heq⟩ := classifyReply_eq reply.status fields
  rw [heq reply' source' hstatus, heq reply source rfl]
  have hdebug : source'.debug R = source.debug R := congrArg R.debugStr hsummary
  have hbytes : bytesField reply'.body = bytesField reply.body := by
    rw [bytesField, bytesField, hlength]
  have hstruct : ∀ (name : String) (fields : List (String × Text)),
      debugStruct name (fields ++ [("body", bytesField reply'.body), ("source", source'.debug R)]) =
        debugStruct name (fields ++ [("body", bytesField reply.body), ("source", source.debug R)]) := by
    intro name fields
    rw [hbytes, hdebug]
  cases hvariant with
  | budgetExceeded => exact texts_eq rfl (hstruct "BudgetExceeded" []) rfl rfl hsummary
  | identityRejected => exact texts_eq rfl (hstruct "IdentityRejected" []) rfl rfl hsummary
  | adminOnly => exact texts_eq rfl (hstruct "AdminOnly" []) rfl rfl hsummary
  | upstream =>
      exact texts_eq rfl
        (hstruct "Upstream" [("status", (toString reply.status).toList)]) rfl rfl hsummary

theorem connect_texts {source source' : SanitizedError} (h : source'.summary = source.summary) :
    (Error.connect source').texts R = (Error.connect source).texts R :=
  texts_eq rfl (congrArg (fun text => debugStruct "Connect" [("source", R.debugStr text)]) h)
    rfl rfl h

theorem timeout_texts {source source' : SanitizedError} (h : source'.summary = source.summary) :
    (Error.timeout source').texts R = (Error.timeout source).texts R :=
  texts_eq rfl (congrArg (fun text => debugStruct "Timeout" [("source", R.debugStr text)]) h)
    rfl rfl h

theorem contentFree_of_sealed (hR : R.Lawful) (hs : Sealed R err) : ContentFree R err := by
  intro err' h
  have hs' := h.sealed hs
  cases hreply : err.reply with
  | some reply =>
      obtain ⟨reply', hreply', hstatus, hlength, hfields⟩ := h.replies hreply
      have htext := (redactBodies_sealed hR hreply (hs.body reply hreply)).symm
      have htext' := (redactBodies_sealed hR hreply' (hs'.body reply' hreply')).symm
      have hsame : redactBodies [reply'.body] (err'.display R) =
          redactBodies [reply.body] (err.display R) := by
        have heq := h.intended
        rw [htext, htext'] at heq
        exact Option.some.inj heq
      simp only [fromPromptError, hreply, hreply', hfields]
      apply classifyReply_texts hstatus hlength
      change redactSerde err'.serde _ = redactSerde err.serde _
      rw [redactSerde_sealed hs' htext', redactSerde_sealed hs htext, hsame]
  | none =>
      have hreply' := h.no_reply hreply
      have hmarked := h.marked hreply
      simp only [fromPromptError, hreply, hreply', PromptError.display, h.isHttpTransport]
      cases htransport : err.isHttpTransport with
      | false => rfl
      | true =>
          rw [h.text hreply htransport]
          have hsummary : err.marked = true →
              sanitizePromptDisplay R err' [] = sanitizePromptDisplay R err [] := by
            intro htrue
            have htext : intended R err = some err.text := by
              simp only [Llm.intended, hreply, htrue, if_true]
            have htext' : intended R err' = some err.text := h.intended.trans htext
            have hdisplay' : err'.display R = err.text := by
              simp only [PromptError.display, hreply']
              exact h.text hreply htransport
            have hdisplay : err.display R = err.text := by
              simp only [PromptError.display, hreply]
            rw [sanitizePromptDisplay, sanitizePromptDisplay, hdisplay, hdisplay']
            change redactSerde err'.serde err.text = redactSerde err.serde err.text
            rw [redactSerde_sealed hs' htext', redactSerde_sealed hs htext]
          have hconnect : contains err.text connectMarker = true → err.marked = true := by
            intro hc
            simp [PromptError.marked, htransport, hc]
          have htimeout : contains err.text timeoutMarker = true → err.marked = true := by
            intro hc
            simp [PromptError.marked, htransport, hc]
          cases hc : contains err.text connectMarker with
          | true => exact connect_texts (hsummary (hconnect hc))
          | false =>
              cases ht : contains err.text timeoutMarker with
              | true => exact timeout_texts (hsummary (htimeout ht))
              | false => rfl

/-! ## Failures whose texts show content -/

/-- The same place with a message too long to be found in a text. -/
def SerdeError.long (n : ℕ) (link : SerdeError) : SerdeError :=
  { link with message := List.replicate n 'x' }

theorem redactSerde_long {n : ℕ} (hn : text.length < n) :
    redactSerde (links.map (SerdeError.long n)) text = text := by
  apply redactSerde_absent
  intro link hlink hinfix
  obtain ⟨link₀, -, rfl⟩ := List.mem_map.1 hlink
  have hle := hinfix.length_le
  have hlength : (link₀.long n).display.length = n + link₀.position.length := by
    rw [SerdeError.display, List.length_append]
    exact congrArg (· + _) List.length_replicate
  omega

theorem place_long (n : ℕ) (links : List SerdeError) :
    (links.map (SerdeError.long n)).map SerdeError.place = links.map SerdeError.place := by
  rw [List.map_map]
  rfl

theorem redactSerde_append {links' : List SerdeError} :
    redactSerde (links ++ links') text = redactSerde links' (redactSerde links text) :=
  List.foldl_append ..

theorem summary_of_texts {e e' : Error} (h : e'.texts R = e.texts R) :
    (e'.source.map fun source => source.summary) = e.source.map fun source => source.summary := by
  have htail := (List.cons.inj h).2
  cases he' : e'.source with
  | none =>
      cases he : e.source with
      | none => rfl
      | some source =>
          rw [he, he'] at htail
          cases htail
  | some source' =>
      cases he : e.source with
      | none =>
          rw [he, he'] at htail
          cases htail
      | some source =>
          rw [he, he'] at htail
          exact congrArg some (Prod.mk.inj (List.cons.inj htail).1).1

theorem OfReply.source {status : ℕ} {variant : Text → SanitizedError → Error}
    (h : OfReply status variant) (body : Text) (source : SanitizedError) :
    (variant body source).source = some source := by
  cases h <;> rfl

theorem summary_reply (hreply : err.reply = some reply) :
    ((fromPromptError R err).source.map fun source => source.summary) =
      some (sanitizePromptDisplay R err [reply.body]) := by
  simp only [fromPromptError, hreply]
  obtain ⟨variant, hvariant, heq⟩ := classifyReply_eq reply.status (R.fields reply.body)
  rw [heq _ _ rfl, hvariant.source, Option.map_some]
  rfl

/-- The failure with `n` times a character for its body. -/
def PromptError.probe (err : PromptError) (status n : ℕ) (c : Char) (long : ℕ) : PromptError :=
  { err with
    reply := some ⟨status, List.replicate n c⟩
    serde := err.serde.map (SerdeError.long long) }

theorem byteLength_replicate {n : ℕ} {c : Char} (hc : c.utf8Size = 1) :
    Text.byteLength (List.replicate n c) = n := by
  simp [Text.byteLength, hc]

theorem probe_agree {c : Char} (long : ℕ) (hR : R.Lawful) (hreply : err.reply = some reply)
    (hnone : R.fields reply.body = ⟨none, none⟩) (hc : c.utf8Size = 1) (hbrace : c ≠ '\x7b') :
    Agree R err (err.probe reply.status (Text.byteLength reply.body) c long) := by
  have hfields : R.fields (List.replicate (Text.byteLength reply.body) c) = ⟨none, none⟩ := by
    by_contra hsome
    have hmem := hR.fields_object _ hsome
    exact hbrace (List.eq_of_mem_replicate hmem).symm
  constructor
  · rfl
  · rfl
  · rw [hreply]
    rfl
  · rw [hreply]
    exact congrArg some (byteLength_replicate hc)
  · rw [hreply]
    exact congrArg some (hfields.trans hnone.symm)
  · exact place_long long err.serde
  · intro hnoreply
    rw [hreply] at hnoreply
    cases hnoreply

/-- The body that repeats the last character of the fixed text is found before its end. -/
theorem replace_repeated {fixed rest rep : Text} {c : Char} {n : ℕ} (hn : n ≠ 0) (hlt : c ≠ '<')
    (hrep : rep = '<' :: rest) :
    replace (List.replicate n c) rep ((fixed ++ [c]) ++ List.replicate n c) ≠
      (fixed ++ [c]) ++ rep := by
  intro heq
  have hne : List.replicate n c ≠ [] := by
    simpa using hn
  have hinfix : List.replicate n c <:+: (fixed ++ [c]) ++ List.replicate n c :=
    ⟨fixed ++ [c], [], by simp⟩
  obtain ⟨before, behind, htext, hclear⟩ := exists_clear hinfix
  have hshort : before.length < (fixed ++ [c]).length := by
    by_contra hlong
    apply hclear fixed.length (by simp only [List.length_append, List.length_singleton] at hlong; omega)
    rw [← htext]
    have hdrop : ((fixed ++ [c]) ++ List.replicate n c).drop fixed.length =
        List.replicate (n + 1) c := by
      rw [List.append_assoc, List.drop_left]
      rfl
    rw [hdrop, List.replicate_succ']
    exact List.prefix_append ..
  -- where the body is found, the fixed text has that character and the marker begins
  have hfixed : (fixed ++ [c])[before.length]? = some c := by
    have hat := congrArg (fun text : Text => text[before.length]?) htext
    obtain ⟨m, rfl⟩ := Nat.exists_eq_succ_of_ne_zero hn
    simpa only [List.getElem?_append_left hshort, List.getElem?_append_right le_rfl, Nat.sub_self,
      List.replicate_succ, List.cons_append, List.getElem?_cons_zero] using hat
  rw [htext, replace_clear _ hclear, replace_append _ _ hne, hrep] at heq
  have hat := congrArg (fun text : Text => text[before.length]?) heq
  simp only [List.cons_append, List.getElem?_append_right le_rfl, Nat.sub_self,
    List.getElem?_cons_zero, List.getElem?_append_left hshort, hfixed, Option.some.injEq] at hat
  exact hlt hat.symm

theorem body_of_contentFree (hR : R.Lawful) (h : ContentFree R err)
    (hreply : err.reply = some reply) :
    reply.body = [] ∨ R.fields reply.body ≠ ⟨none, none⟩ := by
  by_contra hnot
  rw [not_or, not_not] at hnot
  obtain ⟨hbody, hnone⟩ := hnot
  have hn : Text.byteLength reply.body ≠ 0 := fun hzero => hbody (Text.byteLength_eq_zero.1 hzero)
  generalize hlength : Text.byteLength reply.body = n at hn
  -- The summary of a body of one repeated character.
  have hsummary : ∀ c : Char, Plain c →
      some (redactBodies [List.replicate n c]
        (R.replyText err.variant err.kind reply.status ++ List.replicate n c)) =
      (fromPromptError R err).source.map fun source => source.summary := by
    intro c hc
    generalize htext : redactBodies [List.replicate n c]
      (R.replyText err.variant err.kind reply.status ++ List.replicate n c) = text
    have hagree := probe_agree (text.length + 1) hR hreply hnone hc.1 hc.2.2
    rw [hlength] at hagree
    rw [← summary_of_texts (h _ hagree), summary_reply rfl]
    change _ = some (redactSerde (err.serde.map (SerdeError.long (text.length + 1)))
      (redactBodies [List.replicate n c]
        (R.replyText err.variant err.kind reply.status ++ List.replicate n c)))
    rw [htext, redactSerde_long (Nat.lt_succ_self _)]
  obtain ⟨fixed, c, hfixed, hc⟩ := hR.replyText_last err.variant err.kind reply.status
  obtain ⟨c', hc', hlacks⟩ := hR.replyText_lacks err.variant err.kind reply.status
  have hsame := (hsummary c' hc').trans (hsummary c hc).symm
  have hmem : c' ∈ List.replicate n c' := List.mem_replicate.2 ⟨hn, rfl⟩
  have hne : List.replicate n c ≠ [] := by
    simpa using hn
  rw [redactBodies_clear hmem hlacks, redactBodies_singleton hne] at hsame
  have hredacted : redacted (List.replicate n c') = redacted (List.replicate n c) := by
    rw [redacted, redacted, byteLength_replicate hc'.1, byteLength_replicate hc.1]
  obtain ⟨rest, hrest⟩ := redacted_eq (List.replicate n c)
  rw [hfixed, hredacted] at hsame
  exact replace_repeated hn hc.2.1 hrest (Option.some.inj hsame).symm

theorem summary_intended (hR : R.Lawful)
    (hbody : ∀ reply, err.reply = some reply →
      reply.body = [] ∨ R.fields reply.body ≠ ⟨none, none⟩)
    (htext : intended R err = some text) :
    ((fromPromptError R err).source.map fun source => source.summary) =
      some (redactSerde err.serde text) := by
  cases hreply : err.reply with
  | some reply =>
      have heq := (redactBodies_sealed hR hreply (hbody reply hreply)).trans htext
      rw [summary_reply hreply, sanitizePromptDisplay, Option.some.inj heq]
  | none =>
      have hdisplay : err.display R = err.text := by
        simp only [PromptError.display, hreply]
      simp only [Llm.intended, hreply] at htext
      split at htext
      · rename_i hmarked
        cases htext
        simp only [PromptError.marked, Bool.and_eq_true, Bool.or_eq_true] at hmarked
        obtain ⟨htransport, hmarker⟩ := hmarked
        have hsummary : sanitizePromptDisplay R err [] = redactSerde err.serde err.text := by
          rw [sanitizePromptDisplay, hdisplay]
          rfl
        simp only [fromPromptError, hreply, hdisplay, htransport, Bool.true_and]
        cases hc : contains err.text connectMarker with
        | true => exact congrArg some hsummary
        | false =>
            have ht : contains err.text timeoutMarker = true :=
              hmarker.resolve_left (by rw [hc]; exact Bool.false_ne_true)
            rw [ht]
            exact congrArg some hsummary
      · cases htext

theorem intended_ne_nil (hR : R.Lawful) (htext : intended R err = some text) : text ≠ [] := by
  cases hreply : err.reply with
  | some reply =>
      simp only [Llm.intended, hreply, Option.some.injEq] at htext
      rw [← htext]
      exact List.append_ne_nil_of_left_ne_nil (hR.replyText_ne _ _ _) _
  | none =>
      simp only [Llm.intended, hreply] at htext
      split at htext
      · rename_i hmarked
        cases htext
        simp only [PromptError.marked, Bool.and_eq_true, Bool.or_eq_true, contains_iff] at hmarked
        obtain hc | ht := hmarked.2
        · exact hc.ne_nil (by decide)
        · exact ht.ne_nil (by decide)
      · cases htext

/-- The failure with other messages in its serde errors. -/
def PromptError.withSerde (err : PromptError) (links : List SerdeError) : PromptError :=
  { err with serde := links }

theorem withSerde_agree (h : links.map SerdeError.place = err.serde.map SerdeError.place) :
    Agree R err (err.withSerde links) :=
  ⟨rfl, rfl, rfl, rfl, rfl, h, fun _ _ => rfl⟩

theorem summary_withSerde (hR : R.Lawful) (h : ContentFree R err)
    (htext : intended R err = some text)
    (hplace : links.map SerdeError.place = err.serde.map SerdeError.place) :
    some (redactSerde links text) =
      (fromPromptError R err).source.map fun source => source.summary := by
  rw [← summary_of_texts (h _ (withSerde_agree hplace))]
  have hsummary : ((fromPromptError R (err.withSerde links)).source.map
      fun source => source.summary) = some (redactSerde links text) :=
    summary_intended hR (fun reply hreply => body_of_contentFree hR h hreply) htext
  exact hsummary.symm

theorem serdeSummary_length (link : SerdeError) :
    link.position.length + 1 < (serdeSummary link).length := by
  rw [SerdeError.position]
  split
  · simp only [serdeSummary, String.toList_append, List.length_append]
    have hlength : " error at line ".toList.length = 15 := by decide
    rw [hlength, List.length_nil]
    omega
  · simp only [serdeSummary, String.toList_append, List.length_append]
    have hsummary : " error at line ".toList.length = 15 := by decide
    have hposition : " at line ".toList.length = 9 := by decide
    rw [hsummary, hposition]
    omega

/-- A message with which the error is found in a text that shows its place. -/
theorem exists_found (htext : text ≠ []) (h : link.position <:+: text) :
    ∃ message : Text, ({ link with message := message } : SerdeError).display ≠ [] ∧
      ({ link with message := message } : SerdeError).display <:+: text ∧
      ({ link with message := message } : SerdeError).display.length <
        (serdeSummary link).length := by
  have hlength := serdeSummary_length link
  cases hposition : link.position with
  | nil =>
      cases text with
      | nil => exact absurd rfl htext
      | cons c text =>
          have hdisplay : ({ link with message := [c] } : SerdeError).display = [c] :=
            (congrArg ([c] ++ ·) hposition).trans rfl
          refine ⟨[c], ?_, ?_, ?_⟩
          · rw [hdisplay]
            exact List.cons_ne_nil _ _
          · rw [hdisplay]
            exact ⟨[], text, rfl⟩
          · rw [hdisplay]
            rw [hposition] at hlength
            exact hlength
  | cons c rest =>
      have hdisplay : ({ link with message := [] } : SerdeError).display = c :: rest := hposition
      refine ⟨[], ?_, ?_, ?_⟩
      · rw [hdisplay]
        exact List.cons_ne_nil _ _
      · rw [hdisplay, ← hposition]
        exact h
      · rw [hdisplay, ← hposition]
        omega

theorem serde_of_contentFree (hR : R.Lawful) (h : ContentFree R err)
    (htext : intended R err = some text) (hlink : link ∈ err.serde) :
    ¬ link.position <:+: text := by
  intro hinfix
  obtain ⟨before, behind, hserde⟩ := List.append_of_mem hlink
  obtain ⟨message, hne, hfound, hshort⟩ := exists_found (intended_ne_nil hR htext) hinfix
  generalize hloud : ({ link with message := message } : SerdeError) = loud at hne hfound hshort
  have hsummary : serdeSummary loud = serdeSummary link := by rw [← hloud]; rfl
  have hgrown : text.length < (replace loud.display (serdeSummary loud) text).length :=
    length_lt_replace hne (by rw [hsummary]; exact hshort) hfound
  generalize hshown : replace loud.display (serdeSummary loud) text = shown at hgrown
  -- All messages but one are too long for either text.
  let long := SerdeError.long (shown.length + 1)
  have hquiet := summary_withSerde hR h htext (place_long (shown.length + 1) err.serde)
  have hplace : (before.map long ++ loud :: behind.map long).map SerdeError.place =
      err.serde.map SerdeError.place := by
    rw [hserde, List.map_append, List.map_append, List.map_cons, List.map_cons, place_long,
      place_long, ← hloud]
    rfl
  have hshow := summary_withSerde hR h htext hplace
  rw [redactSerde_long (by omega)] at hquiet
  rw [redactSerde_append, redactSerde_long (by omega), redactSerde_cons,
    if_neg (by rw [List.isEmpty_iff]; exact hne), hshown, redactSerde_long (Nat.lt_succ_self _)]
    at hshow
  have heq := Option.some.inj (hquiet.trans hshow.symm)
  rw [heq] at hgrown
  exact lt_irrefl _ hgrown

theorem contentFree_iff (hR : R.Lawful) (err : PromptError) : ContentFree R err ↔ Sealed R err := by
  constructor
  · intro h
    constructor
    · intro reply hreply
      exact body_of_contentFree hR h hreply
    · intro text htext link hlink
      exact serde_of_contentFree hR h htext hlink
  · intro hs
    exact contentFree_of_sealed hR hs

/-! ## Structured output -/

/-- Failures of a structured output that differ in content only. -/
inductive AgreeOutput (R : Crates) : StructuredOutputError → StructuredOutputError → Prop
  | deserialization {output output' : Text} {error error' : SerdeError} :
      Text.byteLength output' = Text.byteLength output → error'.place = error.place →
      AgreeOutput R (.deserialization output error) (.deserialization output' error')
  | emptyResponse : AgreeOutput R .emptyResponse .emptyResponse
  | prompt {err err' : PromptError} : Agree R err err' → AgreeOutput R (.prompt err) (.prompt err')

def SealedOutput (R : Crates) : StructuredOutputError → Prop
  | .prompt err => Sealed R err
  | _ => True

theorem serdeSummary_place {error error' : SerdeError} (h : error'.place = error.place) :
    serdeSummary error' = serdeSummary error := by
  simp only [SerdeError.place, Prod.mk.injEq] at h
  rw [serdeSummary, serdeSummary, h.1, h.2.1, h.2.2]

theorem schemaParse_texts {output output' : Text} {error error' : SerdeError}
    (hlength : Text.byteLength output' = Text.byteLength output) (hplace : error'.place = error.place) :
    (Error.schemaParse output' (.fromSerde error')).texts R =
      (Error.schemaParse output (.fromSerde error)).texts R := by
  have hsummary : (SanitizedError.fromSerde error').summary =
      (SanitizedError.fromSerde error).summary := serdeSummary_place hplace
  have hbytes : bytesField output' = bytesField output := by
    rw [bytesField, bytesField, hlength]
  have hdebug : (Error.schemaParse output' (.fromSerde error')).debug R =
      (Error.schemaParse output (.fromSerde error)).debug R :=
    congrArg₂ (fun raw text => debugStruct "SchemaParse" [("raw", raw), ("error", text)])
      hbytes (congrArg R.debugStr hsummary)
  exact texts_eq rfl hdebug rfl rfl hsummary

theorem outputContentFree_iff (hR : R.Lawful) (err : StructuredOutputError) :
    (∀ err', AgreeOutput R err err' →
      (fromStructuredOutput R err').texts R = (fromStructuredOutput R err).texts R) ↔
      SealedOutput R err := by
  cases err with
  | deserialization output error =>
      constructor
      · intro _
        trivial
      · intro _ err' h
        cases h with
        | deserialization hlength hplace => exact schemaParse_texts hlength hplace
  | emptyResponse =>
      constructor
      · intro _
        trivial
      · intro _ err' h
        cases h
        rfl
  | prompt err =>
      constructor
      · intro h
        exact (contentFree_iff hR err).1 fun err' hagree => h (.prompt err') (.prompt hagree)
      · intro hs err' h
        cases h with
        | prompt hagree => exact (contentFree_iff hR err).2 hs _ hagree

/-- The texts of an error are the same for every content exactly where a reply body is empty
or a JSON object with one of the fields, and no serde error repeats words of the summary. -/
theorem error_text_content_free (hR : R.Lawful) :
    (∀ err, ContentFree R err ↔ Sealed R err) ∧
    ∀ err, (∀ err', AgreeOutput R err err' →
      (fromStructuredOutput R err').texts R = (fromStructuredOutput R err).texts R) ↔
      SealedOutput R err :=
  ⟨contentFree_iff hR, outputContentFree_iff hR⟩

end

/-! ## Two replies -/

/-- `Display` of the statuses below. -/
def reasonPhrase (status : ℕ) : Text :=
  if status = 403 then "Forbidden".toList
  else if status = 500 then "Internal Server Error".toList
  else "<unknown status code>".toList

/-- The words of rig before a reply body, and the fields of a stale key's reply. -/
def shownCrates : Crates where
  replyText _ _ status :=
    "ProviderResponseError: status ".toList ++ Nat.toDigits 10 status ++ " ".toList ++
      reasonPhrase status ++ ": ".toList
  fields body :=
    if body = "\x7b\"type\":\"access_blocked\"\x7d".toList then ⟨some "access_blocked", none⟩
    else ⟨none, none⟩
  debugStr text := '"' :: text ++ ['"']

def gatewayReply (status : ℕ) (body : String) : PromptError :=
  ⟨.provider, .other "ProviderResponse", some ⟨status, body.toList⟩, [], []⟩

/-- All the words that rig prints before a body. -/
def shownWords : Text :=
  "ProviderResponseError: status ".toList ++ " ".toList ++ "Forbidden".toList ++
    "Internal Server Error".toList ++ "<unknown status code>".toList ++ ": ".toList

theorem shownCrates_lacks {c : Char} (hdigit : c.isDigit = false) (hwords : c ∉ shownWords)
    (v : Variant) (k : ErrorKind) (status : ℕ) : c ∉ shownCrates.replyText v k status := by
  intro hc
  unfold shownWords at hwords
  simp only [List.mem_append, not_or] at hwords
  obtain ⟨⟨⟨⟨⟨hstart, hblank⟩, hforbidden⟩, hserver⟩, hunknown⟩, hend⟩ := hwords
  have hreason : c ∉ reasonPhrase status := by
    unfold reasonPhrase
    split_ifs
    · exact hforbidden
    · exact hserver
    · exact hunknown
  have hnumber : c ∉ Nat.toDigits 10 status := by
    intro hmem
    rw [Nat.isDigit_of_mem_toDigits (by decide) (by decide) hmem] at hdigit
    cases hdigit
  unfold shownCrates at hc
  simp only [List.mem_append] at hc
  tauto

theorem shownCrates_lawful : shownCrates.Lawful := by
  constructor
  · exact shownCrates_lacks (by decide) (by decide)
  · intro v k status
    exact ⟨"ProviderResponseError: status ".toList ++ Nat.toDigits 10 status ++ " ".toList ++
      reasonPhrase status ++ [':'], ' ', by rw [List.append_assoc]; rfl, by decide, by decide,
      by decide⟩
  · exact fun v k status =>
      ⟨'#', ⟨by decide, by decide, by decide⟩, shownCrates_lacks (by decide) (by decide) v k status⟩
  · intro body hfields
    have hbody : body = "\x7b\"type\":\"access_blocked\"\x7d".toList := by
      by_contra hne
      exact hfields (if_neg hne)
    rw [hbody]
    decide

theorem not_error_text_content_free :
    Agree shownCrates (gatewayReply 500 "#") (gatewayReply 500 "e") ∧
    (fromPromptError shownCrates (gatewayReply 500 "e")).texts shownCrates ≠
      (fromPromptError shownCrates (gatewayReply 500 "#")).texts shownCrates := by
  constructor
  · exact ⟨rfl, rfl, rfl, by decide, by decide, rfl, fun _ _ => rfl⟩
  · decide

/-- A blocked key is redacted whole, a short text is not. -/
theorem error_text_content_free_blocked :
    ContentFree shownCrates
      (gatewayReply 403 "\x7b\"type\":\"access_blocked\"\x7d") ∧
    ¬ ContentFree shownCrates (gatewayReply 500 "e") := by
  obtain ⟨hiff, -⟩ := error_text_content_free shownCrates_lawful
  constructor
  · apply (hiff _).2
    constructor
    · intro reply hreply
      cases hreply
      right
      decide
    · intro text _ link hlink
      cases hlink
  · intro hfree
    obtain hbody | hfields := ((hiff _).1 hfree).body ⟨500, "e".toList⟩ rfl
    · exact absurd hbody (by decide)
    · exact hfields rfl

end Cja.Llm
