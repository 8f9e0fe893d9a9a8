import Cja.Durable.Rig
import Cja.Lib.Replace
import Cja.Lib.Text

/-!
# The error taxonomy of the gateway

A failure that rig reports is classified by the status and the body of the reply it
keeps, or by the markers of the transport in its text. The error that comes out keeps
the failure as its source, behind a summary from which the known content is redacted
by replacing text.
-/
namespace Cja.Llm
open Cja.Durable Replace

def connectMarker : Text := "cja-llm transport connect:".toList

def timeoutMarker : Text := "cja-llm transport timeout:".toList

def identity403Body : String := "forbidden: caller identity could not be determined"

def admin403Body : String := "admin only"

def rigSourceSummary : Text :=
  ("the original error's text is withheld because it may " ++
    "contain model output or reply bodies; reach it via Error::prompt_error()").toList

/-! ## What rig reports -/

inductive Category
  | io
  | syntaxError
  | data
  | eof
deriving Repr, DecidableEq

def Category.debug : Category → String
  | .io => "Io"
  | .syntaxError => "Syntax"
  | .data => "Data"
  | .eof => "Eof"

/-- `serde_json::Error`; the message may print the value that does not fit. -/
structure SerdeError where
  message : Text
  category : Category
  line : ℕ
  column : ℕ
deriving Repr, DecidableEq

/-- Where the error is, as its `Display` says: nothing without a line. -/
def SerdeError.position (e : SerdeError) : Text :=
  if e.line = 0 then []
  else (" at line " ++ toString e.line ++ " column " ++ toString e.column).toList

def SerdeError.display (e : SerdeError) : Text := e.message ++ e.position

inductive Variant
  | provider
  | report
  | other (name : String)
deriving Repr, DecidableEq

inductive ErrorKind
  | http
  | other (name : String)
deriving Repr, DecidableEq

structure Reply where
  status : ℕ
  body : Text
deriving Repr, DecidableEq

/-- A failure with the provider reply that it keeps, and the serde errors that a walk of
its source chain meets. `text` is its `Display` where it keeps no reply. -/
structure PromptError where
  variant : Variant
  kind : ErrorKind
  reply : Option Reply
  text : Text
  serde : List SerdeError
deriving Repr, DecidableEq

/-- The fields of a reply body that the classification reads, where they are strings. -/
structure Fields where
  type : Option String
  error : Option String
deriving Repr, DecidableEq

/-- What the crates contribute: the text that rig prints before a reply body, the fields of
a JSON body, and the `Debug` of a string. -/
structure Crates where
  replyText : Variant → ErrorKind → ℕ → Text
  fields : Text → Fields
  debugStr : Text → Text

def PromptError.display (R : Crates) (err : PromptError) : Text :=
  match err.reply with
  | some reply => R.replyText err.variant err.kind reply.status ++ reply.body
  | none => err.text

/-! ## Sanitized errors -/

def redacted (text : Text) : Text :=
  ("<redacted " ++ toString (Text.byteLength text) ++ " bytes>").toList

def serdeSummary (e : SerdeError) : Text :=
  (e.category.debug ++ " error at line " ++ toString e.line ++ " column " ++
    toString e.column).toList

def redactBodies (redactions : List Text) (text : Text) : Text :=
  (redactions.filter fun redaction => !redaction.isEmpty).foldl
    (fun text redaction => replace redaction (redacted redaction) text) text

def redactSerde (links : List SerdeError) (text : Text) : Text :=
  links.foldl
    (fun text link =>
      if link.display.isEmpty then text else replace link.display (serdeSummary link) text) text

def sanitizePromptDisplay (R : Crates) (err : PromptError) (redactions : List Text) : Text :=
  redactSerde err.serde (redactBodies redactions (err.display R))

inductive Original
  | prompt (err : PromptError)
  | serde (err : SerdeError)

structure SanitizedError where
  summary : Text
  original : Original

def SanitizedError.fromPrompt (R : Crates) (err : PromptError) (redactions : List Text) :
    SanitizedError :=
  ⟨sanitizePromptDisplay R err redactions, .prompt err⟩

def SanitizedError.opaquePrompt (err : PromptError) : SanitizedError :=
  ⟨rigSourceSummary, .prompt err⟩

def SanitizedError.fromSerde (err : SerdeError) : SanitizedError :=
  ⟨serdeSummary err, .serde err⟩

def SanitizedError.display (e : SanitizedError) : Text := e.summary

def SanitizedError.debug (R : Crates) (e : SanitizedError) : Text := R.debugStr e.summary

/-! ## The error -/

inductive Error
  | identityRejected (body : Text) (source : SanitizedError)
  | budgetExceeded (body : Text) (source : SanitizedError)
  | adminOnly (body : Text) (source : SanitizedError)
  | upstream (status : ℕ) (body : Text) (source : SanitizedError)
  | timeout (source : SanitizedError)
  | connect (source : SanitizedError)
  | schemaParse (raw : Text) (error : SanitizedError)
  | emptyStructuredOutput
  | rig (source : SanitizedError)
  | config (message : String)

/-- The error without its content, as the durable engine sees it. -/
def Error.outline : Error → LlmError
  | .identityRejected .. => .identityRejected
  | .budgetExceeded .. => .budgetExceeded
  | .adminOnly .. => .adminOnly
  | .upstream status .. => .upstream status
  | .timeout _ => .timeout
  | .connect _ => .connect
  | .schemaParse .. => .schemaParse
  | .emptyStructuredOutput => .emptyStructuredOutput
  | .rig _ => .rig
  | .config message => .config message

def Error.source : Error → Option SanitizedError
  | .identityRejected _ source | .budgetExceeded _ source | .adminOnly _ source
  | .upstream _ _ source | .timeout source | .connect source | .schemaParse _ source
  | .rig source => some source
  | .emptyStructuredOutput | .config _ => none

def Error.display (e : Error) : Text := e.outline.display.toList

/-- A field that prints as its length. -/
def bytesField (text : Text) : Text := ("<" ++ toString (Text.byteLength text) ++ " bytes>").toList

def debugStruct (name : String) (fields : List (String × Text)) : Text :=
  name.toList ++ " \x7b ".toList ++
    (", ".toList).intercalate (fields.map fun field => field.1.toList ++ ": ".toList ++ field.2) ++
    " \x7d".toList

def Error.debug (R : Crates) : Error → Text
  | .identityRejected body source =>
      debugStruct "IdentityRejected" [("body", bytesField body), ("source", source.debug R)]
  | .budgetExceeded body source =>
      debugStruct "BudgetExceeded" [("body", bytesField body), ("source", source.debug R)]
  | .adminOnly body source =>
      debugStruct "AdminOnly" [("body", bytesField body), ("source", source.debug R)]
  | .upstream status body source =>
      debugStruct "Upstream" [("status", (toString status).toList), ("body", bytesField body),
        ("source", source.debug R)]
  | .timeout source => debugStruct "Timeout" [("source", source.debug R)]
  | .connect source => debugStruct "Connect" [("source", source.debug R)]
  | .schemaParse raw error =>
      debugStruct "SchemaParse" [("raw", bytesField raw), ("error", R.debugStr error.summary)]
  | .emptyStructuredOutput => "EmptyStructuredOutput".toList
  | .rig source => debugStruct "Rig" [("source", source.debug R)]
  | .config message => "Config(".toList ++ R.debugStr message.toList ++ ")".toList

/-! ## The classification -/

/-- The branches of a reply, in the order of the source. -/
def classifyReply (reply : Reply) (fields : Fields) (source : SanitizedError) : Error :=
  if reply.status = 402 then .budgetExceeded reply.body source
  else if (reply.status = 401 ∨ reply.status = 403) ∧
      (fields.type = some "access_not_found" ∨ fields.type = some "access_blocked") then
    .upstream reply.status reply.body source
  else if reply.status = 403 ∧ fields.error = some identity403Body then
    .identityRejected reply.body source
  else if reply.status = 403 ∧ fields.error = some admin403Body then .adminOnly reply.body source
  else .upstream reply.status reply.body source

def PromptError.isHttpTransport (err : PromptError) : Bool :=
  match err.variant with
  | .provider | .report => decide (err.kind = .http)
  | .other _ => false

def contains (text needle : Text) : Bool := text.tails.any needle.isPrefixOf

def fromPromptError (R : Crates) (err : PromptError) : Error :=
  match err.reply with
  | some reply =>
      classifyReply reply (R.fields reply.body) (.fromPrompt R err [reply.body])
  | none =>
      if err.isHttpTransport && contains (err.display R) connectMarker then
        .connect (.fromPrompt R err [])
      else if err.isHttpTransport && contains (err.display R) timeoutMarker then
        .timeout (.fromPrompt R err [])
      else .rig (.opaquePrompt err)

inductive StructuredOutputError
  | deserialization (output : Text) (error : SerdeError)
  | emptyResponse
  | prompt (err : PromptError)

/-- `From<StructuredOutputError>` -/
def fromStructuredOutput (R : Crates) : StructuredOutputError → Error
  | .deserialization output error => .schemaParse output (.fromSerde error)
  | .emptyResponse => .emptyStructuredOutput
  | .prompt err => fromPromptError R err

theorem contains_iff {text needle : Text} : contains text needle = true ↔ needle <:+: text := by
  rw [contains, List.any_eq_true]
  constructor
  · intro h
    obtain ⟨tail, htail, hpre⟩ := h
    obtain ⟨before, rfl⟩ := (List.mem_tails ..).1 htail
    obtain ⟨behind, rfl⟩ := List.isPrefixOf_iff_prefix.1 hpre
    exact ⟨before, behind, List.append_assoc ..⟩
  · intro h
    obtain ⟨before, behind, rfl⟩ := h
    refine ⟨needle ++ behind, (List.mem_tails ..).2 ⟨before, (List.append_assoc ..).symm⟩, ?_⟩
    exact List.isPrefixOf_iff_prefix.2 (List.prefix_append ..)

end Cja.Llm
