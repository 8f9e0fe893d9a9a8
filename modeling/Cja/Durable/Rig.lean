import Cja.Durable.RowInvariant

/-!
# What the engine uses of rig

The crates `rig-agent` and `rig-core` are a parameter: `Rig` names the types and
the operations of `AgentRun`, of tool calls and of requests that the engine
calls. An operation on `&mut AgentRun` returns the run it leaves, also where it
fails. The functions after it are the engine's own views of a run.
-/
namespace Cja.Durable

/-! ## JSON values and U+0000 -/

/-- `serde_json::Value`; a number is its text. -/
inductive Json
  | null
  | bool (b : Bool)
  | number (text : String)
  | string (text : String)
  | array (items : List Json)
  | object (members : List (String × Json))

def nul : Char := Char.ofNat 0

def replacementCharacter : Char := Char.ofNat 65533

def hasNul (text : String) : Bool := text.toList.contains nul

def replaceNuls (text : String) : String :=
  if hasNul text then
    String.ofList (text.toList.map fun c => if c = nul then replacementCharacter else c)
  else text

/-- A `serde_json::Map` has its members sorted by key or, with the feature
`preserve_order`, as they came. -/
inductive MapOrder
  | sorted
  | inserted
deriving Repr, DecidableEq

namespace Json

/-- `Map::insert`: a key in place gets the new value. -/
def insertMember (order : MapOrder) (key : String) (value : Json) :
    List (String × Json) → List (String × Json)
  | [] => [(key, value)]
  | m :: ms =>
      if key = m.1 then (key, value) :: ms
      else if order = .sorted ∧ key < m.1 then (key, value) :: m :: ms
      else m :: insertMember order key value ms

mutual

def jsonHasNul : Json → Bool
  | string text => hasNul text
  | array items => itemsHaveNul items
  | object members => membersHaveNul members
  | _ => false

def itemsHaveNul : List Json → Bool
  | [] => false
  | v :: vs => jsonHasNul v || itemsHaveNul vs

def membersHaveNul : List (String × Json) → Bool
  | [] => false
  | m :: ms => (hasNul m.1 || jsonHasNul m.2) || membersHaveNul ms

end

mutual

def sanitizeJsonNuls (order : MapOrder) : Json → Json
  | string text => string (replaceNuls text)
  | array items => array (sanitizeItems order items)
  | object members => object (sanitizeMembers order [] members)
  | other => other

def sanitizeItems (order : MapOrder) : List Json → List Json
  | [] => []
  | v :: vs => sanitizeJsonNuls order v :: sanitizeItems order vs

/-- `collect` inserts the members one by one into the map built so far. -/
def sanitizeMembers (order : MapOrder) (map : List (String × Json)) :
    List (String × Json) → List (String × Json)
  | [] => map
  | m :: ms =>
      sanitizeMembers order (insertMember order (replaceNuls m.1) (sanitizeJsonNuls order m.2) map) ms

end

end Json

/-! ## Agent kinds -/

/-- `AgentKind` without its builder, which the operations of `Rig` stand for. -/
structure AgentKind where
  name : String
  model : String
  maxTurns : ℕ
  maxTotalTokens : ℕ
deriving Repr, DecidableEq

structure Config where
  kinds : List AgentKind
  appName : String
  leaseTakeover : ℕ

def Config.kindNamed (cfg : Config) (name : String) : Option AgentKind :=
  cfg.kinds.find? fun kind => kind.name == name

/-! ## Errors -/

/-- The variants of rig's error that the engine tells apart. -/
inductive PromptError
  | maxTurns
  | cancelled
  | unknownToolCall
  | provider
  | report
  | memory
  | other
deriving Repr, DecidableEq

def sanitizePromptError : PromptError → FailReason × String
  | .maxTurns => (.turnBudget, "turn budget exhausted")
  | .cancelled => (.protocol, "run cancelled")
  | .unknownToolCall => (.protocol, "model called an unknown or disallowed tool")
  | .provider => (.protocol, "provider rejected the turn")
  | .report => (.protocol, "structured effect failure")
  | .memory => (.protocol, "conversation memory failure")
  | .other => (.protocol, "run failed")

/-- `crate::Error`, with the data its `Display` and its classification read. -/
inductive LlmError
  | identityRejected
  | budgetExceeded
  | adminOnly
  | upstream (status : ℕ)
  | timeout
  | connect
  | schemaParse
  | emptyStructuredOutput
  | rig
  | config (message : String)
deriving Repr, DecidableEq

def LlmError.display : LlmError → String
  | identityRejected => "gateway could not identify this node's tailnet identity; check the " ++
      "tailnet policy grant that lets this node reach llm:443 (e.g. a grant to tag:llm on port 443)"
  | budgetExceeded => "monthly budget exceeded for this app's tailnet identity (HTTP 402)"
  | adminOnly => "admin-only gateway route; cja-llm only uses POST /v1/chat/completions"
  | upstream status => "upstream provider error (HTTP " ++ toString status ++ ")"
  | timeout => "gateway request timed out; the gateway may still have billed the attempt"
  | connect => "could not reach the gateway; is this node on the tailnet with a policy grant to " ++
      "llm:443 (tag:llm on port 443)?"
  | schemaParse => "structured output did not parse"
  | emptyStructuredOutput => "the model returned no structured output"
  | rig => "rig reported an error; the original is preserved and available via " ++
      "Error::prompt_error()"
  | config message => "invalid cja-llm configuration: " ++ message

def isRetryable : LlmError → Bool
  | .connect => true
  | .upstream status => status == 429 || 500 ≤ status
  | _ => false

/-! ## The crates -/

/-- `PendingToolCall`. -/
inductive PendingToolCall (E M : Type)
  | execute (exec : E)
  | malformed (call : M)

/-- `AgentRunStep`. -/
inductive AgentRunStep (Message E M : Type)
  | callModel (prompt : Message) (history : List Message) (turn : ℕ)
  | callTools (calls : List (PendingToolCall E M))
  | done (output : String)

/-- `ModelTurnOutcome`, up to whether it asks for a resolution. -/
inductive ModelTurnOutcome
  | needsResolution
  | settled
deriving Repr, DecidableEq

structure Rig where
  AgentRun : Type
  Message : Type
  ExecCall : Type
  MalformedCall : Type
  ToolResult : Type
  /-- A prepared request, with the tools it advertises and its policy. -/
  Prepared : Type
  Request : Type
  ModelResponse : Type
  messages : AgentRun → List Message
  messageRole : Message → Role
  messageValue : Message → Json
  turn : AgentRun → ℕ
  inputTokens : AgentRun → Option ℕ
  outputTokens : AgentRun → Option ℕ
  outputToolName : AgentRun → Option String
  toValue : AgentRun → Json
  /-- The error is the position that the engine reports. -/
  fromValue : Json → Except String AgentRun
  /-- `AgentRun::from_spec(..).max_turns(..)` on the spec a kind builds. -/
  fromSpec : AgentKind → String → AgentRun
  hasOutputSchema : AgentKind → Bool
  nextStep : AgentRun → AgentRun × Except PromptError (AgentRunStep Message ExecCall MalformedCall)
  /-- `prepare_request` with the spec, the capabilities and the tools that a kind
  and a model build. -/
  prepareRequest : AgentKind → String → List Message → Option String → Except String Prepared
  applyTo : Prepared → Message → Request
  advertiseTools : AgentRun → ℕ → Prepared → AgentRun
  setPreviousModel : AgentRun → String → AgentRun
  modelResponse : AgentRun → Prepared → ModelResponse → AgentRun × Except PromptError ModelTurnOutcome
  resolveUnhandledInvalidToolCall : AgentRun → AgentRun × Except PromptError ModelTurnOutcome
  callId : ExecCall → String
  callName : ExecCall → String
  /-- The question of `AskArgs`, where the arguments parse. -/
  askArgs : ExecCall → Option String
  answerExec : AgentRun → ExecCall → ToolResult → AgentRun × Except PromptError Unit
  answerMalformed : AgentRun → MalformedCall → AgentRun × Except PromptError Unit
  mapOrder : MapOrder
  textResult : String → ToolResult
  invalidArgs : String → ToolResult
  asText : ToolResult → Option String
  asJson : ToolResult → Option Json
  withText : ToolResult → String → ToolResult
  withJson : ToolResult → Json → ToolResult

namespace Rig

variable (R : Rig)

abbrev Call := PendingToolCall R.ExecCall R.MalformedCall

abbrev Step := AgentRunStep R.Message R.ExecCall R.MalformedCall

/-- `sanitize_tool_result`. -/
def sanitizeToolResult (result : R.ToolResult) : R.ToolResult :=
  match R.asText result, R.asJson result with
  | some text, _ => if hasNul text then R.withText result (replaceNuls text) else result
  | none, some json =>
      if json.jsonHasNul then R.withJson result (json.sanitizeJsonNuls R.mapOrder) else result
  | none, none => result

/-- The tokens the usage of the run reports. -/
def tokens (run : R.AgentRun) : ℕ :=
  (R.inputTokens run).getD 0 + (R.outputTokens run).getD 0

/-- `total_tokens`: the two counts are added as `u64`. -/
def totalTokens (run : R.AgentRun) : ℕ :=
  -- a build with overflow checks panics where this wraps
  R.tokens run % 2 ^ 64

theorem totalTokens_eq {run : R.AgentRun} (h : R.tokens run < 2 ^ 64) :
    R.totalTokens run = R.tokens run :=
  Nat.mod_eq_of_lt h

/-- `RunSnapshot::of`. -/
def snapshot (run : R.AgentRun) : RunSnapshot Json where
  runState := R.toValue run
  turns := min (R.turn run) Jobs.i32Max
  inputTokens := min ((R.inputTokens run).getD 0) Jobs.i64Max
  outputTokens := min ((R.outputTokens run).getD 0) Jobs.i64Max

def messageRow (seq : ℕ) (message : R.Message) : MessageRow Json :=
  ⟨seq, R.messageRole message, R.messageValue message⟩

/-- `project_rows`: the messages not yet written, numbered from `written`. -/
def projectRows (written : ℕ) (run : R.AgentRun) : List (MessageRow Json) :=
  ((R.messages run).drop written).mapIdx fun i message => R.messageRow (written + i) message

end Rig

end Cja.Durable
