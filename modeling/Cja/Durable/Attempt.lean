import Cja.Durable.Rig

/-!
# One job attempt of a run

`Advance` says where `advance_run` stands: before its claim is answered, driving
the run, or on its way out. Between two database statements, model replies and
tool results the code is a pure function, and each such stretch is one function
here; the transaction a point waits for is `Advance.tx`, what its answer and its
error lead to `Advance.answered` and `Advance.errored`.
-/
namespace Cja.Durable

open Jobs (Uuid)

/-- What a persist that landed leads to. -/
inductive Next (R : Rig)
  | callModel (prepared : R.Prepared) (request : R.Request)
  | checkBudget
  | callTools (rest : List R.Call)
  | succeed (output : String)

/-- A transaction that stores the run, from the projection of its messages on. -/
inductive Write (R : Rig)
  | persist (run : R.AgentRun) (advanced : Bool) (next : Next R)
  | suspend (run : R.AgentRun) (callId question : String)
  /-- `direct`: its error goes to `fail_retryable` whatever the progress. -/
  | finish (run : R.AgentRun) (ending : Ending) (direct : Bool)

/-- A step future under the lease guards. -/
inductive Guarded (R : Rig)
  | model (run : R.AgentRun) (prepared : R.Prepared) (request : R.Request)
  | tool (run : R.AgentRun) (exec : R.ExecCall) (rest : List R.Call)

inductive Stage (R : Rig)
  /-- The top of the driver loop. -/
  | top (run : R.AgentRun)
  /-- `project_messages` reads the high-water mark. -/
  | projecting (w : Write R)
  | writing (w : Write R) (newMessages : List (MessageRow Json))
  /-- `fail_unstorable`, after a write that cannot be stored. -/
  | failing (code : String) (direct : Bool)
  | guarded (g : Guarded R)
  /-- The heartbeat of the guards; the step future is not polled meanwhile. -/
  | beating (g : Guarded R)
  /-- Invalid tool calls wait for `resolve_unhandled_invalid_tool_call`. -/
  | resolving (run : R.AgentRun)
  /-- The guards release the lease at shutdown. -/
  | abandoning
  /-- `requeue_with_fresh_job`. -/
  | requeueing

/-- The source's `Attempt`, without the handles it carries. -/
structure Attempt where
  kind : AgentKind
  model : String
  progress : Bool
deriving Repr, DecidableEq

inductive Advance (R : Rig)
  /-- `try_claim` is in flight. -/
  | claiming
  /-- `current_status`, after a claim that matched nothing. -/
  | checking
  /-- The terminal write of a claim that is not fit to drive. -/
  | closing (ending : Ending) (snap : RunSnapshot Json)
  | closingFails (code : String)
  | driving (attempt : Attempt) (stage : Stage R)
  /-- `fail_retryable` releases the lease before the error returns. -/
  | releasing
  | returned (ok : Bool)

variable {R : Rig}

def Write.run : Write R → R.AgentRun
  | persist run _ _ | suspend run _ _ | finish run _ _ => run

def Guarded.run : Guarded R → R.AgentRun
  | model run _ _ | tool run _ _ => run

def Ask.name : String := "ask"

/-! ## The pure stretches -/

namespace Stage

/-- `fail_terminal`. -/
def failTerminal (run : R.AgentRun) (error : PromptError) (direct : Bool) : Stage R :=
  .projecting (.finish run
    (.failed (sanitizePromptError error).1 (sanitizePromptError error).2) direct)

/-- `persist(run, true)` after an answer, or the error of the answer. -/
def answeredCall (rest : List R.Call) : R.AgentRun × Except PromptError Unit → Stage R
  | (run, .ok ()) => .projecting (.persist run true (.callTools rest))
  | (run, .error error) => failTerminal run error false

/-- `ask_step`: its persist returns to the driver loop, as an empty batch does. -/
def askStep (run : R.AgentRun) (exec : R.ExecCall) : Stage R :=
  match R.askArgs exec with
  | some question => .projecting (.suspend run (R.callId exec) (replaceNuls question))
  | none =>
      answeredCall [] (R.answerExec run exec (R.invalidArgs "ask requires a string `question`"))

/-- One turn of the loop of `call_tools_step`. -/
def callToolsStep (run : R.AgentRun) : List R.Call → Stage R
  | [] => .top run
  | .execute exec :: rest =>
      if R.callName exec = Ask.name then askStep run exec else .guarded (.tool run exec rest)
  | .malformed call :: rest => answeredCall rest (R.answerMalformed run call)

/-- `advertise_tools` and `set_previous_model`, before the model is called. -/
def checkpoint (a : Attempt) (run : R.AgentRun) (turn : ℕ) (prepared : R.Prepared) : R.AgentRun :=
  R.setPreviousModel (R.advertiseTools run turn prepared) a.model

/-- `call_model_step_inner` up to the persist before the call. -/
def callModelStep (a : Attempt) (run : R.AgentRun) (prompt : R.Message)
    (history : List R.Message) (turn : ℕ) : Stage R :=
  match R.prepareRequest a.kind a.model history (R.outputToolName run) with
  | .error message =>
      .projecting (.finish run
        (.failed .protocol ("request preparation failed: " ++ message)) false)
  | .ok prepared =>
      .projecting (.persist (checkpoint a run turn prepared) false
        (.callModel prepared (R.applyTo prepared prompt)))

/-- The driver loop from its top: the next step of the run. -/
def drive (a : Attempt) (run : R.AgentRun) : Stage R :=
  match R.nextStep run with
  | (run, .error error) => failTerminal run error true
  | (run, .ok (.callModel prompt history turn)) => callModelStep a run prompt history turn
  | (run, .ok (.callTools calls)) => callToolsStep run calls
  | (run, .ok (.done output)) => .projecting (.persist run false (.succeed output))

/-- A model response, or the resolution of its invalid calls. -/
def settle : R.AgentRun × Except PromptError ModelTurnOutcome → Stage R
  | (run, .error error) => failTerminal run error false
  | (run, .ok .needsResolution) => .resolving run
  | (run, .ok .settled) => .projecting (.persist run true .checkBudget)

/-- What a persist that found no cancel continues with. -/
def proceed (a : Attempt) (run : R.AgentRun) : Next R → Stage R
  | .callModel prepared request => .guarded (.model run prepared request)
  | .checkBudget =>
      if a.kind.maxTotalTokens < R.totalTokens run then
        .projecting (.finish run (.failed .tokenBudget "token budget exceeded") false)
      else .top run
  | .callTools rest => callToolsStep run rest
  | .succeed output => .projecting (.finish run (.succeeded output) false)

end Stage

namespace Advance

/-- `retry_or_requeue`. -/
def retry (a : Attempt) : Advance R :=
  if a.progress then .driving a .requeueing else .releasing

/-- Where the error of a terminal write goes. -/
def giveUp (a : Attempt) (direct : Bool) : Advance R :=
  if direct then .releasing else retry a

/-- What `claim_and_validate` makes of the row it claimed. -/
def claimed (cfg : Config) (row : RunRow Json) : Advance R :=
  let snap : RunSnapshot Json := ⟨row.runState, row.turns, row.inputTokens, row.outputTokens⟩
  if row.cancelRequested then .closing .cancelled snap
  else match cfg.kindNamed row.kind, R.fromValue row.runState with
    | none, _ => .closing (.failed .unknownKind ("unknown agent kind `" ++ row.kind ++ "`")) snap
    | some _, .error position =>
        .closing (.failed .corruptState ("run state failed to deserialize " ++ position)) snap
    | some kind, .ok run => .driving ⟨kind, row.model, false⟩ (.top run)

/-- A write that landed; `row` is what it left. -/
def landed (a : Attempt) (row : RunRow Json) : Write R → Advance R
  | .persist run advanced next =>
      let a : Attempt := { a with progress := a.progress || advanced }
      if row.cancelRequested then .driving a (.projecting (.finish run .cancelled false))
      else .driving a (Stage.proceed a run next)
  | .suspend _ _ _ | .finish _ _ _ => .returned true

end Advance

/-! ## Statements -/

def Write.tx (me : LeaseToken) (newMessages : List (MessageRow Json)) : Write R → Tx Json
  | persist run _ _ => .persistStep me (R.snapshot run) newMessages
  | suspend run callId question => .setWaiting me (R.toValue run) callId question newMessages
  | finish run ending _ => .finish me ending (R.snapshot run) newMessages

def Write.direct : Write R → Bool
  | finish _ _ direct => direct
  | _ => false

namespace Advance

/-- The transaction in flight. -/
def tx (cfg : Config) (me : LeaseToken) : Advance R → Option (Tx Json)
  | claiming => some (.tryClaim me cfg.leaseTakeover)
  | closing ending snap => some (.finish me ending snap [])
  | closingFails code => some (.failUnstorable me code)
  | driving _ (.writing w rows) => some (w.tx me rows)
  | driving _ (.failing code _) => some (.failUnstorable me code)
  | driving _ (.beating _) => some (.heartbeat me)
  | driving _ .abandoning | driving _ .requeueing | releasing => some (.releaseLease me)
  | _ => none

/-- Whether the transaction in flight also inserts a job. -/
def enqueues : Advance R → Bool
  | driving _ .requeueing => true
  | _ => false

/-- The transaction is committed and answered with the row it left, if any. -/
def answered (cfg : Config) (ret : Option (RunRow Json)) : Advance R → Advance R
  | claiming => match ret with
    | some row => claimed cfg row
    | none => .checking
  | driving a (.writing w _) => match ret with
    | some row => landed a row w
    | none => .returned true
  | driving a (.beating g) => match ret with
    | none => .returned true
    | some row =>
        if row.cancelRequested then .driving a (.projecting (.finish g.run .cancelled false))
        else .driving a (.guarded g)
  | driving a .abandoning => retry a
  | closing _ _ | closingFails _ | driving _ (.failing _ _) | driving _ .requeueing =>
      .returned true
  | releasing => .returned false
  | other => other

/-- The statement or the read in flight ends in an error or a timeout. -/
def errored : Advance R → Advance R
  | driving a (.projecting w) | driving a (.writing w _) => giveUp a w.direct
  | driving a (.failing _ direct) => giveUp a direct
  | driving a (.beating _) | driving a .abandoning => retry a
  | releasing => .returned false
  | claiming | checking | closing _ _ | closingFails _ | driving _ .requeueing => .releasing
  | other => other

/-- The database rejects a write as unstorable. -/
def rejected (code : String) : Advance R → Option (Advance R)
  | driving a (.writing w _) => some (.driving a (.failing code w.direct))
  | closing _ _ => some (.closingFails code)
  | _ => none

/-- Whether an error can answer here. -/
def awaits (cfg : Config) (me : LeaseToken) : Advance R → Bool
  | checking | driving _ (.projecting _) => true
  | other => (other.tx cfg me).isSome

end Advance

/-! ## Inputs other than the database's -/

inductive Input (R : Rig)
  /-- The code runs on where it waits for nothing. -/
  | proceed
  | shutdown
  /-- The heartbeat interval of the guards elapsed. -/
  | tick
  | reply (response : Except LlmError R.ModelResponse)
  | toolReturns (result : R.ToolResult)

/-- The guarded model call returned. -/
def Stage.replied (run : R.AgentRun) (prepared : R.Prepared) :
    Except LlmError R.ModelResponse → Stage R
  | .ok response => settle (R.modelResponse run prepared response)
  | .error e => .projecting (.finish run (.failed .gateway e.display) false)

/-- The guarded tool returned. -/
def Stage.toolReturned (run : R.AgentRun) (exec : R.ExecCall) (rest : List R.Call)
    (result : R.ToolResult) : Stage R :=
  answeredCall rest (R.answerExec run exec (R.sanitizeToolResult result))

def Advance.input : Input R → Advance R → Option (Advance R)
  | .proceed, driving a (.top run) => some (.driving a (Stage.drive a run))
  | .proceed, driving a (.resolving run) =>
      some (.driving a (Stage.settle (R.resolveUnhandledInvalidToolCall run)))
  | .shutdown, driving a (.top _) => some (retry a)
  | .shutdown, driving a (.guarded _) => some (.driving a .abandoning)
  | .tick, driving a (.guarded g) => some (.driving a (.beating g))
  | .reply (.ok response), driving a (.guarded (.model run prepared _)) =>
      some (.driving a (Stage.replied run prepared (.ok response)))
  | .reply (.error e), driving a (.guarded (.model run prepared _)) =>
      some (if isRetryable e then retry a
        else .driving a (Stage.replied run prepared (.error e)))
  | .toolReturns result, driving a (.guarded (.tool run exec rest)) =>
      some (.driving a (Stage.toolReturned run exec rest result))
  | _, _ => none

end Cja.Durable
