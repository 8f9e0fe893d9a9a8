import Cja.Cron.ExactlyOnce

/-!
# The tables `agent_runs` and `agent_messages`, and the statements of the engine

Each statement of `durable/db.rs` is a function on one run row: `none` where its
`WHERE` clause does not match, otherwise the row it leaves. A statement that
projects transcript rows inserts them in the same transaction, and only where it
matched. `NOW()` is an argument. The JSON values of the run state and of the
messages are a type parameter, since no statement looks inside them.
-/
namespace Cja.Durable

open Jobs (Uuid)

/-- The UUID text an attempt writes to `agent_runs.locked_by`, fresh per attempt. -/
abbrev LeaseToken := ℕ

inductive RunStatus
  | queued
  | running
  | waiting
  | succeeded
  | failed
  | cancelled
deriving Repr, DecidableEq

def RunStatus.terminal : RunStatus → Bool
  | .succeeded | .failed | .cancelled => true
  | _ => false

inductive FailReason
  | turnBudget
  | tokenBudget
  | unknownKind
  | corruptState
  | gateway
  | protocol
  | unstorableContent
deriving Repr, DecidableEq

/-- A row without its primary key `id`, which the table maps to it. -/
structure RunRow (J : Type) where
  kind : String
  status : RunStatus
  input : String
  output : Option String
  error : Option String
  failReason : Option FailReason
  model : String
  app : String
  turns : ℕ
  inputTokens : ℕ
  outputTokens : ℕ
  runState : J
  pendingCallId : Option String
  pendingQuestion : Option String
  cancelRequested : Bool
  lockedBy : Option LeaseToken
  lockedAt : Option ℕ
  createdAt : ℕ
  startedAt : Option ℕ
  finishedAt : Option ℕ

inductive Role
  | system
  | user
  | assistant
deriving Repr, DecidableEq

structure MessageRow (J : Type) where
  seq : ℕ
  role : Role
  message : J

variable {J : Type}

/-- `CONSTRAINT waiting_has_pending_ask`. -/
def RunRow.waitingHasPendingAsk (r : RunRow J) : Bool :=
  (r.status == .waiting) == (r.pendingCallId.isSome && r.pendingQuestion.isSome)

structure NewRun (J : Type) where
  kind : String
  input : String
  model : String
  app : String
  runState : J
  createdAt : ℕ

/-- The columns the `INSERT` of `start` leaves out take their defaults. -/
def NewRun.row (n : NewRun J) : RunRow J where
  kind := n.kind
  status := .queued
  input := n.input
  output := none
  error := none
  failReason := none
  model := n.model
  app := n.app
  turns := 0
  inputTokens := 0
  outputTokens := 0
  runState := n.runState
  pendingCallId := none
  pendingQuestion := none
  cancelRequested := false
  lockedBy := none
  lockedAt := none
  createdAt := n.createdAt
  startedAt := none
  finishedAt := none

/-- What a persisting or terminal write stores of the run. -/
structure RunSnapshot (J : Type) where
  runState : J
  turns : ℕ
  inputTokens : ℕ
  outputTokens : ℕ

def cancelledByRequest : String := "cancelled by request"

/-- The status, reason, output and error that the callers of `finish` pass. -/
inductive Ending
  | succeeded (output : String)
  | failed (reason : FailReason) (message : String)
  | cancelled
deriving Repr, DecidableEq

namespace Ending

def status : Ending → RunStatus
  | succeeded _ => .succeeded
  | failed _ _ => .failed
  | cancelled => .cancelled

def failReason : Ending → Option FailReason
  | failed reason _ => some reason
  | _ => none

def output : Ending → Option String
  | succeeded output => some output
  | _ => none

def error : Ending → Option String
  | succeeded _ => none
  | failed _ message => some message
  | cancelled => some cancelledByRequest

end Ending

/-! ## The statements -/

namespace RunRow

/-- `locked_by = $2 AND status = 'running'`. -/
def leasedBy (me : LeaseToken) (r : RunRow J) : Bool :=
  r.lockedBy == some me && r.status == .running

/-- Whether the lease is older than the takeover window. -/
def staleAt (now takeover : ℕ) (r : RunRow J) : Bool :=
  r.lockedAt.any fun t => t + takeover < now

def failUnstorable (me : LeaseToken) (code : String) (now : ℕ) (r : RunRow J) :
    Option (RunRow J) :=
  if r.leasedBy me then
    some { r with
      status := .failed
      failReason := some .unstorableContent
      error := some ("run content cannot be stored (SQLSTATE " ++ code ++ ")")
      lockedBy := none
      lockedAt := none
      finishedAt := some now }
  else none

def claimable (now takeover : ℕ) (r : RunRow J) : Bool :=
  r.status == .queued ||
    (r.status == .running && (r.lockedBy.isNone || r.staleAt now takeover))

def tryClaim (me : LeaseToken) (takeover now : ℕ) (r : RunRow J) : Option (RunRow J) :=
  if r.claimable now takeover then
    some { r with
      status := .running
      lockedBy := some me
      lockedAt := some now
      startedAt := r.startedAt.or (some now) }
  else none

def releaseLease (me : LeaseToken) (r : RunRow J) : Option (RunRow J) :=
  if r.leasedBy me then some { r with lockedBy := none, lockedAt := none } else none

def heartbeat (me : LeaseToken) (now : ℕ) (r : RunRow J) : Option (RunRow J) :=
  if r.leasedBy me then some { r with lockedAt := some now } else none

def persistStep (me : LeaseToken) (snap : RunSnapshot J) (now : ℕ) (r : RunRow J) :
    Option (RunRow J) :=
  if r.leasedBy me then
    some { r with
      runState := snap.runState
      turns := snap.turns
      inputTokens := snap.inputTokens
      outputTokens := snap.outputTokens
      lockedAt := some now }
  else none

/-- The row parks, or finishes `cancelled` where a cancel was requested. -/
def setWaiting (me : LeaseToken) (runState : J) (callId question : String) (now : ℕ)
    (r : RunRow J) : Option (RunRow J) :=
  if r.leasedBy me then
    some { r with
      status := if r.cancelRequested then .cancelled else .waiting
      runState := runState
      pendingCallId := if r.cancelRequested then none else some callId
      pendingQuestion := if r.cancelRequested then none else some question
      lockedBy := none
      lockedAt := none
      finishedAt := if r.cancelRequested then some now else r.finishedAt
      error := if r.cancelRequested then some cancelledByRequest else r.error }
  else none

def finish (me : LeaseToken) (ending : Ending) (snap : RunSnapshot J) (now : ℕ)
    (r : RunRow J) : Option (RunRow J) :=
  if r.leasedBy me then
    some { r with
      status := ending.status
      failReason := ending.failReason
      output := ending.output
      error := ending.error
      runState := snap.runState
      turns := snap.turns
      inputTokens := snap.inputTokens
      outputTokens := snap.outputTokens
      lockedBy := none
      lockedAt := none
      finishedAt := some now }
  else none

def answerWaiting (runState : J) (r : RunRow J) : Option (RunRow J) :=
  if r.status = .waiting then
    some { r with
      status := .running
      runState := runState
      pendingCallId := none
      pendingQuestion := none
      lockedBy := none
      lockedAt := none }
  else none

end RunRow

inductive CancelAction
  | cancelNow
  | request
  | noop
  | terminal
deriving Repr, DecidableEq

def RunRow.cancelAction (takeover now : ℕ) (r : RunRow J) : CancelAction :=
  match r.status with
  | .queued | .waiting => .cancelNow
  | .running =>
      if r.lockedBy.isNone || r.lockedAt.isNone || r.staleAt now takeover then .cancelNow
      else .request
  | .cancelled => .noop
  | .succeeded | .failed => .terminal

/-- Every existing row is written; `noop` and `terminal` rewrite its own values. -/
def RunRow.cancelRun (takeover now : ℕ) (r : RunRow J) : RunRow J :=
  let cancel : Bool := r.cancelAction takeover now == .cancelNow
  { r with
    status := if cancel then .cancelled else r.status
    pendingCallId := if cancel then none else r.pendingCallId
    pendingQuestion := if cancel then none else r.pendingQuestion
    lockedBy := if cancel then none else r.lockedBy
    lockedAt := if cancel then none else r.lockedAt
    cancelRequested := if r.cancelAction takeover now == .request then true else r.cancelRequested
    finishedAt := if cancel then some now else r.finishedAt }

/-! ## Transcript rows -/

/-- `INSERT .. ON CONFLICT (run_id, seq) DO NOTHING`, row by row. -/
def insertMessages (rows new : List (MessageRow J)) : List (MessageRow J) :=
  new.foldl (fun t m => if t.any fun q => q.seq == m.seq then t else t ++ [m]) rows

/-- `SELECT COALESCE(MAX(seq) + 1, 0)`. -/
def nextMessageSeq (rows : List (MessageRow J)) : ℕ :=
  rows.foldl (fun n m => max n (m.seq + 1)) 0

/-! ## Transactions -/

/-- A transaction on one run: its conditional update, and the rows it inserts. -/
inductive Tx (J : Type)
  | failUnstorable (me : LeaseToken) (code : String)
  | tryClaim (me : LeaseToken) (takeover : ℕ)
  | releaseLease (me : LeaseToken)
  | heartbeat (me : LeaseToken)
  | persistStep (me : LeaseToken) (snap : RunSnapshot J) (newMessages : List (MessageRow J))
  | setWaiting (me : LeaseToken) (runState : J) (callId question : String)
      (newMessages : List (MessageRow J))
  | finish (me : LeaseToken) (ending : Ending) (snap : RunSnapshot J)
      (newMessages : List (MessageRow J))
  | answerWaiting (runState : J) (newMessages : List (MessageRow J))
  | cancelRun (takeover : ℕ)

namespace Tx

def update (now : ℕ) : Tx J → RunRow J → Option (RunRow J)
  | failUnstorable me code, r => r.failUnstorable me code now
  | tryClaim me takeover, r => r.tryClaim me takeover now
  | releaseLease me, r => r.releaseLease me
  | heartbeat me, r => r.heartbeat me now
  | persistStep me snap _, r => r.persistStep me snap now
  | setWaiting me runState callId question _, r => r.setWaiting me runState callId question now
  | finish me ending snap _, r => r.finish me ending snap now
  | answerWaiting runState _, r => r.answerWaiting runState
  | cancelRun takeover, r => some (r.cancelRun takeover now)

def newMessages : Tx J → List (MessageRow J)
  | persistStep _ _ rows | setWaiting _ _ _ _ rows | finish _ _ _ rows | answerWaiting _ rows =>
      rows
  | _ => []

end Tx

structure Db (J : Type) where
  runs : Uuid → Option (RunRow J)
  messages : Uuid → List (MessageRow J)

def Db.empty : Db J := ⟨fun _ => none, fun _ => []⟩

def Db.setRun (db : Db J) (id : Uuid) (r : RunRow J) : Db J :=
  { db with runs := Function.update db.runs id (some r) }

def Db.addMessages (db : Db J) (id : Uuid) (rows : List (MessageRow J)) : Db J :=
  { db with messages := Function.update db.messages id (insertMessages (db.messages id) rows) }

/-- `INSERT INTO agent_runs`; refused where the id is taken. -/
def Db.insertRun (db : Db J) (id : Uuid) (n : NewRun J) : Option (Db J) :=
  if (db.runs id).isNone && n.row.waitingHasPendingAsk then some (db.setRun id n.row) else none

/-- The row the transaction leaves, if it matched one; the outer `none` is a
row that the constraint rejects, and a rollback. -/
def Db.exec (db : Db J) (id : Uuid) (tx : Tx J) (now : ℕ) : Option (Db J × Option (RunRow J)) :=
  match (db.runs id).bind (tx.update now) with
  | none => some (db, none)
  | some r =>
      if r.waitingHasPendingAsk then
        some ((db.setRun id r).addMessages id tx.newMessages, some r)
      else none

end Cja.Durable
