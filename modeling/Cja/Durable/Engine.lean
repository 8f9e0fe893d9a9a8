import Cja.Durable.Attempt

/-!
# The durable engine

Any number of attempts and callers share the two tables. A transaction of an
attempt commits and is answered, or ends in an error that the attempt sees while
the database has applied it or not; a single statement may also stay in flight
behind its error and be applied later. An attempt can vanish at any point, with
the same three fates for what it has in flight. Attempts begin at any time here;
the queue that starts them comes later.
-/
namespace Cja.Durable

open Jobs (Uuid)

/-- A statement that nobody awaits. -/
structure LateTx where
  run : Uuid
  tx : Tx Json
  enqueues : Bool

structure JobAttempt (R : Rig) where
  run : Uuid
  pc : Advance R

/-- `issued` holds the lease tokens `Uuid::new_v4` has given out, which never
repeat. -/
structure Engine (R : Rig) where
  db : Db Json
  attempts : LeaseToken → Option (JobAttempt R)
  issued : List LeaseToken
  late : List LateTx

def Engine.init {R : Rig} : Engine R := ⟨.empty, fun _ => none, [], []⟩

/-- What became of a statement that ended in an error. -/
inductive Fate
  | lost
  | applied
  | left
deriving Repr, DecidableEq

inductive Event
  /-- The transaction inserted an `AdvanceRunJob`. -/
  | enqueued (run : Uuid)
  | answered (run : Uuid) (text : String)
  /-- A transcript row of an attempt, or of an answer, with whether its writer
  owned the run when it committed. -/
  | wrote (writer : Option LeaseToken) (run : Uuid) (row : MessageRow Json) (owned : Bool)

inductive Action (R : Rig)
  | begin (me : LeaseToken) (run : Uuid)
  | readStatus (me : LeaseToken)
  | readSeq (me : LeaseToken)
  | commit (me : LeaseToken) (now : ℕ)
  | fails (me : LeaseToken) (fate : Fate) (now : ℕ)
  | rejects (me : LeaseToken) (code : String)
  | input (me : LeaseToken) (i : Input R)
  | vanish (me : LeaseToken) (fate : Fate) (now : ℕ)
  | applyLate (i : ℕ) (now : ℕ)
  | start (run : Uuid) (kind prompt : String) (now : ℕ)
  | answer (run : Uuid) (text : String)
  | cancel (run : Uuid) (now : ℕ)

variable {R : Rig}

abbrev StepResult (R : Rig) := Option (Engine R × List Event)

/-- Whether the writer of transcript rows owns the run: the attempt by its
lease, an answer by the waiting row it locked. -/
def Db.owned (db : Db Json) (writer : Option LeaseToken) (run : Uuid) : Bool :=
  match writer with
  | some me => (db.runs run).any (RunRow.leasedBy me)
  | none => (db.runs run).any fun r => r.status == .waiting

/-- The rows that a transaction added to the transcript. -/
def wroteEvents (writer : Option LeaseToken) (run : Uuid) (db db' : Db Json) : List Event :=
  ((db'.messages run).drop (db.messages run).length).map fun row =>
    .wrote writer run row (db.owned writer run)

namespace Engine

def setAttempt (s : Engine R) (me : LeaseToken) (a : Option (JobAttempt R)) : Engine R :=
  { s with attempts := Function.update s.attempts me a }

def setDb (s : Engine R) (db : Db Json) : Engine R := { s with db := db }

def setAt (s : Engine R) (me : LeaseToken) (run : Uuid) (pc : Advance R) : Engine R :=
  s.setAttempt me (some ⟨run, pc⟩)

/-- A transaction commits; `enqueues` says whether it inserts a job too. -/
def exec (s : Engine R) (writer : Option LeaseToken) (run : Uuid) (tx : Tx Json) (enqueues : Bool)
    (now : ℕ) : Option ((Engine R × List Event) × Option (RunRow Json)) :=
  (s.db.exec run tx now).map fun r =>
    ((s.setDb r.1, wroteEvents writer run s.db r.1 ++ if enqueues then [.enqueued run] else []), r.2)

def begin (s : Engine R) (me : LeaseToken) (run : Uuid) : StepResult R :=
  if me ∈ s.issued then none
  else some ({ s.setAt me run .claiming with issued := me :: s.issued }, [])

/-- `current_status`: only a running row is somebody else's. -/
def readStatus (s : Engine R) (me : LeaseToken) : StepResult R :=
  match s.attempts me with
  | some ⟨run, .checking⟩ =>
      let running := (s.db.runs run).any fun r => r.status == .running
      some (s.setAt me run (.returned !running), [])
  | _ => none

def readSeq (s : Engine R) (me : LeaseToken) : StepResult R :=
  match s.attempts me with
  | some ⟨run, .driving a (.projecting w)⟩ =>
      let written := nextMessageSeq (s.db.messages run)
      some (s.setAt me run (.driving a (.writing w (R.projectRows written w.run))), [])
  | _ => none

def commit (cfg : Config) (s : Engine R) (me : LeaseToken) (now : ℕ) : StepResult R :=
  match s.attempts me with
  | some ⟨run, pc⟩ =>
      (pc.tx cfg me).bind fun tx =>
        (s.exec (some me) run tx pc.enqueues now).map fun r =>
          (r.1.1.setAt me run (pc.answered cfg r.2), r.1.2)
  | none => none

/-- A transaction of several statements cannot stay behind its error: its
commit is sent last, and holds the row until it is applied. -/
def canLinger : Tx Json → Bool
  | .failUnstorable .. | .tryClaim .. | .releaseLease .. | .heartbeat .. => true
  | _ => false

/-- The fate of what an attempt has in flight. -/
def settleTx (cfg : Config) (s : Engine R) (me : LeaseToken) (a : JobAttempt R) (now : ℕ) :
    Fate → StepResult R
  | .lost => some (s, [])
  | .applied =>
      (a.pc.tx cfg me).bind fun tx =>
        (s.exec (some me) a.run tx a.pc.enqueues now).map fun r => r.1
  | .left =>
      (a.pc.tx cfg me).bind fun tx =>
        if canLinger tx then
          some ({ s with late := s.late ++ [⟨a.run, tx, a.pc.enqueues⟩] }, [])
        else none

def fails (cfg : Config) (s : Engine R) (me : LeaseToken) (fate : Fate) (now : ℕ) :
    StepResult R :=
  match s.attempts me with
  | some a =>
      if a.pc.awaits cfg me then
        (s.settleTx cfg me a now fate).map fun r => (r.1.setAt me a.run a.pc.errored, r.2)
      else none
  | none => none

def rejects (s : Engine R) (me : LeaseToken) (code : String) : StepResult R :=
  match s.attempts me with
  | some ⟨run, pc⟩ => (pc.rejected code).map fun pc' => (s.setAt me run pc', [])
  | none => none

def input (s : Engine R) (me : LeaseToken) (i : Input R) : StepResult R :=
  match s.attempts me with
  | some ⟨run, pc⟩ => (pc.input i).map fun pc' => (s.setAt me run pc', [])
  | none => none

def vanish (cfg : Config) (s : Engine R) (me : LeaseToken) (fate : Fate) (now : ℕ) :
    StepResult R :=
  match s.attempts me with
  | some a => (s.settleTx cfg me a now fate).map fun r => (r.1.setAttempt me none, r.2)
  | none => none

def applyLate (s : Engine R) (i : ℕ) (now : ℕ) : StepResult R :=
  s.late[i]?.bind fun l =>
    (s.exec none l.run l.tx l.enqueues now).map fun r =>
      ({ r.1.1 with late := s.late.eraseIdx i }, r.1.2)

/-! ## Callers -/

def start (cfg : Config) (s : Engine R) (run : Uuid) (kind prompt : String) (now : ℕ) :
    StepResult R :=
  (cfg.kindNamed kind).bind fun k =>
    if R.hasOutputSchema k then none
    else (s.db.insertRun run ⟨k.name, prompt, k.model, cfg.appName,
        R.toValue (R.fromSpec k prompt), now⟩).map fun db => (s.setDb db, [.enqueued run])

end Engine

inductive RunError
  | notFound
  | notWaiting (status : RunStatus)
  | corrupt (message : String)
deriving Repr, DecidableEq

/-- The recorded ask among the open calls. -/
def findAsk (callId : String) : List R.Call → Option R.ExecCall
  | [] => none
  | .execute exec :: rest => if R.callId exec = callId then some exec else findAsk callId rest
  | .malformed _ :: rest => findAsk callId rest

/-- What `answer` makes of the run of a waiting row. -/
def answeredRun (R : Rig) (callId text : String) (runState : Json) :
    Except RunError R.AgentRun :=
  match R.fromValue runState with
  | .error position => .error (.corrupt ("stored run state failed to deserialize " ++ position))
  | .ok run =>
      match R.nextStep run with
      | (run, .ok (.callTools calls)) =>
          match findAsk callId calls with
          | none => .error (.corrupt "recorded pending ask call is not open in the run")
          | some exec =>
              if R.callName exec = Ask.name then
                match R.answerExec run exec (R.textResult (replaceNuls text)) with
                | (run, .ok ()) => .ok run
                | (_, .error _) => .error (.corrupt "answer was rejected by the run")
              else .error (.corrupt "recorded pending call is not an ask call")
      | (_, .ok _) => .error (.corrupt "suspended run is not waiting on tool calls")
      | (_, .error _) => .error (.corrupt "suspended run is not in an executable state")

/-- The checks of `answer` on the row it locked. -/
def answerRow (R : Rig) (text : String) : Option (RunRow Json) → Except RunError R.AgentRun
  | none => .error .notFound
  | some r =>
      if r.status = .waiting then
        match r.pendingCallId with
        | none => .error (.corrupt "waiting run has no pending_call_id")
        | some callId => answeredRun R callId text r.runState
      else .error (.notWaiting r.status)

namespace Engine

/-- The transaction of `answer`; an error rolls it back. -/
def answer (s : Engine R) (run : Uuid) (text : String) : StepResult R :=
  match answerRow R text (s.db.runs run) with
  | .error _ => some (s, [])
  | .ok agentRun =>
      let written := nextMessageSeq (s.db.messages run)
      let tx : Tx Json := .answerWaiting (R.toValue agentRun) (R.projectRows written agentRun)
      (s.exec none run tx true 0).map fun r => (r.1.1, .answered run text :: r.1.2)

def cancel (cfg : Config) (s : Engine R) (run : Uuid) (now : ℕ) : StepResult R :=
  (s.exec none run (.cancelRun cfg.leaseTakeover) false now).map fun r => r.1

def step (cfg : Config) (s : Engine R) : Action R → StepResult R
  | .begin me run => s.begin me run
  | .readStatus me => s.readStatus me
  | .readSeq me => s.readSeq me
  | .commit me now => s.commit cfg me now
  | .fails me fate now => s.fails cfg me fate now
  | .rejects me code => s.rejects me code
  | .input me i => s.input me i
  | .vanish me fate now => s.vanish cfg me fate now
  | .applyLate i now => s.applyLate i now
  | .start run kind prompt now => s.start cfg run kind prompt now
  | .answer run text => s.answer run text
  | .cancel run now => s.cancel cfg run now

end Engine

abbrev EngineRun (cfg : Config) (C : Engine R → Action R → Prop) :
    List Event → Engine R → Prop :=
  StepRun.Run (Engine.step cfg) C Engine.init

end Cja.Durable
