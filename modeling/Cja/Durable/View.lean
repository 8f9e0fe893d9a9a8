import Cja.Durable.Transcript
import Cja.Durable.Holders

/-!
# What a caller reads

`get_run` selects a row and decodes its columns, the status and the fail reason from their
texts; `transcript` selects the messages in the order of `seq`. The decoder refuses a text
it does not know and a half of an ask. No run of the engine stores either.
-/
namespace Cja.Durable

open Jobs (Uuid)

variable {J : Type}

def RunStatus.asStr : RunStatus → String
  | queued => "queued"
  | running => "running"
  | waiting => "waiting"
  | succeeded => "succeeded"
  | failed => "failed"
  | cancelled => "cancelled"

def RunStatus.fromStr : String → Option RunStatus
  | "queued" => some queued
  | "running" => some running
  | "waiting" => some waiting
  | "succeeded" => some succeeded
  | "failed" => some failed
  | "cancelled" => some cancelled
  | _ => none

def FailReason.asStr : FailReason → String
  | turnBudget => "turn_budget"
  | tokenBudget => "token_budget"
  | unknownKind => "unknown_kind"
  | corruptState => "corrupt_state"
  | gateway => "gateway"
  | protocol => "protocol"
  | unstorableContent => "unstorable_content"

def FailReason.fromStr : String → Option FailReason
  | "turn_budget" => some turnBudget
  | "token_budget" => some tokenBudget
  | "unknown_kind" => some unknownKind
  | "corrupt_state" => some corruptState
  | "gateway" => some gateway
  | "protocol" => some protocol
  | "unstorable_content" => some unstorableContent
  | _ => none

/-- `message_role`, as it is stored. -/
def Role.asStr : Role → String
  | system => "system"
  | user => "user"
  | assistant => "assistant"

/-- The columns a view is decoded from, as the table has them. -/
structure Columns where
  id : Uuid
  kind : String
  status : String
  model : String
  app : String
  turns : ℕ
  inputTokens : ℕ
  outputTokens : ℕ
  output : Option String
  failReason : Option String
  error : Option String
  pendingCallId : Option String
  pendingQuestion : Option String
  createdAt : ℕ
  startedAt : Option ℕ
  finishedAt : Option ℕ

/-- The statements bind the status and the fail reason by `as_str`. -/
def RunRow.columns (r : RunRow J) (id : Uuid) : Columns where
  id := id
  kind := r.kind
  status := r.status.asStr
  model := r.model
  app := r.app
  turns := r.turns
  inputTokens := r.inputTokens
  outputTokens := r.outputTokens
  output := r.output
  failReason := r.failReason.map FailReason.asStr
  error := r.error
  pendingCallId := r.pendingCallId
  pendingQuestion := r.pendingQuestion
  createdAt := r.createdAt
  startedAt := r.startedAt
  finishedAt := r.finishedAt

structure PendingAsk where
  callId : String
  question : String
deriving Repr, DecidableEq

structure RunView where
  id : Uuid
  kind : String
  status : RunStatus
  model : String
  app : String
  turns : ℕ
  inputTokens : ℕ
  outputTokens : ℕ
  output : Option String
  failReason : Option FailReason
  error : Option String
  pendingAsk : Option PendingAsk
  createdAt : ℕ
  startedAt : Option ℕ
  finishedAt : Option ℕ
deriving Repr, DecidableEq

/-- A column and what is wrong with it. -/
structure ColumnDecode where
  index : String
  source : String
deriving Repr, DecidableEq

inductive ReadError
  | storage (error : ColumnDecode)
  | notFound (run : Uuid)
deriving Repr, DecidableEq

def decodeFailReason : Option String → Except ColumnDecode (Option FailReason)
  | none => .ok none
  | some raw =>
      match FailReason.fromStr raw with
      | some reason => .ok (some reason)
      | none => .error ⟨"fail_reason", "unknown fail reason `" ++ raw ++ "`"⟩

/-- `debugStr` is the `Debug` form of the call id. -/
def decodePendingAsk (debugStr : Option String → String) :
    Option String → Option String → Except ColumnDecode (Option PendingAsk)
  | some callId, some question => .ok (some ⟨callId, question⟩)
  | none, none => .ok none
  | callId, _ => .error ⟨"pending_call_id",
      "waiting-ask columns disagree (pending_call_id is " ++ debugStr callId ++ ")"⟩

def RunView.fromRow (debugStr : Option String → String) (row : Columns) :
    Except ColumnDecode RunView := do
  let status ← match RunStatus.fromStr row.status with
    | some status => pure status
    | none => throw ⟨"status", "unknown run status `" ++ row.status ++ "`"⟩
  let failReason ← decodeFailReason row.failReason
  let pendingAsk ← decodePendingAsk debugStr row.pendingCallId row.pendingQuestion
  pure {
    id := row.id
    kind := row.kind
    status
    model := row.model
    app := row.app
    turns := row.turns
    inputTokens := row.inputTokens
    outputTokens := row.outputTokens
    output := row.output
    failReason
    error := row.error
    pendingAsk
    createdAt := row.createdAt
    startedAt := row.startedAt
    finishedAt := row.finishedAt }

def getRun (debugStr : Option String → String) (db : Db J) (run : Uuid) :
    Except ReadError RunView :=
  match db.runs run with
  | none => .error (.notFound run)
  | some r => (RunView.fromRow debugStr (r.columns run)).mapError .storage

structure RunMessage (J : Type) where
  seq : ℕ
  role : String
  message : J
deriving Repr, DecidableEq

/-- `ORDER BY seq` -/
def transcript (db : Db J) (run : Uuid) : List (RunMessage J) :=
  ((db.messages run).mergeSort fun m n => m.seq ≤ n.seq).map fun m =>
    ⟨m.seq, m.role.asStr, m.message⟩

/-! ## Texts -/

@[simp] theorem RunStatus.fromStr_asStr (status : RunStatus) :
    fromStr status.asStr = some status := by
  cases status <;> rfl

@[simp] theorem FailReason.fromStr_asStr (reason : FailReason) :
    fromStr reason.asStr = some reason := by
  cases reason <;> rfl

/-! ## Rows -/

/-- The ask of a row that has both of its halves. -/
def RunRow.pendingAsk (r : RunRow J) : Option PendingAsk :=
  r.pendingCallId.bind fun callId => r.pendingQuestion.map fun question => ⟨callId, question⟩

/-- The row as a caller sees it. -/
def RunRow.view (r : RunRow J) (id : Uuid) : RunView where
  id := id
  kind := r.kind
  status := r.status
  model := r.model
  app := r.app
  turns := r.turns
  inputTokens := r.inputTokens
  outputTokens := r.outputTokens
  output := r.output
  failReason := r.failReason
  error := r.error
  pendingAsk := r.pendingAsk
  createdAt := r.createdAt
  startedAt := r.startedAt
  finishedAt := r.finishedAt

/-- What the status says of the other columns. -/
structure RunView.Consistent (view : RunView) : Prop where
  waiting : view.pendingAsk.isSome = true ↔ view.status = .waiting
  succeeded : view.output.isSome = true ↔ view.status = .succeeded
  failed : view.failReason.isSome = true ↔ view.status = .failed
  finished : view.finishedAt.isSome = view.status.terminal

theorem decodeFailReason_asStr (reason : Option FailReason) :
    decodeFailReason (reason.map FailReason.asStr) = .ok reason := by
  cases reason with
  | none => rfl
  | some reason => simp [decodeFailReason]

section

variable {r : RunRow J} {debugStr : Option String → String} {id : Uuid}

/-- A row is read where it has both halves of an ask or none. -/
theorem RunRow.fromRow_columns (h : r.pendingCallId.isSome = r.pendingQuestion.isSome) :
    RunView.fromRow debugStr (r.columns id) = .ok (r.view id) := by
  have hask : decodePendingAsk debugStr r.pendingCallId r.pendingQuestion = .ok r.pendingAsk := by
    unfold RunRow.pendingAsk
    cases hcall : r.pendingCallId <;> cases hquestion : r.pendingQuestion <;>
      simp_all [decodePendingAsk]
  simp only [RunView.fromRow, RunRow.columns, RunStatus.fromStr_asStr, decodeFailReason_asStr, hask]
  rfl

theorem RunRow.Inv.halves (hi : r.Inv) : r.pendingCallId.isSome = r.pendingQuestion.isSome := by
  by_cases hw : r.status = .waiting
  · obtain ⟨hcall, hquestion⟩ := hi.waiting.mp hw
    rw [hcall, hquestion]
  · obtain ⟨hcall, hquestion⟩ := hi.unasked hw
    rw [hcall, hquestion]

theorem RunRow.Inv.consistent (hi : r.Inv) : (r.view id).Consistent where
  waiting := by
    have hwaiting := hi.waiting
    simp only [RunRow.view, RunRow.pendingAsk, hwaiting]
    cases r.pendingCallId <;> cases r.pendingQuestion <;> simp
  succeeded := hi.succeeded
  failed := hi.failed
  finished := hi.finished

end

/-- Every row of such a table is read, and nothing else. -/
theorem getRun_of_inv {db : Db J} (hi : db.Inv) (debugStr : Option String → String) (id : Uuid) :
    getRun debugStr db id = match db.runs id with
      | none => .error (.notFound id)
      | some r => .ok (r.view id) := by
  unfold getRun
  cases hr : db.runs id with
  | none => rfl
  | some r =>
      simp only [RunRow.fromRow_columns (hi id r hr).halves]
      rfl

/-! ## Messages -/

theorem Numbered.pairwise {rows : List (MessageRow J)} (h : Numbered rows) :
    rows.Pairwise fun m n => m.seq ≤ n.seq := by
  rw [List.pairwise_iff_getElem]
  intro i j hi hj hlt
  rw [h i _ (List.getElem?_eq_getElem hi), h j _ (List.getElem?_eq_getElem hj)]
  exact Nat.le_of_lt hlt

/-- Numbered messages are selected as they were inserted. -/
theorem transcript_of_numbered {db : Db J} {id : Uuid} (h : Numbered (db.messages id)) :
    transcript db id = (db.messages id).map fun m => ⟨m.seq, m.role.asStr, m.message⟩ := by
  unfold transcript
  rw [List.mergeSort_of_pairwise]
  exact h.pairwise.imp fun hle => decide_eq_true hle

variable {R : Rig}

/-- The messages of a run, as a caller reads them. -/
def Rig.readMessages (R : Rig) (run : R.AgentRun) : List (RunMessage Json) :=
  (R.messages run).mapIdx fun i message =>
    ⟨i, (R.messageRole message).asStr, R.messageValue message⟩

theorem Rig.map_projectRows (run : R.AgentRun) :
    ((R.projectRows 0 run).map fun m => (⟨m.seq, m.role.asStr, m.message⟩ : RunMessage Json)) =
      R.readMessages run := by
  apply List.ext_getElem?
  intro i
  rw [List.getElem?_map, R.getElem?_projectRows, Rig.readMessages, List.getElem?_mapIdx,
    Option.map_map, Nat.zero_add]
  rfl

theorem TranscriptInv.numbered {s : Engine R} (hi : TranscriptInv s) (id : Uuid) :
    Numbered (s.db.messages id) := by
  cases hr : s.db.runs id with
  | some r => exact (hi.stored id r hr).numbered
  | none =>
      rw [hi.absent id hr]
      intro i m hm
      cases hm

/-! ## Every run of the engine -/

/-- A row that is there stays, and stays as it is once it is terminal. -/
theorem Took.kept {cfg : Config} {s s' : Engine R} {a : Action R} {es : List Event} {id : Uuid}
    {r : RunRow Json} (h : Took cfg s a s' es) (hr : s.db.runs id = some r) :
    ∃ r', s'.db.runs id = some r' ∧ (r.status.terminal = true → r' = r) := by
  have hrow := h.rowStep id
  rw [hr] at hrow
  generalize ho : s'.db.runs id = o at hrow
  cases hrow with
  | same => exact ⟨r, rfl, fun _ => rfl⟩
  | updated happ hu => exact ⟨_, rfl, fun ht => Tx.update_terminal ht hu⟩

theorem row_kept {cfg : Config} {log : List Event} {s s' : Engine R} {id : Uuid}
    {r : RunRow Json} (h : StepRun.Run (Engine.step cfg) StepRun.Free s log s')
    (hr : s.db.runs id = some r) :
    ∃ r', s'.db.runs id = some r' ∧ (r.status.terminal = true → r' = r) := by
  refine h.safe (I := fun t => ∃ r', t.db.runs id = some r' ∧ (r.status.terminal = true → r' = r))
    ⟨r, hr, fun _ => rfl⟩ ?_
  rintro t a t' es ⟨r', hr', hsame⟩ - hs
  obtain ⟨r'', hr'', hsame'⟩ := (step_took hs).kept hr'
  refine ⟨r'', hr'', fun ht => ?_⟩
  have hr : r' = r := hsame ht
  rw [hsame' (hr ▸ ht), hr]

theorem messages_kept {cfg : Config} {log : List Event} {s s' : Engine R} (hb : s.Basic)
    (h : StepRun.Run (Engine.step cfg) StepRun.Free s log s') (id : Uuid) :
    s.db.messages id <+: s'.db.messages id := by
  have hboth := h.safe (I := fun t => t.Basic ∧ s.db.messages id <+: t.db.messages id)
    ⟨hb, List.prefix_rfl⟩ fun t a t' es ht _ hs =>
      ⟨ht.1.step (step_took hs), ht.2.trans ((took_wrote ht.1 (step_took hs)).1 id)⟩
  exact hboth.2

/-- Reading never fails on a run the engine has: the view is of its row and consistent, the
one of a finished run stays the same, and the transcript is a beginning of the messages of
the stored run that only grows. -/
theorem reads_reachable {cfg : Config} {log log' : List Event} {s s' : Engine R} {id : Uuid}
    (ha : R.AppendOnly) (hr : R.RoundTrip) (debugStr : Option String → String)
    (h : EngineRun cfg StepRun.Free log s)
    (h' : StepRun.Run (Engine.step cfg) StepRun.Free s log' s') :
    (∀ e, getRun debugStr s'.db id = .error e → e = .notFound id ∧ s'.db.runs id = none) ∧
      (∀ view, getRun debugStr s.db id = .ok view → view.Consistent ∧
        ∃ view', getRun debugStr s'.db id = .ok view' ∧
          (view.status.terminal = true → view' = view)) ∧
      transcript s.db id <+: transcript s'.db id ∧
        ∀ r run, s'.db.runs id = some r → R.fromValue r.runState = .ok run →
          transcript s'.db id <+: R.readMessages run := by
  have hrun : EngineRun cfg StepRun.Free (log ++ log') s' := h.trans h'
  have hbasic := Engine.Basic.of_run h
  have hbasic' := Engine.Basic.of_run hrun
  have hmessages := TranscriptInv.of_run ha hr h
  have hmessages' := TranscriptInv.of_run ha hr hrun
  have hread := getRun_of_inv hbasic.rows debugStr id
  have hread' := getRun_of_inv hbasic'.rows debugStr id
  have hnum := transcript_of_numbered (hmessages.numbered id)
  have hnum' := transcript_of_numbered (hmessages'.numbered id)
  refine ⟨?_, ?_, ?_, ?_⟩
  · intro e he
    rw [hread'] at he
    cases hrow : s'.db.runs id with
    | none =>
        rw [hrow] at he
        cases he
        exact ⟨rfl, rfl⟩
    | some r =>
        rw [hrow] at he
        cases he
  · intro view hview
    rw [hread] at hview
    cases hrow : s.db.runs id with
    | none =>
        rw [hrow] at hview
        cases hview
    | some r =>
        rw [hrow] at hview
        cases hview
        obtain ⟨r', hr', hsame⟩ := row_kept h' hrow
        rw [hread', hr']
        exact ⟨(hbasic.rows id r hrow).consistent, r'.view id, rfl, fun ht => by rw [hsame ht]⟩
  · rw [hnum, hnum']
    exact (messages_kept hbasic h' id).map _
  · intro r run hrow hstate
    obtain ⟨run', hstored, hprefix⟩ := hmessages'.stored id r hrow
    rw [hstored, hr run'] at hstate
    cases hstate
    rw [hnum', ← R.map_projectRows]
    exact hprefix.map _

/-- A run that asked, was answered and crashed is read as succeeded, with its messages. -/
theorem reads_reachable_resumed : ∃ (log : List Event) (s : Engine Rig.scripted) (view : RunView),
    EngineRun scriptedConfig StepRun.Free log s ∧
      getRun (fun _ => "None") s.db 1 = .ok view ∧ view.status = .succeeded ∧
        view.Consistent ∧ (transcript s.db 1).length = 4 ∧
          ∀ r (run : ℕ), s.db.runs 1 = some r → Rig.scripted.fromValue r.runState = .ok run →
            transcript s.db 1 <+: Rig.readMessages Rig.scripted run := by
  obtain ⟨log, s, hrun, hdone⟩ := StepRun.exists_free_run (Engine.step scriptedConfig)
    Engine.init scriptedRun (fun _ s => (s.db.messages 1).length == 4 &&
      (s.db.runs 1).any fun r => r.status == .succeeded) (by decide)
  simp only [Bool.and_eq_true, beq_iff_eq, Option.any_eq_true] at hdone
  obtain ⟨hlength, r, hr, hs⟩ := hdone
  have h := @reads_reachable Rig.scripted scriptedConfig log [] s s 1 Rig.scripted_appendOnly
    Rig.scripted_roundTrip (fun _ => "None") hrun (.start (C := StepRun.Free))
  have hview : getRun (fun _ => "None") s.db 1 = .ok (r.view 1) := by
    rw [getRun_of_inv (Engine.Basic.of_run hrun).rows, hr]
  refine ⟨log, s, r.view 1, hrun, hview, hs, (h.2.1 _ hview).1, ?_, h.2.2.2⟩
  rw [transcript, List.length_map, List.length_mergeSort, hlength]

end Cja.Durable
