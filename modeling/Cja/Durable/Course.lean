import Cja.Durable.Transcript

/-!
# The uninterrupted course of a run

In a world whose model and tools give one answer to one question, an attempt that
nothing interrupts is a deterministic machine on its stages. A run that is driven
again from what is stored joins this course: every state that the course persists
leads back onto it.
-/
namespace Cja.Durable

variable {R : Rig}

/-- What the model replies to a request and a tool returns for a call, once errors
that are tried again are over. -/
structure World (R : Rig) where
  model : AgentKind → R.Request → Except LlmError R.ModelResponse
  tool : AgentKind → R.ExecCall → R.ToolResult
  final : ∀ kind request e, model kind request = .error e → isRetryable e = false

/-- An attempt on a run of this kind that has stored nothing yet. -/
def AgentKind.attempt (kind : AgentKind) : Attempt := ⟨kind, kind.model, false⟩

/-- What rig emits for a run that is read back: the model call it was prepared for,
the calls that are still open, or its output. -/
structure Rig.Reemits (R : Rig) : Prop where
  callModel : ∀ (a : Attempt) run run' prompt history turn prepared,
    R.nextStep run = (run', .ok (.callModel prompt history turn)) →
    R.prepareRequest a.kind a.model history (R.outputToolName run') = .ok prepared →
    ∃ run'', R.nextStep (Stage.checkpoint a run' turn prepared) =
        (run'', .ok (.callModel prompt history turn)) ∧
      R.outputToolName run'' = R.outputToolName run' ∧
      Stage.checkpoint a run'' turn prepared = Stage.checkpoint a run' turn prepared
  answered : ∀ run run' run'' exec rest result,
    R.nextStep run = (run', .ok (.callTools (.execute exec :: rest))) → rest ≠ [] →
    R.answerExec run' exec result = (run'', .ok ()) →
    R.nextStep run'' = (run'', .ok (.callTools rest))
  answeredMalformed : ∀ run run' run'' call rest,
    R.nextStep run = (run', .ok (.callTools (.malformed call :: rest))) → rest ≠ [] →
    R.answerMalformed run' call = (run'', .ok ()) →
    R.nextStep run'' = (run'', .ok (.callTools rest))
  done : ∀ run run' output, R.nextStep run = (run', .ok (.done output)) →
    R.nextStep run' = (run', .ok (.done output))

namespace Stage

/-- The next stage where no statement fails, no lease is lost and nothing stops the
process; `none` at the write that ends or parks the run. -/
def uninterrupted (w : World R) (a : Attempt) : Stage R → Option (Stage R)
  | top run => some (drive a run)
  | projecting (.persist run _ next) => some (proceed a run next)
  | guarded (.model run prepared request) => some (replied run prepared (w.model a.kind request))
  | guarded (.tool run exec rest) => some (toolReturned run exec rest (w.tool a.kind exec))
  | resolving run => some (settle (R.resolveUnhandledInvalidToolCall run))
  | _ => none

abbrev Reaches (w : World R) (a : Attempt) : Stage R → Stage R → Prop :=
  StateTransition.Reaches (uninterrupted w a)

variable {w : World R} {a : Attempt} {run origin stored : R.AgentRun} {st st' : Stage R}

theorem Reaches.next {st'' : Stage R} (h : Reaches w a st st')
    (hs : uninterrupted w a st' = some st'') : Reaches w a st st'' :=
  Relation.ReflTransGen.tail h hs

theorem Reaches.step (hs : uninterrupted w a st = some st') : Reaches w a st st' :=
  Relation.ReflTransGen.single hs

theorem Reaches.drive (w : World R) (a : Attempt) (run : R.AgentRun) :
    Reaches w a (.top run) (Stage.drive a run) := .step rfl

/-- The course has one end. -/
theorem Reaches.end_unique {e e' : Stage R} (h : Reaches w a st e) (h' : Reaches w a st e')
    (he : uninterrupted w a e = none) (he' : uninterrupted w a e' = none) : e = e' :=
  Part.mem_unique (StateTransition.mem_eval.mpr ⟨h, he⟩) (StateTransition.mem_eval.mpr ⟨h', he'⟩)

/-! ## What a persist on the course has of rig -/

/-- Driving what the stage persists leads to where it goes on anyway. The course has
no other stages. -/
def Resumable (a : Attempt) : Stage R → Prop
  | projecting (.persist run advanced (.callModel prepared request)) =>
      drive a run = projecting (.persist run advanced (.callModel prepared request))
  | projecting (.persist run advanced (.succeed output)) =>
      drive a run = projecting (.persist run advanced (.succeed output))
  | projecting (.persist run _ (.callTools rest)) =>
      rest = [] ∨ R.nextStep run = (run, .ok (.callTools rest))
  | guarded (.tool run exec rest) =>
      ∃ run', R.nextStep run' = (run, .ok (.callTools (.execute exec :: rest)))
  | top _ | resolving _ | projecting _ | guarded (.model ..) => True
  | _ => False

theorem failTerminal_resumable {error : PromptError} {direct : Bool} :
    (failTerminal run error direct).Resumable a := trivial

theorem answeredCall_resumable {rest : List R.Call} {p : R.AgentRun × Except PromptError Unit}
    (h : ∀ run', p = (run', .ok ()) → rest ≠ [] →
      R.nextStep run' = (run', .ok (.callTools rest))) : (answeredCall rest p).Resumable a := by
  obtain ⟨run', e⟩ := p
  cases e with
  | error error => exact failTerminal_resumable
  | ok u =>
      by_cases hrest : rest = []
      · exact .inl hrest
      · exact .inr (h run' rfl hrest)

/-- The calls that a run has just emitted are worked off from the front. -/
theorem callToolsStep_resumable (he : R.Reemits) {calls : List R.Call} {run' : R.AgentRun}
    (h : calls = [] ∨ R.nextStep run' = (run, .ok (.callTools calls))) :
    (callToolsStep run calls).Resumable a := by
  cases calls with
  | nil => trivial
  | cons call rest =>
      have hopen : R.nextStep run' = (run, .ok (.callTools (call :: rest))) := by simpa using h
      cases call with
      | malformed call =>
          apply answeredCall_resumable
          intro run'' hans hrest
          exact he.answeredMalformed run' run run'' call rest hopen hrest hans
      | execute exec =>
          simp only [callToolsStep]
          split_ifs
          · unfold askStep
            split
            · trivial
            · exact answeredCall_resumable fun _ _ hrest => absurd rfl hrest
          · exact ⟨run', hopen⟩

theorem drive_resumable (he : R.Reemits) (a : Attempt) (run : R.AgentRun) :
    (drive a run).Resumable a := by
  cases hs : R.nextStep run with
  | mk run' result =>
      cases result with
      | error error => simp only [drive, hs]; exact failTerminal_resumable
      | ok next =>
          cases next with
          | callModel prompt history turn =>
              simp only [drive, hs, callModelStep]
              split
              · trivial
              · case _ prepared hp =>
                  obtain ⟨run'', hnext, hname, hsame⟩ :=
                    he.callModel a run run' prompt history turn prepared hs hp
                  -- the checkpoint is prepared again as it was
                  simp only [Resumable, drive, hnext, callModelStep, hname, hp, hsame]
          | callTools calls =>
              simp only [drive, hs]
              exact callToolsStep_resumable he (.inr hs)
          | done output =>
              have hdone := he.done run run' output hs
              simp only [drive, hs, Resumable, hdone]

theorem settle_resumable {p : R.AgentRun × Except PromptError ModelTurnOutcome} :
    (settle p).Resumable a := by
  obtain ⟨run, e⟩ := p
  cases e with
  | error error => exact failTerminal_resumable
  | ok outcome => cases outcome <;> trivial

theorem uninterrupted_resumable (he : R.Reemits) (h : st.Resumable a)
    (hs : uninterrupted w a st = some st') : st'.Resumable a := by
  cases st with
  | top run => cases hs; exact drive_resumable he a run
  | resolving run => cases hs; exact settle_resumable
  | projecting wr =>
      cases wr with
      | persist run advanced next =>
          cases hs
          cases next with
          | callModel prepared request => trivial
          | succeed output => trivial
          | callTools rest => exact callToolsStep_resumable he h
          | checkBudget =>
              simp only [proceed]
              split_ifs <;> trivial
      | _ => cases hs
  | guarded g =>
      cases g with
      | model run prepared request =>
          cases hs
          unfold replied
          split
          · exact settle_resumable
          · trivial
      | tool run exec rest =>
          cases hs
          obtain ⟨run', hopen⟩ := h
          apply answeredCall_resumable
          intro run'' hans hrest
          exact he.answered run' run run'' exec rest _ hopen hrest hans
  | _ => cases hs

theorem Reaches.resumable (he : R.Reemits) (h : Reaches w a (.top run) st) : st.Resumable a := by
  induction h with
  | refl => trivial
  | tail _ hs ih => exact uninterrupted_resumable he ih hs

/-! ## Joining the course -/

/-- Usage that the next check would refuse. -/
def overdraws (a : Attempt) : Stage R → Bool
  | projecting (.persist run _ .checkBudget) | writing (.persist run _ .checkBudget) _ =>
      a.kind.maxTotalTokens < R.totalTokens run
  | _ => false

variable {advanced : Bool} {next : Next R}

/-- What is driven again from a persist of the course is on the course. -/
theorem Reaches.driven (h : Reaches w a st (.projecting (.persist run advanced next)))
    (hr : (projecting (.persist run advanced next)).Resumable a)
    (hb : overdraws a (.projecting (.persist run advanced next)) = false) :
    Reaches w a st (Stage.drive a run) := by
  cases next with
  | callModel prepared request => rw [show Stage.drive a run = _ from hr]; exact h
  | succeed output => rw [show Stage.drive a run = _ from hr]; exact h
  | checkBudget =>
      have hle : ¬a.kind.maxTotalTokens < R.totalTokens run := by simpa [overdraws] using hb
      have htop : Reaches w a st (.top run) := h.next (by simp [uninterrupted, proceed, hle])
      exact htop.trans (Reaches.drive w a run)
  | callTools rest =>
      have hstep : Reaches w a st (callToolsStep run rest) := h.next rfl
      rcases hr with rfl | hopen
      · exact hstep.trans (Reaches.drive w a run)
      · simpa only [Stage.drive, hopen] using hstep

/-- And goes on from there as the course does. -/
theorem Reaches.proceed (hr : (projecting (.persist run advanced next)).Resumable a)
    (hb : overdraws a (.projecting (.persist run advanced next)) = false) :
    Reaches w a (.top run) (Stage.proceed a run next) := by
  have hdrive := Reaches.drive w a run
  cases next with
  | callModel prepared request =>
      rw [show Stage.drive a run = _ from hr] at hdrive
      exact hdrive.next rfl
  | succeed output =>
      rw [show Stage.drive a run = _ from hr] at hdrive
      exact hdrive.next rfl
  | checkBudget =>
      have hle : ¬a.kind.maxTotalTokens < R.totalTokens run := by simpa [overdraws] using hb
      simp only [Stage.proceed, hle, if_false]
      exact .refl
  | callTools rest =>
      rcases hr with rfl | hopen
      · exact .refl
      · simp only [Stage.drive, hopen] at hdrive
        exact hdrive

/-- What is reached from a stored run whose step is on the course is on it too. -/
theorem Reaches.rebase (h : Reaches w a st (Stage.drive a stored))
    (hs : Reaches w a (.top stored) st') (hne : st' ≠ .top stored) : Reaches w a st st' := by
  rcases Relation.ReflTransGen.cases_head hs with heq | ⟨first, hfirst, hrest⟩
  · exact absurd heq.symm hne
  · cases hfirst
    exact h.trans hrest

/-- The stage of the course at which an attempt is. -/
def course : Stage R → Stage R
  | writing wr _ => projecting wr
  | beating g => guarded g
  | st => st

theorem Resumable.course_eq (h : st.Resumable a) : st.course = st := by
  cases st with
  | writing wr rows => exact h.elim
  | beating g => exact h.elim
  | _ => rfl

/-- Neither the progress of an attempt nor its lease matters to its stages. -/
theorem drive_attempt (h : a.model = a.kind.model) (run : R.AgentRun) :
    drive a run = drive a.kind.attempt run := by
  obtain ⟨kind, model, progress⟩ := a
  obtain rfl : model = kind.model := h
  rfl

theorem proceed_attempt (a : Attempt) (run : R.AgentRun) (next : Next R) :
    proceed a run next = proceed a.kind.attempt run next := by
  cases next <;> rfl

theorem overdraws_writing (a : Attempt) (wr : Write R) (rows : List (MessageRow Json)) :
    overdraws a (.writing wr rows) = overdraws a.kind.attempt (.projecting wr) := by
  cases wr with
  | persist run advanced next => cases next <;> rfl
  | _ => rfl

end Stage

/-! ## Where a run settles -/

/-- What is read of a run that is parked or has ended. -/
inductive Settlement
  | asked (runState : Json) (callId question : Option String)
  | ended (status : RunStatus) (failReason : Option FailReason) (output error : Option String)
      (snap : RunSnapshot Json)

def RunRow.settlement (r : RunRow Json) : Option Settlement :=
  match r.status with
  | .waiting => some (.asked r.runState r.pendingCallId r.pendingQuestion)
  | .succeeded | .failed =>
      some (.ended r.status r.failReason r.output r.error
        ⟨r.runState, r.turns, r.inputTokens, r.outputTokens⟩)
  | _ => none

def Write.settlement : Write R → Option Settlement
  | persist _ _ _ => none
  | suspend run callId question => some (.asked (R.toValue run) (some callId) (some question))
  | finish run ending _ =>
      some (.ended ending.status ending.failReason ending.output ending.error (R.snapshot run))

theorem Write.uninterrupted_settlement {w : World R} {a : Attempt} {wr : Write R}
    (h : wr.settlement ≠ none) : Stage.uninterrupted w a (.projecting wr) = none := by
  cases wr with
  | persist => exact absurd rfl h
  | _ => rfl

/-- The run that is driven once the questions before were answered so. -/
inductive Origin (w : World R) (a : Attempt) (prompt : String) : List String → R.AgentRun → Prop
  | start : Origin w a prompt [] (R.fromSpec a.kind prompt)
  | answered {answers : List String} {origin run next : R.AgentRun}
      {callId question text : String} (h : Origin w a prompt answers origin)
      (hs : Stage.Reaches w a (.top origin) (.projecting (.suspend run callId question)))
      (hans : answeredRun R callId text (R.toValue run) = .ok next) :
      Origin w a prompt (answers ++ [text]) next

theorem Origin.unique {w : World R} {a : Attempt} {prompt : String} {answers : List String}
    {origin origin' : R.AgentRun} (h : Origin w a prompt answers origin)
    (h' : Origin w a prompt answers origin') : origin = origin' := by
  induction h generalizing origin' with
  | start =>
      generalize hnil : ([] : List String) = l at h'
      cases h' with
      | start => rfl
      | answered => simp at hnil
  | @answered answers origin run next callId question text h hs hans ih =>
      generalize hsnoc : answers ++ [text] = l at h'
      cases h' with
      | start => simp at hsnoc
      | @answered answers' origin₂ run₂ _ callId₂ question₂ text₂ h₂ hs₂ hans₂ =>
          obtain ⟨rfl, htext⟩ := List.append_inj' hsnoc rfl
          obtain rfl : text = text₂ := by simpa using htext
          obtain rfl := ih h₂
          have hend := hs.end_unique hs₂ rfl rfl
          simp only [Stage.projecting.injEq, Write.suspend.injEq] at hend
          obtain ⟨rfl, rfl, rfl⟩ := hend
          rw [hans, Except.ok.injEq] at hans₂
          exact hans₂

end Cja.Durable
