import Cja.Durable.SingleAdvancer

/-!
# Each suspension is answered once

A run parks on the first call of its open batch. A call leaves the batch only from
the front: an ask by the one answer that takes the run out of `waiting`, every
other call by its own result. What rig does with an open batch is an assumption.
-/
namespace Cja.Durable

open Jobs (Uuid)

/-! ## The open batch -/

/-- The calls that `next_step` emits for a run, if it is mid batch. -/
def Rig.openCalls (R : Rig) (run : R.AgentRun) : List R.Call :=
  match (R.nextStep run).2 with
  | .ok (.callTools calls) => calls
  | _ => []

/-- Batches in rig: emitting one changes nothing of it, a result removes the call
it is for from its front, and preparing a model call opens none. -/
structure Rig.Batched (R : Rig) : Prop where
  reemits : ∀ run run' calls, R.nextStep run = (run', .ok (.callTools calls)) →
    R.openCalls run' = calls
  answers : ∀ run run' exec rest result, R.openCalls run = .execute exec :: rest →
    R.answerExec run exec result = (run', .ok ()) → R.openCalls run' = rest
  answersMalformed : ∀ run run' call rest, R.openCalls run = .malformed call :: rest →
    R.answerMalformed run call = (run', .ok ()) → R.openCalls run' = rest
  prepares : ∀ run run' prompt history turn prepared model,
    R.nextStep run = (run', .ok (.callModel prompt history turn)) →
    R.openCalls (R.setPreviousModel (R.advertiseTools run' turn prepared) model) = []

variable {R : Rig}

/-- The question of a call that suspends the run. -/
def Rig.question (R : Rig) : R.Call → Option String
  | .execute exec => if R.callName exec = Ask.name then R.askArgs exec else none
  | .malformed _ => none

/-- The open batch of a stored run. -/
def RunRow.openCalls (R : Rig) (r : RunRow Json) : List R.Call :=
  match R.fromValue r.runState with
  | .ok run => R.openCalls run
  | .error _ => []

/-- The batch is as before, or lost its first call, which asks nothing; without an
open batch the run moves on. -/
def Drops (R : Rig) (before after : List R.Call) : Prop :=
  before = [] ∨ after = before ∨ ∃ c, before = c :: after ∧ R.question c = none

/-- The first open call asks `question` under `callId`. -/
def AsksFirst (R : Rig) (calls : List R.Call) (callId question : String) : Prop :=
  ∃ exec rest text, calls = .execute exec :: rest ∧ R.callId exec = callId ∧
    R.question (.execute exec) = some text ∧ question = replaceNuls text

/-! ## What an attempt has of the batch -/

def Guarded.Opens (calls : List R.Call) : Guarded R → Prop
  | model _ _ _ => calls = []
  | tool run exec rest => calls = .execute exec :: rest ∧ R.openCalls run = calls ∧
      R.callName exec ≠ Ask.name

def Next.Opens (run : R.AgentRun) : Next R → Prop
  | callModel _ _ => R.openCalls run = []
  | callTools rest => rest = [] ∨ R.openCalls run = rest
  | checkBudget | succeed _ => True

def Write.Opens (calls : List R.Call) : Write R → Prop
  | persist run _ next => Drops R calls (R.openCalls run) ∧ next.Opens run
  | suspend run callId question => R.openCalls run = calls ∧ AsksFirst R calls callId question
  | finish _ _ _ => True

/-- The batch that the holder of the lease works on is the stored one. -/
def Advance.Opens (calls : List R.Call) : Advance R → Prop
  | driving _ (.top run) => R.openCalls run = calls
  | driving _ (.guarded g) | driving _ (.beating g) => g.Opens calls
  | driving _ (.resolving _) => calls = []
  | driving _ (.projecting w) | driving _ (.writing w _) => w.Opens calls
  | _ => True

theorem RunRow.openCalls_of_eq {r : RunRow Json} {run : R.AgentRun}
    (h : R.fromValue r.runState = .ok run) : r.openCalls R = R.openCalls run := by
  unfold openCalls
  rw [h]

theorem RunRow.openCalls_congr {r r' : RunRow Json} (h : r'.runState = r.runState) :
    r'.openCalls R = r.openCalls R := by
  unfold openCalls
  rw [h]

theorem RunRow.openCalls_stored {r : RunRow Json} {run : R.AgentRun} (hr : R.RoundTrip)
    (h : r.runState = R.toValue run) : r.openCalls R = R.openCalls run :=
  openCalls_of_eq (by rw [h]; exact hr run)

namespace Advance

variable {calls : List R.Call} {pc pc' : Advance R} {a : Attempt}

theorem opens_over (h : pc.over = true) : pc.Opens calls := by
  cases pc with
  | driving a st => cases st <;> trivial
  | _ => trivial

theorem opens_answeredCall {run' : R.AgentRun} {c : R.Call} {rest rest' : List R.Call}
    {e : Except PromptError Unit} (hopen : calls = c :: rest) (hc : R.question c = none)
    (hrest : e = .ok () → R.openCalls run' = rest) (hnext : rest' = [] ∨ rest' = rest) :
    (driving a (Stage.answeredCall rest' (run', e))).Opens calls := by
  cases e with
  | error error => trivial
  | ok u =>
      have hafter := hrest rfl
      refine ⟨.inr (.inr ⟨c, by rw [hafter]; exact hopen, hc⟩), ?_⟩
      rcases hnext with rfl | rfl
      · exact .inl rfl
      · exact .inr hafter

theorem opens_callTools (hb : R.Batched) {run : R.AgentRun} (h : R.openCalls run = calls) :
    (driving a (Stage.callToolsStep run calls)).Opens calls := by
  cases calls with
  | nil => exact h
  | cons call rest =>
      cases call with
      | malformed call =>
          exact opens_answeredCall rfl rfl
            (fun he => hb.answersMalformed run _ call rest h (Prod.ext rfl he)) (.inr rfl)
      | execute exec =>
          change (driving a (if R.callName exec = Ask.name then Stage.askStep run exec
            else .guarded (.tool run exec rest))).Opens _
          split_ifs with hname
          · unfold Stage.askStep
            split
            · case _ question hask =>
                refine ⟨h, exec, rest, question, rfl, rfl, ?_, rfl⟩
                rw [Rig.question, if_pos hname, hask]
            · case _ hask =>
                have hquiet : R.question (.execute exec) = none := by
                  rw [Rig.question, if_pos hname, hask]
                exact opens_answeredCall rfl hquiet
                  (fun he => hb.answers run _ exec rest _ h (Prod.ext rfl he)) (.inl rfl)
          · exact ⟨rfl, h, hname⟩

theorem opens_drive (hb : R.Batched) {run : R.AgentRun} (h : R.openCalls run = calls) :
    (driving a (Stage.drive a run)).Opens calls := by
  subst h
  unfold Stage.drive
  split
  · trivial
  · case _ run' prompt history turn hstep =>
      have hnone : R.openCalls run = [] := by
        rw [Rig.openCalls, hstep]
      unfold Stage.callModelStep
      split
      · trivial
      · exact ⟨.inl hnone, hb.prepares run run' prompt history turn _ _ hstep⟩
  · case _ run' calls hstep =>
      have hopen : R.openCalls run = calls := by
        rw [Rig.openCalls, hstep]
      rw [hopen]
      exact opens_callTools hb (hb.reemits run run' calls hstep)
  · case _ run' output hstep =>
      have hnone : R.openCalls run = [] := by
        rw [Rig.openCalls, hstep]
      exact ⟨.inl hnone, trivial⟩

theorem opens_settle (h : calls = []) (p : R.AgentRun × Except PromptError ModelTurnOutcome) :
    (driving a (Stage.settle p)).Opens calls := by
  obtain ⟨run, e⟩ := p
  cases e with
  | error error => trivial
  | ok outcome =>
      cases outcome with
      | needsResolution => exact h
      | settled => exact ⟨.inl h, trivial⟩

theorem opens_proceed (hb : R.Batched) {run : R.AgentRun} {next : Next R} (h : next.Opens run) :
    (driving a (Stage.proceed a run next)).Opens (R.openCalls run) := by
  cases next with
  | callModel prepared request => exact h
  | succeed output => trivial
  | checkBudget =>
      unfold Stage.proceed
      split_ifs <;> trivial
  | callTools rest =>
      rcases h with rfl | hrest
      · rfl
      · rw [hrest]
        exact opens_callTools hb hrest

theorem opens_input (hb : R.Batched) {i : Input R} (h : Inputs i pc pc') (ho : pc.Opens calls) :
    pc'.Opens calls := by
  cases h with
  | drive a run => exact opens_drive hb ho
  | resolve a run => exact opens_settle ho _
  | stop a => exact opens_over (retry_over a)
  | abandon => trivial
  | beat => exact ho
  | replied a run prepared request hresp =>
      rename_i response
      cases response with
      | error e => trivial
      | ok response => exact opens_settle ho _
  | retryable a => exact opens_over (retry_over a)
  | toolReturns a run exec rest result =>
      obtain ⟨hcalls, hopen, hname⟩ := ho
      have hquiet : R.question (.execute exec) = none := by rw [Rig.question, if_neg hname]
      exact opens_answeredCall hcalls hquiet
        (fun he => hb.answers run _ exec rest _ (hopen.trans hcalls) (Prod.ext rfl he)) (.inr rfl)

/-- What the attempt's own transaction leaves it with. -/
theorem opens_answers (hb : R.Batched) (hr : R.RoundTrip) {cfg : Config} {me : LeaseToken}
    {tx : Tx Json} {now : ℕ} {r r' : RunRow Json} (htx : pc.tx cfg me = some tx)
    (hu : tx.update now r = some r') (hans : Answers cfg pc (some r') pc')
    (ho : tx.isClaim = false → pc.Opens (r.openCalls R)) : pc'.Opens (r'.openCalls R) := by
  cases hans with
  | claimed row =>
      unfold claimed
      dsimp only
      split_ifs
      · trivial
      · split
        · trivial
        · trivial
        · case _ run hstate => exact (RunRow.openCalls_of_eq hstate).symm
  | landed a w rows row =>
      cases w with
      | suspend => trivial
      | finish => trivial
      | persist run advanced next =>
          cases htx
          have hstate := Tx.update_runState hu
          have hopen := ho rfl
          simp only [landed]
          split_ifs
          · trivial
          · rw [RunRow.openCalls_stored hr hstate]
            exact opens_proceed hb hopen.2
  | beat a g hc =>
      cases htx
      have hstate := Tx.update_runState hu
      have hopen := ho rfl
      rw [RunRow.openCalls_congr hstate]
      exact hopen
  | abandoned a => exact opens_over (retry_over a)
  | _ => trivial

end Advance

theorem Engine.opens_step (hb : R.Batched) (hr : R.RoundTrip) {cfg : Config} {s s' : Engine R}
    {a : Action R} {es : List Event} (hbasic : s.Basic)
    (hP : s.Holders fun r _ pc => pc.Opens (r.openCalls R)) (h : Took cfg s a s' es) :
    s'.Holders fun r _ pc => pc.Opens (r.openCalls R) := by
  refine Engine.Holders.step hbasic hP h (fun _ _ _ => Advance.opens_over) (fun _ _ _ => id) ?_ ?_
  · intro me run pc pc' r hl hj hrow hleased ho
    cases hl with
    | readStatus => trivial
    | readSeq => exact ho
    | rejects hrej =>
        unfold Advance.rejected at hrej
        split at hrej <;> cases hrej <;> trivial
    | input hi => exact Advance.opens_input hb hi ho
  · intro me run pc pc' tx r r' hj happ htx hrow hu hans ho
    refine Advance.opens_answers hb hr htx hu hans ?_
    intro hclaim
    exact ho (Tx.leased_of_update (Advance.token_of_tx htx) hclaim hu)

/-! ## What one step does to a waiting run -/

/-- The jobs that a step enqueues, by their runs. -/
def enqueuedRuns (es : List Event) : List Uuid :=
  es.filterMap fun
    | .enqueued run => some run
    | _ => none

/-- The answer became the result of the recorded ask, and of no other open call. -/
def Answered (R : Rig) (text : String) (r r' : RunRow Json) : Prop :=
  ∃ callId exec run, r.pendingCallId = some callId ∧ R.callId exec = callId ∧
    R.fromValue r.runState = .ok run ∧ r.openCalls R = .execute exec :: r'.openCalls R ∧
    r'.runState = R.toValue
      (R.answerExec (R.nextStep run).1 exec (R.textResult (replaceNuls text))).1 ∧
    r'.status = .running ∧ r'.pendingCallId = none

/-- The recorded ask is the first open call of the stored run. -/
def RunRow.Parked (R : Rig) (r : RunRow Json) : Prop :=
  ∃ callId question, r.pendingCallId = some callId ∧ r.pendingQuestion = some question ∧
    AsksFirst R (r.openCalls R) callId question

structure AnswersOnce (R : Rig) (s : Engine R) (a : Action R) (s' : Engine R) (es : List Event) :
    Prop where
  parked : ∀ id r, s.db.runs id = some r → r.status = .waiting → r.Parked R
  leaves : ∀ id r r', s.db.runs id = some r → s'.db.runs id = some r' → r.status = .waiting →
    r'.status ≠ .waiting →
      (∃ now, a = .cancel id now ∧ r'.status = .cancelled ∧ enqueuedRuns es = []) ∨
      ∃ text, a = .answer id text ∧ Answered R text r r' ∧ enqueuedRuns es = [id]
  refuses : ∀ id text, a = .answer id text →
    (∃ r r', s.db.runs id = some r ∧ s'.db.runs id = some r' ∧ r.status = .waiting ∧
      r'.status ≠ .waiting) ∨
    (∃ e, answerRow R text (s.db.runs id) = .error e) ∧ s' = s ∧ es = []
  drops : ∀ id r r', s.db.runs id = some r → s'.db.runs id = some r' →
    r'.status.terminal = false → r.openCalls R = [] ∨ r'.openCalls R = r.openCalls R ∨
      ∃ c, r.openCalls R = c :: r'.openCalls R ∧
        (R.question c = none ∨ r.status = .waiting ∧ ∃ text, a = .answer id text)

theorem enqueuedRuns_append (es fs : List Event) :
    enqueuedRuns (es ++ fs) = enqueuedRuns es ++ enqueuedRuns fs := List.filterMap_append ..

theorem enqueuedRuns_wrote (writer : Option LeaseToken) (run : Uuid) (db db' : Db Json) :
    enqueuedRuns (wroteEvents writer run db db') = [] := by
  unfold enqueuedRuns wroteEvents
  rw [List.filterMap_map]
  exact List.filterMap_eq_nil_iff.mpr fun _ _ => rfl

section

variable {cfg : Config} {s s' : Engine R} {a : Action R} {es : List Event} {id : Uuid}
variable {r r' : RunRow Json}

/-- What `answer` read, where it accepted. -/
theorem answerRow_ok {text : String} {agentRun : R.AgentRun} {o : Option (RunRow Json)}
    (h : answerRow R text o = .ok agentRun) : ∃ r callId run run' calls exec, o = some r ∧
      r.status = .waiting ∧ r.pendingCallId = some callId ∧ R.fromValue r.runState = .ok run ∧
      R.nextStep run = (run', .ok (.callTools calls)) ∧ findAsk callId calls = some exec ∧
      R.answerExec run' exec (R.textResult (replaceNuls text)) = (agentRun, .ok ()) := by
  cases o with
  | none => cases h
  | some r =>
      unfold answerRow at h
      dsimp only at h
      split_ifs at h with hw
      cases hcall : r.pendingCallId with
      | none => rw [hcall] at h; cases h
      | some callId =>
          rw [hcall] at h
          simp only [answeredRun] at h
          split at h
          · cases h
          · case _ run hrun =>
              split at h
              · case _ run' calls hstep =>
                  split at h
                  · cases h
                  · case _ exec hfind =>
                      split_ifs at h with hname
                      split at h
                      · case _ agentRun' hans =>
                          cases h
                          exact ⟨r, callId, run, run', calls, exec, rfl, hw, hcall, hrun, hstep,
                            hfind, hans⟩
                      · cases h
              · cases h
              · cases h

theorem answered_of_parked (hb : R.Batched) (hr : R.RoundTrip) {text : String}
    {agentRun : R.AgentRun} {now : ℕ} (h : answerRow R text (some r) = .ok agentRun)
    (hp : r.Parked R) {rows : List (MessageRow Json)}
    (hu : (Tx.answerWaiting (R.toValue agentRun) rows).update now r = some r') :
    Answered R text r r' := by
  obtain ⟨r₀, callId, run, run', calls, exec, hr₀, hw, hcall, hrun, hstep, hfind, hans⟩ :=
    answerRow_ok h
  obtain rfl := Option.some.inj hr₀
  obtain ⟨callId', question, hcall', -, exec', rest, -, hcalls, hid, -, -⟩ := hp
  rw [hcall] at hcall'
  obtain rfl := Option.some.inj hcall'
  have hopen : r.openCalls R = calls := by
    rw [RunRow.openCalls_of_eq hrun, Rig.openCalls, hstep]
  -- the recorded ask is the first open call, so the search stops there
  obtain rfl : exec' = exec := by
    rw [← hopen, hcalls, findAsk, if_pos hid] at hfind
    exact Option.some.inj hfind
  have hstate : r'.runState = R.toValue agentRun := Tx.update_runState hu
  have hrest : r'.openCalls R = rest := by
    rw [RunRow.openCalls_stored hr hstate]
    refine hb.answers run' agentRun exec' rest _ ?_ hans
    rw [hb.reemits run run' calls hstep, ← hopen, hcalls]
  simp only [Tx.update, RunRow.answerWaiting, hw, if_true] at hu
  cases hu
  refine ⟨callId, exec', run, hcall, hid, hrun, by rw [hcalls, hrest], ?_, rfl, rfl⟩
  rw [hstep, hans]

/-- Only `ask_step` suspends. -/
theorem Advance.suspend_of_tx {me : LeaseToken} {pc : Advance R} {state : Json}
    {callId question : String} {rows : List (MessageRow Json)}
    (h : pc.tx cfg me = some (.setWaiting me state callId question rows)) :
    ∃ a run, pc = .driving a (.writing (.suspend run callId question) rows) ∧
      state = R.toValue run := by
  cases pc with
  | driving a st =>
      cases st with
      | writing w rows' =>
          cases w with
          | suspend run callId' question' => cases h; exact ⟨a, run, rfl, rfl⟩
          | _ => cases h
      | _ => cases h
  | _ => cases h

theorem parked_of_suspend (hr : R.RoundTrip) (hbasic : s.Basic)
    (hP : s.Holders fun r _ pc => pc.Opens (r.openCalls R)) {tx : Tx Json}
    (happ : s.applies cfg a = some (id, tx)) (hrow : s.db.runs id = some r)
    (hu : tx.update a.now r = some r') (hw : r'.status = .waiting) : r'.Parked R := by
  obtain ⟨me, state, callId, question, rows, rfl⟩ := Tx.update_waiting hu hw
  have hstate : r'.runState = state := Tx.update_runState hu
  generalize htx' : Tx.setWaiting me state callId question rows = tx' at happ
  cases applies_spec happ with
  | @attempt me' pc tx' hj htx =>
      subst htx'
      obtain rfl : me = me' := Option.some.inj (Advance.token_of_tx htx)
      obtain ⟨at', run, rfl, rfl⟩ := Advance.suspend_of_tx htx
      have hl : r.leasedBy me = true := Tx.leased_of_update rfl rfl hu
      obtain ⟨hopen, hasks⟩ := hP me _ r hj hrow hl
      have hflag := Tx.update_parked hu hw
      have hsame : r'.openCalls R = r.openCalls R := by
        rw [RunRow.openCalls_stored hr hstate, hopen]
      have hstored : r'.pendingCallId = some callId ∧ r'.pendingQuestion = some question := by
        simp only [Tx.update, RunRow.setWaiting, hl, if_true] at hu
        cases hc : r.cancelRequested with
        | true => rw [hc] at hu; cases hu; cases hw
        | false => rw [hc] at hu; cases hu; exact ⟨rfl, rfl⟩
      exact ⟨callId, question, hstored.1, hstored.2, by rw [hsame]; exact hasks⟩
  | @late l hl hid =>
      have hlinger := (hbasic.late l hl).1
      rw [← htx'] at hlinger
      cases hlinger
  | answer => cases htx'
  | cancel => cases htx'

/-- Every waiting row of a reachable state, with what its holders work on. -/
theorem parked_of_run (hb : R.Batched) (hr : R.RoundTrip) {C : Engine R → Action R → Prop}
    {log : List Event} (h : EngineRun cfg C log s) :
    s.Holders (fun r _ pc => pc.Opens (r.openCalls R)) ∧
      ∀ id r, s.db.runs id = some r → r.status = .waiting → r.Parked R := by
  have hall := h.safe (I := fun s => s.Basic ∧
    s.Holders (fun r _ pc => pc.Opens (r.openCalls R)) ∧
      ∀ id r, s.db.runs id = some r → r.status = .waiting → r.Parked R) ?_ ?_
  · exact hall.2
  · refine ⟨Engine.Basic.init, ?_, ?_⟩
    · rintro me j r ⟨⟩
    · rintro id r ⟨⟩
  · rintro s a s' es ⟨hbasic, hP, hi⟩ - hs
    have ht := step_took hs
    refine ⟨hbasic.step ht, Engine.opens_step hb hr hbasic hP ht, ?_⟩
    intro id r' hr'
    have hrow := ht.rowStep id
    rw [hr'] at hrow
    generalize ho : s.db.runs id = o at hrow
    cases hrow with
    | same => exact hi id r' ho
    | started => intro hw; cases hw
    | updated happ hu => exact parked_of_suspend hr hbasic hP happ ho hu

theorem Tx.newState_of_linger {tx : Tx Json} (h : Engine.canLinger tx = true) :
    tx.newState = none := by
  cases tx <;> first | rfl | cases h

/-- A transaction in nobody's name is a caller's. -/
theorem caller_of_applies (hbasic : s.Basic) {tx : Tx Json} (htoken : tx.token = none)
    (happ : s.applies cfg a = some (id, tx)) :
    (∃ text agentRun rows, a = .answer id text ∧ answerRow R text (s.db.runs id) = .ok agentRun ∧
      tx = .answerWaiting (R.toValue agentRun) rows) ∨
    ∃ now, a = .cancel id now ∧ tx = .cancelRun cfg.leaseTakeover := by
  have hattempt : ∀ {me : LeaseToken}, ((s.attempts me).bind fun j =>
      (j.pc.tx cfg me).map fun tx => (j.run, tx)) = some (id, tx) → False := by
    intro me h
    simp only [Option.bind_eq_some_iff, Option.map_eq_some_iff, Prod.mk.injEq] at h
    obtain ⟨j, -, tx', htx, -, rfl⟩ := h
    rw [Advance.token_of_tx htx] at htoken
    cases htoken
  cases a with
  | commit me now => exact (hattempt happ).elim
  | fails me fate now =>
      cases fate with
      | applied => exact (hattempt happ).elim
      | _ => cases happ
  | vanish me fate now =>
      cases fate with
      | applied => exact (hattempt happ).elim
      | _ => cases happ
  | applyLate i now =>
      simp only [Engine.applies, Option.map_eq_some_iff, Prod.mk.injEq] at happ
      obtain ⟨l, hl, -, rfl⟩ := happ
      have hlinger := (hbasic.late l (List.mem_of_getElem? hl)).1
      cases htx : l.tx with
      | answerWaiting => rw [htx] at hlinger; cases hlinger
      | cancelRun => rw [htx] at hlinger; cases hlinger
      | _ => rw [htx] at htoken; cases htoken
  | answer run text =>
      simp only [Engine.applies] at happ
      split at happ
      · case _ agentRun hans =>
          cases happ
          exact .inl ⟨text, agentRun, _, rfl, hans, rfl⟩
      · cases happ
  | cancel run now =>
      cases happ
      exact .inr ⟨now, rfl, rfl⟩
  | _ => cases happ

/-- What the holder stores of the batch, short of an end. -/
theorem Advance.drops_of_tx (hr : R.RoundTrip) {me : LeaseToken} {pc : Advance R} {tx : Tx Json}
    {now : ℕ} (htx : pc.tx cfg me = some tx) (hu : tx.update now r = some r')
    (ho : tx.isClaim = false → pc.Opens (r.openCalls R)) (ht : r'.status.terminal = false) :
    Drops R (r.openCalls R) (r'.openCalls R) := by
  have hstate := Tx.update_runState hu
  cases hnew : tx.newState with
  | none =>
      rw [hnew] at hstate
      exact .inr (.inl (RunRow.openCalls_congr hstate))
  | some state =>
      rw [hnew] at hstate
      cases pc with
      | driving at' st =>
          cases st with
          | writing w rows =>
              cases w with
              | persist run advanced next =>
                  cases htx
                  cases hnew
                  rw [RunRow.openCalls_stored hr hstate]
                  exact (ho rfl).1
              | suspend run callId question =>
                  cases htx
                  cases hnew
                  rw [RunRow.openCalls_stored hr hstate, (ho rfl).1]
                  exact .inr (.inl rfl)
              | finish run ending direct =>
                  cases htx
                  simp only [Write.tx, Tx.update, RunRow.finish] at hu
                  split_ifs at hu
                  cases hu
                  cases ending <;> cases ht
          | failing code direct => cases htx; cases hnew
          | beating g => cases htx; cases hnew
          | abandoning => cases htx; cases hnew
          | requeueing => cases htx; cases hnew
          | _ => cases htx
      | closing ending snap =>
          cases htx
          simp only [Tx.update, RunRow.finish] at hu
          split_ifs at hu
          cases hu
          cases ending <;> cases ht
      | claiming => cases htx; cases hnew
      | closingFails code => cases htx; cases hnew
      | releasing => cases htx; cases hnew
      | _ => cases htx

theorem drops_of_update (hb : R.Batched) (hr : R.RoundTrip) (hbasic : s.Basic)
    (hP : s.Holders fun r _ pc => pc.Opens (r.openCalls R))
    (hi : ∀ id r, s.db.runs id = some r → r.status = .waiting → r.Parked R) {tx : Tx Json}
    (happ : s.applies cfg a = some (id, tx)) (hrow : s.db.runs id = some r)
    (hu : tx.update a.now r = some r') (ht : r'.status.terminal = false) :
    Drops R (r.openCalls R) (r'.openCalls R) ∨
      ∃ text, a = .answer id text ∧ r.status = .waiting ∧ Answered R text r r' := by
  cases applies_spec happ with
  | @attempt me pc tx hj htx =>
      refine .inl (Advance.drops_of_tx hr htx hu ?_ ht)
      intro hclaim
      exact hP me _ r hj hrow (Tx.leased_of_update (Advance.token_of_tx htx) hclaim hu)
  | late hl hid =>
      have hstate := Tx.update_runState hu
      rw [Tx.newState_of_linger (hbasic.late _ hl).1] at hstate
      exact .inl (.inr (.inl (RunRow.openCalls_congr hstate)))
  | cancel => exact .inl (.inr (.inl (RunRow.openCalls_congr (Tx.update_runState hu))))
  | answer =>
      rcases caller_of_applies hbasic rfl happ with ⟨text, agentRun, rows, rfl, hans, htx⟩ | ⟨-, -, htx⟩
      · rw [hrow] at hans
        obtain ⟨r₀, -, -, -, -, -, hr₀, hw, -⟩ := answerRow_ok hans
        obtain rfl := Option.some.inj hr₀
        rw [htx] at hu
        exact .inr ⟨text, rfl, hw, answered_of_parked hb hr hans (hi id r hrow hw) hu⟩
      · cases htx

/-- A waiting row is only written by its callers. -/
theorem Tx.token_of_waiting {tx : Tx Json} {now : ℕ} (hw : r.status = .waiting)
    (hu : tx.update now r = some r') : tx.token = none := by
  cases ht : tx.token with
  | none => rfl
  | some me =>
      cases hc : tx.isClaim with
      | false =>
          have hl := (RunRow.leasedBy_iff.mp (leased_of_update ht hc hu)).2
          rw [hw] at hl
          cases hl
      | true =>
          cases tx with
          | tryClaim me takeover =>
              simp [update, RunRow.tryClaim, RunRow.claimable, hw] at hu
          | _ => cases hc

/-- What an answer does, refused or not. -/
theorem took_answer {text : String} (h : Took cfg s (.answer id text) s' es) :
    ((∃ e, answerRow R text (s.db.runs id) = .error e) ∧ s' = s ∧ es = []) ∨
      ((∃ r r', s.db.runs id = some r ∧ s'.db.runs id = some r' ∧ r.status = .waiting ∧
        r'.status ≠ .waiting) ∧ enqueuedRuns es = [id]) := by
  cases h with
  | here _ hl => cases hl
  | lost _ he => cases he
  | applied _ he => cases he
  | left _ he => cases he
  | refused he => exact .inl ⟨⟨_, he⟩, rfl, rfl⟩
  | answer hans hdb =>
      obtain ⟨r, -, -, -, -, -, hr, hw, -⟩ := answerRow_ok hans
      refine .inr ⟨?_, ?_⟩
      · rcases (Db.exec_at hdb).2 with ⟨-, -, hnone⟩ | ⟨r₀, r', -, hr₀, hu, hr', -⟩
        · simp [hr, Tx.update, RunRow.answerWaiting, hw] at hnone
        · rw [hr] at hr₀
          cases hr₀
          simp only [Tx.update, RunRow.answerWaiting, hw, if_true] at hu
          cases hu
          exact ⟨r, _, hr, hr', hw, by simp⟩
      · change enqueuedRuns (_ ++ [Event.enqueued id]) = [id]
        rw [enqueuedRuns_append, enqueuedRuns_wrote]
        rfl

theorem took_cancel {now : ℕ} (h : Took cfg s (.cancel id now) s' es) : enqueuedRuns es = [] := by
  cases h with
  | here _ hl => cases hl
  | lost _ he => cases he
  | applied _ he => cases he
  | left _ he => cases he
  | cancel => exact enqueuedRuns_wrote ..

/-- In every reachable state the recorded ask of a waiting run is its first open
call, one answer or cancel takes the run out of `waiting`, and every other answer
changes nothing. -/
theorem answered_once (hb : R.Batched) (hr : R.RoundTrip) {log : List Event}
    (h : EngineRun cfg StepRun.Free log s) (hs : Engine.step cfg s a = some (s', es)) :
    AnswersOnce R s a s' es := by
  obtain ⟨hP, hparked⟩ := parked_of_run hb hr h
  have hbasic := Engine.Basic.of_run h
  have ht := step_took hs
  refine ⟨hparked, ?_, ?_, ?_⟩
  · intro id r r' hrow hrow' hw hw'
    have hstep := ht.rowStep id
    rw [hrow, hrow'] at hstep
    cases hstep with
    | same => exact absurd hw hw'
    | updated happ hu =>
        rcases caller_of_applies hbasic (Tx.token_of_waiting hw hu) happ with
          ⟨text, agentRun, rows, rfl, hans, rfl⟩ | ⟨now, rfl, rfl⟩
        · rw [hrow] at hans
          have hanswered := answered_of_parked hb hr hans (hparked id r hrow hw) hu
          rcases took_answer ht with ⟨⟨e, he⟩, -⟩ | ⟨-, henq⟩
          · rw [hrow, hans] at he
            cases he
          · exact .inr ⟨text, rfl, hanswered, henq⟩
        · refine .inl ⟨now, rfl, ?_, took_cancel ht⟩
          cases hu
          have ha : r.cancelAction cfg.leaseTakeover (Action.cancel id now : Action R).now =
              .cancelNow := by
            unfold RunRow.cancelAction
            rw [hw]
          rw [RunRow.cancelRun_eq, ha]
  · rintro id text rfl
    rcases took_answer ht with hrefused | ⟨hleft, -⟩
    · exact .inr hrefused
    · exact .inl hleft
  · intro id r r' hrow hrow' hterm
    have hstep := ht.rowStep id
    rw [hrow, hrow'] at hstep
    cases hstep with
    | same => exact .inr (.inl rfl)
    | updated happ hu =>
        rcases drops_of_update hb hr hbasic hP hparked happ hrow hu hterm with
          (hnone | hsame | ⟨c, hc, hq⟩) | ⟨text, htext, hw, callId, exec, run, -, -, -, hcalls, -⟩
        · exact .inl hnone
        · exact .inr (.inl hsame)
        · exact .inr (.inr ⟨c, hc, .inl hq⟩)
        · exact .inr (.inr ⟨_, hcalls, .inr ⟨hw, text, htext⟩⟩)

end

/-! ## Two asks in one batch -/

/-- The two asks take their answers in order. -/
def answerInOrder (n : ℕ) (second : Bool) : ℕ × Except PromptError Unit :=
  if n = 2 ∧ second = false ∨ n = 3 ∧ second = true then (n + 1, .ok ()) else (n, .error .other)

theorem answerInOrder_ok {n n' : ℕ} {second : Bool} (h : answerInOrder n second = (n', .ok ())) :
    (n = 2 ∧ second = false ∧ n' = 3) ∨ (n = 3 ∧ second = true ∧ n' = 4) := by
  unfold answerInOrder at h
  split_ifs at h with hturn
  · cases h
    rcases hturn with ⟨rfl, rfl⟩ | ⟨rfl, rfl⟩
    · exact .inl ⟨rfl, rfl, rfl⟩
    · exact .inr ⟨rfl, rfl, rfl⟩
  · cases h

/-- The conversation of `Rig.scripted`, where the model asks two questions at once. -/
def Rig.asking : Rig :=
  { Rig.scripted with
    ExecCall := Bool
    nextStep := fun n : ℕ => (n, match n with
      | 1 => .ok (.callModel (.user, "greet me") [] 0)
      | 2 => .ok (.callTools [.execute false, .execute true])
      | 3 => .ok (.callTools [.execute true])
      | 4 => .ok (.done "hello")
      | _ => .error .other)
    callId := fun second => if second then "call-2" else "call-1"
    callName := fun _ => "ask"
    askArgs := fun second => some (if second then "how old are you?" else "what is your name?")
    answerExec := fun n second _ => answerInOrder n second }

theorem Rig.asking_roundTrip : Rig.asking.RoundTrip := Rig.scripted_roundTrip

theorem Rig.asking_batched : Rig.asking.Batched where
  reemits run run' calls h := by
    have hsame : run = run' := (Prod.ext_iff.mp h).1
    subst hsame
    rw [Rig.openCalls, h]
  answers run run' exec rest result hopen hans := by
    rcases answerInOrder_ok hans with ⟨rfl, rfl, rfl⟩ | ⟨rfl, rfl, rfl⟩
    · cases hopen
      rfl
    · cases hopen
      rfl
  answersMalformed _ _ call := Empty.elim call
  prepares run run' prompt history turn prepared model h := by
    have hsame : run = run' := (Prod.ext_iff.mp h).1
    subst hsame
    change Rig.asking.openCalls run = []
    rw [Rig.openCalls, h]

/-- The first answer resolves the first ask; the second ask stays open. -/
theorem answered_once_asking : ∃ (s s' : Engine Rig.asking) (es : List Event)
    (r r' : RunRow Json), s.db.runs 1 = some r ∧ s'.db.runs 1 = some r' ∧
      Answered Rig.asking "Ann" r r' ∧ (r'.openCalls Rig.asking).length = 1 ∧
      enqueuedRuns es = [1] := by
  obtain ⟨log, s, hrun, hdone⟩ := StepRun.exists_free_run (Engine.step scriptedConfig)
    (Engine.init (R := Rig.asking))
    [.start 1 "greeter" "greet me" 0, .begin 7 1, .commit 7 1, .input 7 .proceed, .readSeq 7,
      .commit 7 2, .input 7 (.reply (.ok "call ask")), .readSeq 7, .commit 7 3,
      .input 7 .proceed, .readSeq 7, .commit 7 4]
    (fun _ s => (s.db.runs 1).any fun r => r.status == .waiting &&
      (Engine.step scriptedConfig s (.answer 1 "Ann")).any fun q =>
        (q.1.db.runs 1).any fun r' =>
          !(r'.status == .waiting) && (r'.openCalls Rig.asking).length == 1) (by decide)
  simp only [Option.any_eq_true, Bool.and_eq_true, beq_iff_eq, Bool.not_eq_true',
    beq_eq_false_iff_ne] at hdone
  obtain ⟨r, hr, hw, ⟨s', es⟩, hstep, r', hr', hw', hone⟩ := hdone
  have h := answered_once Rig.asking_batched Rig.asking_roundTrip hrun hstep
  rcases h.leaves 1 r r' hr hr' hw hw' with ⟨now, hcancel, -⟩ | ⟨text, htext, hanswered, henq⟩
  · cases hcancel
  · cases htext
    exact ⟨s, s', es, r, r', hr, hr', hanswered, hone, henq⟩

end Cja.Durable
