import Cja.Durable.Cancel

/-!
# The token budget

The budget is checked in memory, after the persist that may already have stored
a state above it. Whoever claims such a row drives it on: only the attempt that
stored it knows that the run is over, and it does so only where the sum of the
two counts fits in a `u64`.
-/
namespace Cja.Durable

open Jobs (Uuid)

variable {R : Rig}

/-- `AgentRun::usage` counts the responses of the model and nothing else. -/
structure Rig.UsageOfReplies (R : Rig) : Prop where
  fromSpec : ∀ kind prompt, R.tokens (R.fromSpec kind prompt) = 0
  nextStep : ∀ run, R.tokens (R.nextStep run).1 = R.tokens run
  advertiseTools : ∀ run turn prepared,
    R.tokens (R.advertiseTools run turn prepared) = R.tokens run
  setPreviousModel : ∀ run model, R.tokens (R.setPreviousModel run model) = R.tokens run
  answerExec : ∀ run exec result,
    R.tokens (R.answerExec run exec result).1 = R.tokens run
  answerMalformed : ∀ run call, R.tokens (R.answerMalformed run call).1 = R.tokens run

/-- The stored state carries more tokens than the kind of the run allows. -/
def RunRow.overBudget (R : Rig) (cfg : Config) (r : RunRow Json) : Bool :=
  match cfg.kindNamed r.kind, R.fromValue r.runState with
  | some kind, .ok run => kind.maxTotalTokens < R.tokens run
  | _, _ => false

/-- The endings a run above its budget may have. -/
def Ending.ofBudget : Ending → Bool
  | cancelled | failed .tokenBudget _ => true
  | _ => false

/-- The run refuses the response it is given, or its resolution, above the budget. -/
def Advance.refusesOver : Advance R → Input R → Bool
  | driving a (.guarded (.model run prepared _)), .reply (.ok response) =>
      match R.modelResponse run prepared response with
      | (run, .error _) => a.kind.maxTotalTokens < R.tokens run
      | _ => false
  | driving a (.resolving run), .proceed =>
      match R.resolveUnhandledInvalidToolCall run with
      | (run, .error _) => a.kind.maxTotalTokens < R.tokens run
      | _ => false
  | _, _ => false

/-- The response, or its resolution, leaves more tokens than the check can add up. -/
def Advance.overflows : Advance R → Input R → Bool
  | driving _ (.guarded (.model run prepared _)), .reply (.ok response) =>
      match R.modelResponse run prepared response with
      | (run, .ok .settled) => 2 ^ 64 ≤ R.tokens run
      | _ => false
  | driving _ (.resolving run), .proceed =>
      match R.resolveUnhandledInvalidToolCall run with
      | (run, .ok .settled) => 2 ^ 64 ≤ R.tokens run
      | _ => false
  | _, _ => false

/-- No claim takes a run above its budget that is not flagged either, no response
is refused above the budget or overflows its check, and the database stores again
what it has stored. -/
def Engine.budgeted (cfg : Config) (s : Engine R) (a : Action R) : Bool :=
  (match s.applies cfg a with
    | some (id, tx) => !tx.isClaim || (s.db.runs id).all fun r =>
        (tx.update a.now r).isNone || r.cancelRequested || !r.overBudget R cfg
    | none => true) &&
  match a with
  | .rejects me _ => (s.attempts me).all fun j => (s.db.runs j.run).all fun r =>
      !r.leasedBy me || !r.overBudget R cfg
  | .input me i => (s.attempts me).all fun j => !j.pc.refusesOver i && !j.pc.overflows i
  | _ => true

/-- The attempt waits for the model. -/
def Stage.callsModel : Stage R → Bool
  | guarded (.model ..) | beating (.model ..) => true
  | _ => false

def Advance.callsModel : Advance R → Bool
  | driving _ st => st.callsModel
  | _ => false

/-- Attempt `me` on run `id` waits for the model. -/
def Engine.callsModel (s : Engine R) (me : LeaseToken) (id : Uuid) : Bool :=
  (s.attempts me).any fun j => j.run == id && j.pc.callsModel

section

variable {cfg : Config} {r r' : RunRow Json} {run : R.AgentRun} {k : AgentKind}

theorem RunRow.overBudget_congr (hk : r'.kind = r.kind) (hs : r'.runState = r.runState) :
    r'.overBudget R cfg = r.overBudget R cfg := by
  simp only [overBudget, hk, hs]

theorem RunRow.overBudget_eq (hr : R.RoundTrip) (hk : cfg.kindNamed r.kind = some k)
    (hs : r.runState = R.toValue run) :
    r.overBudget R cfg = decide (k.maxTotalTokens < R.tokens run) := by
  simp only [overBudget, hk, hs, hr run]

theorem RunRow.overBudget_of_zero (hr : R.RoundTrip) (hs : r.runState = R.toValue run)
    (h : R.tokens run = 0) : r.overBudget R cfg = false := by
  simp only [overBudget, hs, hr run]
  cases cfg.kindNamed r.kind with
  | none => rfl
  | some k => simp [h]

theorem RunRow.overBudget_of_le (hr : R.RoundTrip) (hk : cfg.kindNamed r.kind = some k)
    (hs : r.runState = R.toValue run) (h : R.tokens run ≤ k.maxTotalTokens) :
    r.overBudget R cfg = false := by
  rw [overBudget_eq hr hk hs, decide_eq_false_iff_not]
  omega

end

/-! ## What an attempt holds in memory -/

def Write.Within (max : ℕ) : Write R → Prop
  | persist run _ .checkBudget => R.tokens run < 2 ^ 64
  | finish run ending _ => ending.ofBudget = true ∨ R.tokens run ≤ max
  | w => R.tokens w.run ≤ max

/-- The run is within the budget, but for what comes between a response and its check. -/
def Stage.Within (max : ℕ) : Stage R → Prop
  | top run => R.tokens run ≤ max
  | projecting w | writing w _ => w.Within max
  | guarded g | beating g => R.tokens g.run ≤ max
  | failing _ _ | resolving _ | abandoning | requeueing => True

/-- A write that ends a run above its budget. -/
def Write.closes : Write R → Bool
  | finish _ ending _ => ending.ofBudget
  | _ => false

/-- The write that ends a run above its budget is on its way. -/
def Stage.closes : Stage R → Bool
  | projecting w | writing w _ => w.closes
  | _ => false

/-- What a lease holder knows of the budget. -/
def Advance.Budgeted (R : Rig) (cfg : Config) (r : RunRow Json) : Advance R → Prop
  | closing ending snap =>
      snap.runState = r.runState ∧ (r.overBudget R cfg = true → ending.ofBudget = true)
  | closingFails _ => r.overBudget R cfg = false
  | driving _ .requeueing => True
  | driving a st => cfg.kindNamed r.kind = some a.kind ∧ st.Within a.kind.maxTotalTokens ∧
      (r.overBudget R cfg = true → st.closes = true)
  | _ => True

namespace Stage

variable {a : Attempt} {run : R.AgentRun} {max : ℕ}

theorem failTerminal_within {error : PromptError} {direct : Bool} (h : R.tokens run ≤ max) :
    (failTerminal run error direct).Within max := .inr h

theorem answeredCall_within {rest : List R.Call} {p : R.AgentRun × Except PromptError Unit}
    (h : R.tokens p.1 ≤ max) : (answeredCall rest p).Within max := by
  obtain ⟨run, e⟩ := p
  cases e with
  | error error => exact failTerminal_within h
  | ok u => exact h

theorem callToolsStep_within (hu : R.UsageOfReplies) (calls : List R.Call)
    (h : R.tokens run ≤ max) : (callToolsStep run calls).Within max := by
  cases calls with
  | nil => exact h
  | cons call rest =>
      cases call with
      | malformed call =>
          apply answeredCall_within
          rw [hu.answerMalformed]
          exact h
      | execute exec =>
          simp only [callToolsStep]
          split_ifs
          · unfold askStep
            split
            · exact h
            · apply answeredCall_within
              rw [hu.answerExec]
              exact h
          · exact h

theorem callModelStep_within (hu : R.UsageOfReplies) (a : Attempt) (prompt : R.Message)
    (history : List R.Message) (turn : ℕ) (h : R.tokens run ≤ max) :
    (callModelStep a run prompt history turn).Within max := by
  unfold callModelStep
  split
  · exact .inr h
  · change R.tokens (checkpoint a run turn _) ≤ max
    rw [checkpoint, hu.setPreviousModel, hu.advertiseTools]
    exact h

theorem drive_within (hu : R.UsageOfReplies) (a : Attempt) (h : R.tokens run ≤ max) :
    (drive a run).Within max := by
  have hnext := hu.nextStep run
  unfold drive
  split
  · case _ hs => rw [hs] at hnext; exact failTerminal_within (hnext.trans_le h)
  · case _ hs => rw [hs] at hnext; exact callModelStep_within hu a _ _ _ (hnext.trans_le h)
  · case _ hs => rw [hs] at hnext; exact callToolsStep_within hu _ (hnext.trans_le h)
  · case _ hs => rw [hs] at hnext; exact hnext.trans_le h

theorem settle_within {p : R.AgentRun × Except PromptError ModelTurnOutcome}
    (h : ∀ e, p.2 = .error e → R.tokens p.1 ≤ max)
    (hfits : p.2 = .ok .settled → R.tokens p.1 < 2 ^ 64) : (settle p).Within max := by
  obtain ⟨run, e⟩ := p
  cases e with
  | error error => exact failTerminal_within (h error rfl)
  | ok outcome =>
      cases outcome with
      | needsResolution => trivial
      | settled => exact hfits rfl

theorem proceed_within (hu : R.UsageOfReplies) {advanced : Bool} (next : Next R)
    (h : (Write.persist run advanced next).Within a.kind.maxTotalTokens) :
    (proceed a run next).Within a.kind.maxTotalTokens := by
  cases next with
  | callModel prepared request => exact h
  | succeed output => exact .inr h
  | callTools rest => exact callToolsStep_within hu rest h
  | checkBudget =>
      simp only [proceed, R.totalTokens_eq h]
      split_ifs with hover
      · exact .inl rfl
      · exact Nat.le_of_not_lt hover

end Stage

/-! ## The invariant -/

/-- A run above its budget is still running, or it ended so. -/
def RunRow.BudgetOk (R : Rig) (cfg : Config) (r : RunRow Json) : Prop :=
  r.overBudget R cfg = true → r.status = .running ∨ r.status = .cancelled ∨
    (r.status = .failed ∧ r.failReason = some .tokenBudget)

theorem RunRow.BudgetOk.of_within {cfg : Config} {r : RunRow Json}
    (h : r.overBudget R cfg = false) : r.BudgetOk R cfg := by
  intro hover
  rw [h] at hover
  cases hover

structure BudgetInv (cfg : Config) (s : Engine R) : Prop where
  rows : ∀ id r, s.db.runs id = some r → r.BudgetOk R cfg
  holders : s.Holders fun r _ pc => pc.Budgeted R cfg r
  claims : s.ClaimsLate
  fails : ∀ l ∈ s.late, ∀ me code, l.tx = .failUnstorable me code → ∀ r,
    s.db.runs l.run = some r → r.leasedBy me = true → r.overBudget R cfg = false

namespace Advance

variable {cfg : Config} {r r' : RunRow Json} {rows : List (MessageRow Json)} {pc pc' : Advance R}
variable {me : LeaseToken}

theorem budgeted_of_over (h : pc.over = true) : pc.Budgeted R cfg r := by
  cases pc with
  | driving a st =>
      cases st with
      | requeueing => trivial
      | _ => cases h
  | closing ending snap => cases h
  | closingFails code => cases h
  | _ => trivial

theorem Budgeted.congr (h : pc.Budgeted R cfg r) (hk : r'.kind = r.kind)
    (hs : r'.runState = r.runState) : pc.Budgeted R cfg r' := by
  have hover : r'.overBudget R cfg = r.overBudget R cfg := RunRow.overBudget_congr hk hs
  cases pc with
  | driving a st =>
      cases st with
      | requeueing => trivial
      | _ => simpa only [Budgeted, hk, hover] using h
  | closing ending snap => simpa only [Budgeted, hs, hover] using h
  | closingFails code => simpa only [Budgeted, hover] using h
  | _ => trivial

/-- A driving stage other than the requeue, taken apart. -/
theorem budgeted_driving {a : Attempt} {st : Stage R} (hst : st ≠ .requeueing) :
    (driving a st).Budgeted R cfg r ↔ cfg.kindNamed r.kind = some a.kind ∧
      st.Within a.kind.maxTotalTokens ∧ (r.overBudget R cfg = true → st.closes = true) := by
  cases st with
  | requeueing => exact absurd rfl hst
  | _ => exact Iff.rfl

theorem budgeted_of_within {a : Attempt} {st : Stage R} (hk : cfg.kindNamed r.kind = some a.kind)
    (hw : st.Within a.kind.maxTotalTokens) (hr : r.overBudget R cfg = false) :
    (driving a st).Budgeted R cfg r := by
  have hclose : r.overBudget R cfg = true → st.closes = true := by simp [hr]
  cases st with
  | requeueing => trivial
  | _ => exact ⟨hk, hw, hclose⟩

theorem budgeted_local (hu : R.UsageOfReplies) {s : Engine R} {run : Uuid} {a : Action R}
    (hc : s.budgeted cfg a = true) (hl : Local s me run pc a pc')
    (hj : s.attempts me = some ⟨run, pc⟩) (hrow : s.db.runs run = some r)
    (hleased : r.leasedBy me = true) (h : pc.Budgeted R cfg r) : pc'.Budgeted R cfg r := by
  cases hl with
  | readStatus => trivial
  | @readSeq a w => exact h
  | @rejects pc pc' code hrej =>
      have hfit : r.overBudget R cfg = false := by
        have hrejects := hc
        simp only [Engine.budgeted, hj, hrow, hleased, Engine.applies, Bool.true_and,
          Option.all_some, Bool.not_true, Bool.false_or, Bool.not_eq_true'] at hrejects
        exact hrejects
      cases pc with
      | driving a st =>
          cases st with
          | writing w new =>
              cases hrej
              exact ⟨h.1, trivial, by simp [hfit]⟩
          | _ => cases hrej
      | closing ending snap =>
          cases hrej
          exact hfit
      | _ => cases hrej
  | @input pc pc' i hi =>
      obtain ⟨hrefuse, hfits⟩ : pc.refusesOver i = false ∧ pc.overflows i = false := by
        have hinput := hc
        simp only [Engine.budgeted, hj, Engine.applies, Bool.true_and, Option.all_some,
          Bool.and_eq_true, Bool.not_eq_true'] at hinput
        exact hinput
      have hfit : ∀ {a : Attempt} {st : Stage R}, (driving a st).Budgeted R cfg r →
          st ≠ .requeueing → st.closes = false → r.overBudget R cfg = false := by
        intro a st hb hne hst
        rw [budgeted_driving hne] at hb
        cases ho : r.overBudget R cfg with
        | false => rfl
        | true =>
            have := hb.2.2 ho
            rw [hst] at this
            cases this
      cases hi with
      | drive a m =>
          exact budgeted_of_within h.1 (Stage.drive_within hu a h.2.1) (hfit h (by simp) rfl)
      | resolve a m =>
          refine budgeted_of_within h.1 (Stage.settle_within ?_ ?_) (hfit h (by simp) rfl)
          · intro e he
            obtain ⟨m', hm⟩ : ∃ m', R.resolveUnhandledInvalidToolCall m = (m', .error e) :=
              ⟨_, Prod.ext rfl he⟩
            simpa [refusesOver, hm] using hrefuse
          · intro he
            obtain ⟨m', hm⟩ : ∃ m', R.resolveUnhandledInvalidToolCall m = (m', .ok .settled) :=
              ⟨_, Prod.ext rfl he⟩
            simpa [overflows, hm] using hfits
      | stop a => exact budgeted_of_over (retry_over a)
      | abandon a g => exact ⟨h.1, trivial, by simp [hfit h (by simp) rfl]⟩
      | beat a g => exact h
      | @replied a m prepared request response hresp =>
          refine budgeted_of_within h.1 ?_ (hfit h (by simp) rfl)
          cases response with
          | error e => exact .inr h.2.1
          | ok response =>
              refine Stage.settle_within ?_ ?_
              · intro e he
                obtain ⟨m', hm⟩ : ∃ m', R.modelResponse m prepared response = (m', .error e) :=
                  ⟨_, Prod.ext rfl he⟩
                simpa [refusesOver, hm] using hrefuse
              · intro he
                obtain ⟨m', hm⟩ : ∃ m', R.modelResponse m prepared response = (m', .ok .settled) :=
                  ⟨_, Prod.ext rfl he⟩
                simpa [overflows, hm] using hfits
      | retryable a => exact budgeted_of_over (retry_over a)
      | toolReturns a m exec rest result =>
          refine budgeted_of_within h.1 (Stage.answeredCall_within ?_) (hfit h (by simp) rfl)
          rw [hu.answerExec]
          exact h.2.1

/-- The answer to an attempt's transaction leaves it within the budget. -/
theorem budgeted_answers (hu : R.UsageOfReplies) (hr : R.RoundTrip) {tx : Tx Json} {now : ℕ}
    (hans : Answers cfg pc (some r') pc') (htx : pc.tx cfg me = some tx)
    (hupdate : tx.update now r = some r')
    (hclaim : tx.isClaim = true → r.cancelRequested = true ∨ r.overBudget R cfg = false)
    (h : r.leasedBy me = true → pc.Budgeted R cfg r) : pc'.Budgeted R cfg r' := by
  have hkind := Tx.update_kind hupdate
  have hstate := Tx.update_runState hupdate
  cases hans with
  | claimed =>
      cases htx
      have hover : r'.overBudget R cfg = r.overBudget R cfg :=
        RunRow.overBudget_congr hkind hstate
      have hflag : r'.cancelRequested = r.cancelRequested := by
        simp only [Tx.update, RunRow.tryClaim] at hupdate
        split_ifs at hupdate
        cases hupdate; rfl
      unfold claimed
      dsimp only
      split_ifs with hc
      · exact ⟨rfl, fun _ => rfl⟩
      · have hwithin : r'.overBudget R cfg = false := by
          rcases hclaim rfl with hcancel | hwithin
          · rw [hflag] at hc
            exact absurd hcancel hc
          · rw [hover, hwithin]
        split
        · exact ⟨rfl, by simp [hwithin]⟩
        · exact ⟨rfl, by simp [hwithin]⟩
        · case _ k run hk hrun =>
            have hname : cfg.kindNamed r'.kind = some k := hk
            refine budgeted_of_within hname ?_ hwithin
            have hle : ¬k.maxTotalTokens < R.tokens run := by
              simpa [RunRow.overBudget, hk, hrun] using hwithin
            exact Nat.le_of_not_lt hle
  | landed a w new =>
      have hleased : r.leasedBy me = true := Tx.leased_of_update (token_of_tx htx)
        (by cases w <;> (cases htx; rfl)) hupdate
      obtain ⟨hk, hw, -⟩ := h hleased
      cases w with
      | persist run advanced next =>
          cases htx
          have hk' : cfg.kindNamed r'.kind = some a.kind := by rw [hkind]; exact hk
          have hover := RunRow.overBudget_eq (r := r') hr hk' hstate
          simp only [landed]
          split_ifs
          · exact ⟨hk', .inl rfl, fun _ => rfl⟩
          · have hproceed := Stage.proceed_within (a := ⟨a.kind, a.model, a.progress || advanced⟩)
              hu next hw
            cases next with
            | checkBudget =>
                simp only [Stage.proceed, R.totalTokens_eq hw] at hproceed ⊢
                split_ifs with hlt
                · exact ⟨hk', .inl rfl, fun _ => rfl⟩
                · exact ⟨hk', Nat.le_of_not_lt hlt, by simp [hover, hlt]⟩
            | callModel prepared request =>
                exact budgeted_of_within hk' hproceed (RunRow.overBudget_of_le hr hk' hstate hw)
            | callTools rest =>
                exact budgeted_of_within hk' hproceed (RunRow.overBudget_of_le hr hk' hstate hw)
            | succeed output =>
                exact budgeted_of_within hk' hproceed (RunRow.overBudget_of_le hr hk' hstate hw)
      | suspend => trivial
      | finish => trivial
  | beatCancelled a g =>
      cases htx
      obtain ⟨hk, -, -⟩ := h (Tx.leased_of_update rfl rfl hupdate)
      exact ⟨by rw [hkind]; exact hk, .inl rfl, fun _ => rfl⟩
  | beat a g =>
      cases htx
      exact (h (Tx.leased_of_update rfl rfl hupdate)).congr hkind hstate
  | abandoned a => exact budgeted_of_over (retry_over a)
  | closed => trivial
  | closedFailed => trivial
  | failed => trivial
  | requeued => trivial
  | released => trivial

/-- What a lease holder commits leaves the row within the budget or closed. -/
theorem budgetOk_tx (hr : R.RoundTrip) {tx : Tx Json} {now : ℕ} (htx : pc.tx cfg me = some tx)
    (hleased : r.leasedBy me = true) (h : pc.Budgeted R cfg r)
    (hupdate : tx.update now r = some r') : r'.BudgetOk R cfg := by
  have hrun := (RunRow.leasedBy_iff.mp hleased).2
  have hkind := Tx.update_kind hupdate
  have hstate := Tx.update_runState hupdate
  have hfinish : ∀ {ending : Ending} {snap : RunSnapshot Json},
      r.finish me ending snap now = some r' → ending.ofBudget = true → r'.BudgetOk R cfg := by
    intro ending snap hf hending _
    simp only [RunRow.finish, hleased, if_true] at hf
    cases hf
    cases ending with
    | succeeded output => cases hending
    | cancelled => exact .inr (.inl rfl)
    | failed reason message =>
        cases reason <;> first | exact .inr (.inr ⟨rfl, rfl⟩) | cases hending
  cases pc with
  | claiming =>
      cases htx
      simp only [Tx.update, RunRow.tryClaim] at hupdate
      split_ifs at hupdate
      cases hupdate
      exact fun _ => .inl rfl
  | closing ending snap =>
      cases htx
      obtain ⟨hsnap, hending⟩ := h
      intro hover
      have hover' : r.overBudget R cfg = true := by
        have hsame : r'.overBudget R cfg = r.overBudget R cfg :=
          RunRow.overBudget_congr hkind (hstate.trans hsnap)
        rw [← hsame]
        exact hover
      exact hfinish hupdate (hending hover') hover
  | closingFails code =>
      cases htx
      apply RunRow.BudgetOk.of_within
      rw [RunRow.overBudget_congr hkind hstate]
      exact h
  | releasing =>
      cases htx
      simp only [Tx.update, RunRow.releaseLease, hleased, if_true] at hupdate
      cases hupdate
      exact fun _ => .inl hrun
  | driving a st =>
      cases st with
      | writing w new =>
          obtain ⟨hk, hw, -⟩ := h
          have hk' : cfg.kindNamed r'.kind = some a.kind := by rw [hkind]; exact hk
          cases w with
          | persist run advanced next =>
              cases htx
              simp only [Write.tx, Tx.update, RunRow.persistStep, hleased, if_true] at hupdate
              cases hupdate
              exact fun _ => .inl hrun
          | suspend run callId question =>
              cases htx
              exact .of_within (RunRow.overBudget_of_le hr hk' hstate hw)
          | finish run ending direct =>
              cases htx
              rcases hw with hending | hle
              · exact hfinish hupdate hending
              · exact .of_within (RunRow.overBudget_of_le hr hk' hstate hle)
      | failing code direct =>
          cases htx
          apply RunRow.BudgetOk.of_within
          rw [RunRow.overBudget_congr hkind hstate]
          cases ho : r.overBudget R cfg with
          | false => rfl
          | true => cases h.2.2 ho
      | beating g =>
          cases htx
          simp only [Tx.update, RunRow.heartbeat, hleased, if_true] at hupdate
          cases hupdate
          exact fun _ => .inl hrun
      | abandoning =>
          cases htx
          simp only [Tx.update, RunRow.releaseLease, hleased, if_true] at hupdate
          cases hupdate
          exact fun _ => .inl hrun
      | requeueing =>
          cases htx
          simp only [Tx.update, RunRow.releaseLease, hleased, if_true] at hupdate
          cases hupdate
          exact fun _ => .inl hrun
      | _ => cases htx
  | _ => cases htx

end Advance

section

variable {cfg : Config} {s s' : Engine R} {a : Action R} {es : List Event}

/-- An answer leaves the usage of the stored run. -/
theorem answerRow_usage (hu : R.UsageOfReplies) {text : String} {r : RunRow Json}
    {run : R.AgentRun} (h : answerRow R text (some r) = .ok run) :
    r.status = .waiting ∧ ∃ run₀, R.fromValue r.runState = .ok run₀ ∧
      R.tokens run = R.tokens run₀ := by
  simp only [answerRow] at h
  split_ifs at h with hw
  split at h
  · cases h
  refine ⟨hw, ?_⟩
  unfold answeredRun at h
  split at h
  · cases h
  case _ run₀ hrun₀ =>
  refine ⟨run₀, hrun₀, ?_⟩
  have hnext := hu.nextStep run₀
  split at h
  · case _ run₁ calls hs =>
      rw [hs] at hnext
      split at h
      · cases h
      case _ exec _ =>
      split_ifs at h
      have hanswer := hu.answerExec run₁ exec (R.textResult (replaceNuls text))
      split at h
      · case _ hx =>
          cases h
          rw [hx] at hanswer
          exact hanswer.trans hnext
      · cases h
  · cases h
  · cases h

/-- A refused claim aside, a claim takes no run above its budget. -/
theorem budgeted_claim {id : Uuid} {tx : Tx Json} {r r' : RunRow Json}
    (hc : s.budgeted cfg a = true) (happ : s.applies cfg a = some (id, tx))
    (hr : s.db.runs id = some r) (hu : tx.update a.now r = some r') (hclaim : tx.isClaim = true) :
    r.cancelRequested = true ∨ r.overBudget R cfg = false := by
  simp only [Engine.budgeted, happ, Bool.and_eq_true] at hc
  have hrow := hc.1
  simp only [hclaim, hr, hu, Option.all_some, Option.isNone_some, Bool.not_true, Bool.false_or,
    Bool.or_eq_true, Bool.not_eq_true'] at hrow
  exact hrow

namespace BudgetInv

theorem init : BudgetInv cfg (Engine.init : Engine R) := by
  constructor <;> simp [Engine.init, Db.empty, Engine.Holders, Engine.ClaimsLate]

/-- What the database applies keeps a row within the budget. -/
theorem row_step (hu : R.UsageOfReplies) (hr : R.RoundTrip) (hb : s.Basic) (hi : BudgetInv cfg s)
    (htook : Took cfg s a s' es) (id : Uuid) (r' : RunRow Json)
    (hr' : s'.db.runs id = some r') : r'.BudgetOk R cfg := by
  have hrow := htook.rowStep id
  generalize ho : s.db.runs id = o at hrow
  rw [hr'] at hrow
  cases hrow with
  | same => exact hi.rows id r' ho
  | @started k kind prompt now hk ha =>
      exact .of_within (RunRow.overBudget_of_zero hr rfl (hu.fromSpec k prompt))
  | @updated tx r _ happ hupdate =>
      have hok := hi.rows id r ho
      cases applies_spec happ with
      | @attempt me pc tx hj htx =>
          cases hclaim : tx.isClaim with
          | true =>
              obtain rfl := Advance.claiming_of_isClaim htx hclaim
              cases htx
              simp only [Tx.update, RunRow.tryClaim] at hupdate
              split_ifs at hupdate
              cases hupdate
              exact fun _ => .inl rfl
          | false =>
              have hleased := Tx.leased_of_update (Advance.token_of_tx htx) hclaim hupdate
              exact Advance.budgetOk_tx hr htx hleased (hi.holders me _ r hj ho hleased) hupdate
      | @late l hl hid =>
          have hlinger := (hb.late l hl).1
          subst hid
          cases htx : l.tx with
          | failUnstorable me code =>
              rw [htx] at hupdate
              have hleased := Tx.leased_of_update rfl rfl hupdate
              apply RunRow.BudgetOk.of_within
              rw [RunRow.overBudget_congr (Tx.update_kind hupdate) (Tx.update_runState hupdate)]
              exact hi.fails l hl me code htx r ho hleased
          | tryClaim me takeover =>
              rw [htx] at hupdate
              simp only [Tx.update, RunRow.tryClaim] at hupdate
              split_ifs at hupdate
              cases hupdate
              exact fun _ => .inl rfl
          | releaseLease me =>
              rw [htx] at hupdate
              have hrun := (RunRow.leasedBy_iff.mp (Tx.leased_of_update rfl rfl hupdate)).2
              simp only [Tx.update, RunRow.releaseLease] at hupdate
              split_ifs at hupdate
              cases hupdate
              exact fun _ => .inl hrun
          | heartbeat me =>
              rw [htx] at hupdate
              have hrun := (RunRow.leasedBy_iff.mp (Tx.leased_of_update rfl rfl hupdate)).2
              simp only [Tx.update, RunRow.heartbeat] at hupdate
              split_ifs at hupdate
              cases hupdate
              exact fun _ => .inl hrun
          | _ => rw [htx] at hlinger; cases hlinger
      | @answer text agentRun hans =>
          rw [ho] at hans
          obtain ⟨hw, run₀, hrun₀, htotal⟩ := answerRow_usage hu hans
          have hwithin : r.overBudget R cfg = false := by
            cases hover : r.overBudget R cfg with
            | false => rfl
            | true =>
                rcases hok hover with h | h | h
                · rw [hw] at h; cases h
                · rw [hw] at h; cases h
                · rw [hw] at h; cases h.1
          apply RunRow.BudgetOk.of_within
          have hk := Tx.update_kind hupdate
          have hs := Tx.update_runState hupdate
          simp only [Tx.newState, Option.getD_some] at hs
          simp only [RunRow.overBudget, hk, hs, hr agentRun]
          simp only [RunRow.overBudget, hrun₀] at hwithin
          cases hname : cfg.kindNamed r.kind with
          | none => rfl
          | some k => simpa [hname, htotal] using hwithin
      | cancel =>
          have hsame : r'.overBudget R cfg = r.overBudget R cfg :=
            RunRow.overBudget_congr (Tx.update_kind hupdate) (Tx.update_runState hupdate)
          cases hupdate
          intro hover
          rw [hsame] at hover
          have hstatus := hok hover
          rw [RunRow.cancelRun_eq]
          cases r.cancelAction cfg.leaseTakeover a.now with
          | cancelNow => exact .inr (.inl rfl)
          | request => exact hstatus
          | noop => exact hstatus
          | terminal => exact hstatus

theorem fails_step (hb : s.Basic) (hi : BudgetInv cfg s) (htook : Took cfg s a s' es) :
    ∀ l ∈ s'.late, ∀ me code, l.tx = .failUnstorable me code → ∀ r,
      s'.db.runs l.run = some r → r.leasedBy me = true → r.overBudget R cfg = false := by
  intro l hl me code htx r' hr' hleased'
  -- under the lease of `me` the row was within the budget when the failure was sent
  have hbefore : ∀ r, s.db.runs l.run = some r → r.leasedBy me = true →
      r.overBudget R cfg = false := by
    intro r hr hleased
    rcases htook.late_mem hl with hold | ⟨v, j, hj, hrun, hjtx, -⟩
    · exact hi.fails l hold me code htx r hr hleased
    · rw [htx] at hjtx
      obtain rfl : v = me := by simpa [Tx.token] using (Advance.token_of_tx hjtx).symm
      rw [hrun] at hr
      have hfit := hi.holders v j r hj hr hleased
      cases hpc : j.pc with
      | closingFails code => rw [hpc] at hfit; exact hfit
      | driving a st =>
          rw [hpc] at hfit hjtx
          cases st with
          | failing code direct =>
              cases hover : r.overBudget R cfg with
              | false => rfl
              | true => cases hfit.2.2 hover
          | writing w new => cases w <;> cases hjtx
          | _ => cases hjtx
      | _ => rw [hpc] at hjtx; cases hjtx
  rcases htook.leased hb hr' hleased' with ⟨r, hr, hleased, hk, hs⟩ | ⟨tx, r, happ, ht, hr, hu⟩
  · rw [RunRow.overBudget_congr hk hs]
    exact hbefore r hr hleased
  · have hsame : tx.isClaim = false → tx.newState = none → r'.overBudget R cfg = false := by
      intro hclaim hnew
      rw [RunRow.overBudget_congr (Tx.update_kind hu)
        (by rw [Tx.update_runState hu, hnew]; rfl)]
      exact hbefore r hr (Tx.leased_of_update ht hclaim hu)
    cases applies_spec happ with
    | @attempt v pc tx hj hjtx =>
        obtain rfl : v = me := Option.some.inj ((Advance.token_of_tx hjtx).symm.trans ht)
        rcases htook.late_mem hl with hold | ⟨u, j, hj', -, hjtx', -⟩
        · have hover := ((hb.late l hold).2 v (by rw [htx]; rfl)).2 _ hj
          obtain rfl := Advance.tx_of_over hover hjtx
          exact hsame rfl rfl
        · rw [htx] at hjtx'
          obtain rfl : u = v := by simpa [Tx.token] using (Advance.token_of_tx hjtx').symm
          rw [hj] at hj'
          cases hj'
          rw [hjtx'] at hjtx
          cases hjtx
          exact hsame rfl rfl
    | @late q hq hid =>
        have hlinger := (hb.late q hq).1
        cases hqtx : q.tx with
        | tryClaim v takeover =>
            rw [hqtx] at ht
            cases ht
            have hlate := hi.claims q hq me takeover hqtx
            rcases htook.late_mem hl with hold | ⟨u, j, hj', -, hjtx', -⟩
            · exact absurd htx (hlate.fails l hold code)
            · rw [htx] at hjtx'
              obtain rfl : u = me := by simpa [Tx.token] using (Advance.token_of_tx hjtx').symm
              cases Advance.tx_of_over (Advance.over_of_done (hlate.attempt j hj')) hjtx'
        | failUnstorable v code => exact hsame (by rw [hqtx]; rfl) (by rw [hqtx]; rfl)
        | releaseLease v => exact hsame (by rw [hqtx]; rfl) (by rw [hqtx]; rfl)
        | heartbeat v => exact hsame (by rw [hqtx]; rfl) (by rw [hqtx]; rfl)
        | _ => rw [hqtx] at hlinger; cases hlinger
    | answer => cases ht
    | cancel => cases ht

theorem step (hu : R.UsageOfReplies) (hr : R.RoundTrip) (hb : s.Basic) (hi : BudgetInv cfg s)
    (hc : s.budgeted cfg a = true) (h : Took cfg s a s' es) : BudgetInv cfg s' := by
  constructor
  case rows => exact hi.row_step hu hr hb h
  case claims => exact hi.claims.step hb h
  case fails => exact hi.fails_step hb h
  case holders =>
    refine Engine.Holders.step hb hi.holders h ?_ ?_ ?_ ?_
    · exact fun r rows pc hover => Advance.budgeted_of_over hover
    · exact fun r rows pc hfit => hfit.congr rfl rfl
    · exact fun me run pc pc' r hl hj hrow hleased =>
        Advance.budgeted_local hu hc hl hj hrow hleased
    · exact fun me run pc pc' tx r r' hj happ htx hrow hupdate hans hfit =>
        Advance.budgeted_answers hu hr hans htx hupdate (budgeted_claim hc happ hrow hupdate) hfit

theorem of_run {log : List Event} (hu : R.UsageOfReplies) (hr : R.RoundTrip)
    (h : EngineRun cfg (fun s a => s.budgeted cfg a = true) log s) : s.Basic ∧ BudgetInv cfg s :=
  h.safe (I := fun s => s.Basic ∧ BudgetInv cfg s) ⟨.init, init⟩ fun _ _ _ _ hi hc hs =>
    ⟨hi.1.step (step_took hs), hi.2.step hu hr hi.1 hc (step_took hs)⟩

end BudgetInv

end

/-! ## The start of a model call -/

section

variable {cfg : Config} {s s' : Engine R} {a : Action R} {es : List Event}

namespace Stage

theorem answeredCall_callsModel (rest : List R.Call) (p : R.AgentRun × Except PromptError Unit) :
    (answeredCall rest p).callsModel = false := by
  obtain ⟨run, e⟩ := p
  cases e <;> rfl

theorem callToolsStep_callsModel (run : R.AgentRun) (calls : List R.Call) :
    (callToolsStep run calls).callsModel = false := by
  cases calls with
  | nil => rfl
  | cons call rest =>
      cases call with
      | malformed call => exact answeredCall_callsModel _ _
      | execute exec =>
          simp only [callToolsStep]
          split_ifs
          · unfold askStep
            split
            · rfl
            · exact answeredCall_callsModel _ _
          · rfl

theorem drive_callsModel (a : Attempt) (run : R.AgentRun) : (drive a run).callsModel = false := by
  unfold drive
  split
  · rfl
  · unfold callModelStep
    split <;> rfl
  · exact callToolsStep_callsModel _ _
  · rfl

theorem settle_callsModel (p : R.AgentRun × Except PromptError ModelTurnOutcome) :
    (settle p).callsModel = false := by
  obtain ⟨run, e⟩ := p
  cases e with
  | error error => rfl
  | ok outcome => cases outcome <;> rfl

theorem replied_callsModel (run : R.AgentRun) (prepared : R.Prepared)
    (response : Except LlmError R.ModelResponse) :
    (replied run prepared response).callsModel = false := by
  cases response with
  | error e => rfl
  | ok response => exact settle_callsModel _

theorem proceed_callsModel {a : Attempt} {run : R.AgentRun} {next : Next R}
    (h : (proceed a run next).callsModel = true) :
    ∃ prepared request, next = .callModel prepared request := by
  cases next with
  | callModel prepared request => exact ⟨prepared, request, rfl⟩
  | callTools rest =>
      simp only [proceed, callToolsStep_callsModel] at h
      cases h
  | succeed output => cases h
  | checkBudget =>
      simp only [proceed] at h
      split_ifs at h <;> cases h

end Stage

theorem Advance.callsModel_of_over {pc : Advance R} (h : pc.over = true) :
    pc.callsModel = false := by
  cases pc with
  | driving a st => cases st <;> first | rfl | cases h
  | _ => rfl

/-- A model call starts where the persist before it commits under the lease. -/
theorem Took.callsModel (hb : s.Basic) (h : Took cfg s a s' es) {me : LeaseToken} {id : Uuid}
    (hcalls : s'.callsModel me id = true) : s.callsModel me id = true ∨
      ∃ b run advanced prepared request rows r, s.attempts me = some ⟨id, .driving b
        (.writing (.persist run advanced (.callModel prepared request)) rows)⟩ ∧
        s.db.runs id = some r ∧ r.leasedBy me = true := by
  simp only [Engine.callsModel, Option.any_eq_true, Bool.and_eq_true, beq_iff_eq] at hcalls ⊢
  obtain ⟨j, hj, rfl, hcall⟩ := hcalls
  have hset : ∀ {v : LeaseToken} {j' : Option (JobAttempt R)},
      (s.setAttempt v j').attempts me = some j → (v = me ∧ j' = some j) ∨ s.attempts me = some j := by
    intro v j' hj'
    by_cases hme : v = me
    · subst hme
      rw [Engine.setAttempt_self] at hj'
      exact .inl ⟨rfl, hj'⟩
    · rw [Engine.setAttempt_other _ _ fun he => hme he.symm] at hj'
      exact .inr hj'
  have hended : ∀ {v : LeaseToken} {i : JobAttempt R} {j' : Option (JobAttempt R)} {fate : Fate}
      {now : ℕ}, s.attempts v = some i → Ended cfg v i fate now a j' →
      (s.setAttempt v j').attempts me = some j → s.attempts me = some j := by
    intro v i j' fate now hi he hj'
    rcases hset hj' with ⟨-, rfl⟩ | hold
    · have hover := (hb.ended hi he).2 j rfl
      rw [Advance.callsModel_of_over hover] at hcall
      cases hcall
    · exact hold
  cases h with
  | begin =>
      rcases hset hj with ⟨-, heq⟩ | hold
      · cases heq
        cases hcall
      · exact .inl ⟨j, hold, rfl, hcall⟩
  | @here a v run pc pc' hv hl =>
      rcases hset hj with ⟨rfl, heq⟩ | hold
      · cases heq
        left
        refine ⟨_, hv, rfl, ?_⟩
        cases hl with
        | readStatus => cases hcall
        | readSeq => cases hcall
        | rejects hrej =>
            cases pc with
            | driving b st =>
                cases st with
                | writing w new => cases hrej; cases hcall
                | _ => cases hrej
            | closing ending snap => cases hrej; cases hcall
            | _ => cases hrej
        | input hi =>
            cases hi with
            | drive b m =>
                rw [Advance.callsModel, Stage.drive_callsModel] at hcall
                cases hcall
            | resolve b m =>
                rw [Advance.callsModel, Stage.settle_callsModel] at hcall
                cases hcall
            | stop b =>
                rw [Advance.callsModel_of_over (Advance.retry_over b)] at hcall
                cases hcall
            | abandon b g => cases hcall
            | beat b g => cases g <;> exact hcall
            | replied b m prepared request hresp =>
                rw [Advance.callsModel, Stage.replied_callsModel] at hcall
                cases hcall
            | retryable b => rfl
            | toolReturns b m exec rest result =>
                rw [Advance.callsModel, Stage.toolReturned,
                  Stage.answeredCall_callsModel] at hcall
                cases hcall
      · exact .inl ⟨j, hold, rfl, hcall⟩
  | @commit v run pc pc' tx now db ret hv htx hdb ha =>
      have hj' : (s.setAt v run pc').attempts me = some j := hj
      rcases hset hj' with ⟨rfl, heq⟩ | hold
      · cases heq
        cases ha with
        | claimed row =>
            exfalso
            revert hcall
            unfold Advance.claimed
            dsimp only
            split_ifs
            · exact Bool.false_ne_true
            · split <;> exact Bool.false_ne_true
        | landed b w rows row =>
            cases w with
            | persist m advanced next =>
                simp only [Advance.landed] at hcall
                split_ifs at hcall
                · cases hcall
                · obtain ⟨prepared, request, rfl⟩ := Stage.proceed_callsModel hcall
                  right
                  rcases (Db.exec_at hdb).2 with ⟨hret, -, -⟩ | ⟨r, r', -, hr, hu, -, -⟩
                  · cases hret
                  · refine ⟨b, m, advanced, prepared, request, rows, r, hv, hr, ?_⟩
                    exact Tx.leased_of_update (Advance.token_of_tx htx) (by cases htx; rfl) hu
            | suspend => cases hcall
            | finish => cases hcall
        | beat b g => exact .inl ⟨_, hv, rfl, by cases g <;> exact hcall⟩
        | abandoned b =>
            rw [Advance.callsModel_of_over (Advance.retry_over b)] at hcall
            cases hcall
        | _ => cases hcall
      · exact .inl ⟨j, hold, rfl, hcall⟩
  | lost hv he => exact .inl ⟨j, hended hv he hj, rfl, hcall⟩
  | applied hv he => exact .inl ⟨j, hended hv he hj, rfl, hcall⟩
  | left hv he => exact .inl ⟨j, hended hv he hj, rfl, hcall⟩
  | late => exact .inl ⟨j, hj, rfl, hcall⟩
  | start => exact .inl ⟨j, hj, rfl, hcall⟩
  | refused => exact .inl ⟨j, hj, rfl, hcall⟩
  | answer => exact .inl ⟨j, hj, rfl, hcall⟩
  | cancel => exact .inl ⟨j, hj, rfl, hcall⟩

/-! ## The result -/

/-- A run above its budget: no attempt drives it any more. -/
def RunRow.Spent (R : Rig) (cfg : Config) (r : RunRow Json) : Prop :=
  (r.overBudget R cfg = true ∧ r.status = .running) ∨ r.status = .cancelled ∨
    (r.status = .failed ∧ r.failReason = some .tokenBudget)

theorem RunRow.BudgetOk.spent {r : RunRow Json} (h : r.BudgetOk R cfg)
    (hover : r.overBudget R cfg = true) : r.Spent R cfg := by
  rcases h hover with hrun | hended
  · exact .inl ⟨hover, hrun⟩
  · exact .inr hended

theorem BudgetInv.spent_step (hb : s.Basic) (hi : BudgetInv cfg s) (hi' : BudgetInv cfg s')
    (htook : Took cfg s a s' es) {id : Uuid}
    (hs : ∃ r, s.db.runs id = some r ∧ r.Spent R cfg) :
    ∃ r, s'.db.runs id = some r ∧ r.Spent R cfg := by
  obtain ⟨r₀, ho, hspent⟩ := hs
  have hrow := htook.rowStep id
  rw [ho] at hrow
  generalize ho' : s'.db.runs id = o' at hrow
  cases hrow with
  | same => exact ⟨r₀, rfl, hspent⟩
  | @updated tx _ r' happ hu =>
      refine ⟨r', rfl, ?_⟩
      rcases hspent with ⟨hover, hrun⟩ | hended
      · -- only the write that closes the run stores another state
        have hkept : tx.newState = none → r'.Spent R cfg := by
          intro hnew
          apply (hi'.rows id r' ho').spent
          rw [RunRow.overBudget_congr (Tx.update_kind hu) (by rw [Tx.update_runState hu, hnew]; rfl)]
          exact hover
        cases applies_spec happ with
        | @attempt me pc tx hj htx =>
            cases hclaim : tx.isClaim with
            | true =>
                obtain rfl := Advance.claiming_of_isClaim htx hclaim
                cases htx
                exact hkept rfl
            | false =>
                have hleased := Tx.leased_of_update (Advance.token_of_tx htx) hclaim hu
                have hfit := hi.holders me _ r₀ hj ho hleased
                have hfinish : ∀ {ending : Ending} {snap : RunSnapshot Json},
                    r₀.finish me ending snap a.now = some r' → ending.ofBudget = true →
                    r'.Spent R cfg := by
                  intro ending snap hf hending
                  simp only [RunRow.finish, hleased, if_true] at hf
                  cases hf
                  cases ending with
                  | succeeded output => cases hending
                  | cancelled => exact .inr (.inl rfl)
                  | failed reason message =>
                      cases reason <;> first | exact .inr (.inr ⟨rfl, rfl⟩) | cases hending
                cases pc with
                | closing ending snap =>
                    cases htx
                    exact hfinish hu (hfit.2 hover)
                | driving b st =>
                    cases st with
                    | writing w new =>
                        have hclose := hfit.2.2 hover
                        cases w with
                        | finish m ending direct =>
                            cases htx
                            exact hfinish hu hclose
                        | persist m advanced next => cases hclose
                        | suspend m callId question => cases hclose
                    | failing code direct => cases htx; exact hkept rfl
                    | beating g => cases htx; exact hkept rfl
                    | abandoning => cases htx; exact hkept rfl
                    | requeueing => cases htx; exact hkept rfl
                    | _ => cases htx
                | closingFails code => cases htx; exact hkept rfl
                | releasing => cases htx; exact hkept rfl
                | claiming => cases htx; exact hkept rfl
                | _ => cases htx
        | @late l hl hid =>
            have hlinger := (hb.late l hl).1
            apply hkept
            cases htx : l.tx <;> first | rfl | (rw [htx] at hlinger; cases hlinger)
        | answer hans =>
            simp only [Tx.update, RunRow.answerWaiting, hrun] at hu
            cases hu
        | cancel => exact hkept rfl
      · have hterminal : r₀.status.terminal = true := by
          rcases hended with hc | ⟨hf, -⟩
          · rw [hc]; rfl
          · rw [hf]; rfl
        rw [Tx.update_terminal hterminal hu]
        exact .inr hended

/-- Once a stored state is above the token budget, no attempt calls the model for
the run again, and it ends cancelled or with `token_budget`. -/
theorem token_budget_final {log log' : List Event} {id : Uuid} {r : RunRow Json}
    (hu : R.UsageOfReplies) (hr : R.RoundTrip)
    (h : EngineRun cfg (fun s a => s.budgeted cfg a = true) log s)
    (hrow : s.db.runs id = some r) (hover : r.overBudget R cfg = true)
    (h' : StepRun.Run (Engine.step cfg) (fun s a => s.budgeted cfg a = true) s log' s') :
    (∀ a s'' es me, Engine.step cfg s' a = some (s'', es) → s''.callsModel me id = true →
      s'.callsModel me id = true) ∧
    ∀ r', s'.db.runs id = some r' → r'.status.terminal = true → r'.status = .cancelled ∨
      (r'.status = .failed ∧ r'.failReason = some .tokenBudget) := by
  obtain ⟨hb, hi⟩ := BudgetInv.of_run hu hr h
  obtain ⟨hb', hi', r', hr', hspent⟩ := h'.safe
    (I := fun t => t.Basic ∧ BudgetInv cfg t ∧ ∃ r, t.db.runs id = some r ∧ r.Spent R cfg)
    ⟨hb, hi, r, hrow, (hi.rows id r hrow).spent hover⟩ fun t a t' es ht hc hs =>
      have htook := step_took hs
      have hnext := ht.2.1.step hu hr ht.1 hc htook
      ⟨ht.1.step htook, hnext, BudgetInv.spent_step ht.1 ht.2.1 hnext htook ht.2.2⟩
  constructor
  · intro a s'' es me hstep hcalls
    rcases (step_took hstep).callsModel hb' hcalls with
      hold | ⟨b, run, advanced, prepared, request, rows, q, hj, hq, hleased⟩
    · exact hold
    · rw [hr'] at hq
      cases hq
      have hrun := (RunRow.leasedBy_iff.mp hleased).2
      rcases hspent with ⟨hover', -⟩ | hc | ⟨hf, -⟩
      · cases (hi'.holders me _ r' hj hr' hleased).2.2 hover'
      · rw [hrun] at hc
        cases hc
      · rw [hrun] at hf
        cases hf
  · intro q hq hterminal
    rw [hr'] at hq
    cases hq
    rcases hspent with ⟨-, hrun⟩ | hended
    · rw [hrun] at hterminal
      cases hterminal
    · exact hended

end

theorem Rig.scripted_usageOfReplies : Rig.scripted.UsageOfReplies where
  fromSpec _ _ := rfl
  nextStep _ := rfl
  advertiseTools _ _ _ := rfl
  setPreviousModel _ _ := rfl
  answerExec n _ _ := by
    simp only [Rig.scripted]
    split_ifs with hn
    · subst hn
      rfl
    · rfl
  answerMalformed _ _ := rfl

/-- The first response takes the run above this budget. -/
def tightConfig : Config := ⟨[⟨"greeter", "model", 8, 50⟩], "app", 90⟩

/-- The attempt that stored the state above the budget ends the run. -/
theorem token_budget_final_closed : ∃ (log log' : List Event) (s s' : Engine Rig.scripted)
    (r r' : RunRow Json),
    EngineRun tightConfig (fun s a => s.budgeted tightConfig a = true) log s ∧
      s.db.runs 1 = some r ∧ r.overBudget Rig.scripted tightConfig = true ∧
      StepRun.Run (Engine.step tightConfig) (fun s a => s.budgeted tightConfig a = true) s log' s' ∧
      s'.db.runs 1 = some r' ∧ r'.status.terminal = true ∧
      (r'.status = .cancelled ∨ (r'.status = .failed ∧ r'.failReason = some .tokenBudget)) := by
  obtain ⟨log, s, hrun, hdone⟩ := StepRun.exists_run (Engine.step tightConfig)
    (fun s a => s.budgeted tightConfig a) Engine.init (scriptedRun.take 9)
    (fun _ s => (s.db.runs 1).any fun r => r.overBudget Rig.scripted tightConfig &&
      (StepRun.execute (Engine.step tightConfig) (fun s a => s.budgeted tightConfig a)
        [.readSeq 7, .commit 7 4] s).any fun q =>
          (q.1.db.runs 1).any fun r => r.status.terminal) (by decide)
  simp only [Bool.and_eq_true, Option.any_eq_true] at hdone
  obtain ⟨r, hr, hover, ⟨s', log'⟩, hexec, r', hr', hterminal⟩ := hdone
  have hrun' := StepRun.run_of_execute hexec
  have h := token_budget_final Rig.scripted_usageOfReplies Rig.scripted_roundTrip hrun hr hover hrun'
  exact ⟨log, log', s, s', r, r', hrun, hr, hover, hrun', hr', hterminal, h.2 r' hr' hterminal⟩

/-- The attempt dies between the persist and the terminal write: the run is
resumed, asks, is answered, calls the model again and succeeds. -/
theorem token_budget_not_final : ∃ (log log' log'' es : List Event)
    (s s' t : Engine Rig.scripted) (r : RunRow Json),
    EngineRun tightConfig StepRun.Free log s ∧ s.db.runs 1 = some r ∧
      r.overBudget Rig.scripted tightConfig = true ∧
      StepRun.Run (Engine.step tightConfig) StepRun.Free s log' s' ∧ s'.callsModel 10 1 = false ∧
      Engine.step tightConfig s' (.commit 10 203) = some (t, es) ∧ t.callsModel 10 1 = true ∧
      ∃ t' r', StepRun.Run (Engine.step tightConfig) StepRun.Free t log'' t' ∧
        t'.db.runs 1 = some r' ∧ r'.status = .succeeded := by
  obtain ⟨log, s, hrun, hdone⟩ := StepRun.exists_free_run (Engine.step tightConfig)
    Engine.init (scriptedRun.take 9)
    (fun _ s => (s.db.runs 1).any fun r => r.overBudget Rig.scripted tightConfig &&
      (StepRun.execute (Engine.step tightConfig) (fun _ _ => true)
        [.vanish 7 .lost 4, .begin 9 1, .commit 9 200, .input 9 .proceed, .readSeq 9,
          .commit 9 201, .answer 1 "my name", .begin 10 1, .commit 10 202, .input 10 .proceed,
          .readSeq 10] s).any fun q => !q.1.callsModel 10 1 &&
        (Engine.step tightConfig q.1 (.commit 10 203)).any fun q => q.1.callsModel 10 1 &&
          (StepRun.execute (Engine.step tightConfig) (fun _ _ => true)
            [.vanish 10 .lost 204, .begin 11 1, .commit 11 400, .input 11 .proceed, .readSeq 11,
              .commit 11 401, .input 11 (.reply (.ok "hello")), .readSeq 11, .commit 11 402,
              .vanish 11 .lost 403, .begin 12 1, .commit 12 600, .input 12 .proceed, .readSeq 12,
              .commit 12 601, .readSeq 12, .commit 12 602] q.1).any fun q =>
            (q.1.db.runs 1).any fun r => r.status == .succeeded) (by decide)
  simp only [Bool.and_eq_true, Option.any_eq_true, beq_iff_eq, Bool.not_eq_true'] at hdone
  obtain ⟨r, hr, hover, ⟨s', log'⟩, hexec, hquiet, ⟨t, es⟩, hstep, hcalls, ⟨t', log''⟩, hexec',
    r', hr', hs⟩ := hdone
  exact ⟨log, log', log'', es, s, s', t, r, hrun, hr, hover, (StepRun.run_of_execute hexec).free,
    hquiet, hstep, hcalls, t', r', (StepRun.run_of_execute hexec').free, hr', hs⟩

end Cja.Durable
