import Cja.Durable.Holders

/-!
# The transcript is a projection of the stored run

The high-water mark is read outside the transaction that uses it, and inserts
ignore conflicts. Both are harmless under the lease: whoever holds it has a run
whose messages extend those of the stored run, and nobody else writes meanwhile,
so the mark is still the number of rows when the transaction commits.
-/
namespace Cja.Durable

open Jobs (Uuid)

variable {R : Rig}

/-- The transitions of a run only append to its messages. -/
structure Rig.AppendOnly (R : Rig) : Prop where
  nextStep : ∀ run, R.messages run <+: R.messages (R.nextStep run).1
  advertiseTools : ∀ run turn prepared,
    R.messages run <+: R.messages (R.advertiseTools run turn prepared)
  setPreviousModel : ∀ run model, R.messages run <+: R.messages (R.setPreviousModel run model)
  modelResponse : ∀ run prepared response,
    R.messages run <+: R.messages (R.modelResponse run prepared response).1
  resolve : ∀ run, R.messages run <+: R.messages (R.resolveUnhandledInvalidToolCall run).1
  answerExec : ∀ run exec result, R.messages run <+: R.messages (R.answerExec run exec result).1
  answerMalformed : ∀ run call, R.messages run <+: R.messages (R.answerMalformed run call).1

/-- A stored run is read back as it was. -/
def Rig.RoundTrip (R : Rig) : Prop := ∀ run, R.fromValue (R.toValue run) = .ok run

theorem Rig.RoundTrip.injective (h : R.RoundTrip) {run run' : R.AgentRun}
    (he : R.toValue run = R.toValue run') : run = run' := by
  have hrun := h run
  rw [he, h run'] at hrun
  exact (Except.ok.inj hrun).symm

/-! ## Rows and projections -/

theorem prefix_insertMessages {J : Type} (rows new : List (MessageRow J)) :
    rows <+: insertMessages rows new := by
  induction new generalizing rows with
  | nil => exact List.prefix_rfl
  | cons m ms ih =>
      simp only [insertMessages, List.foldl_cons]
      split
      · exact ih rows
      · exact (List.prefix_append rows [m]).trans (ih (rows ++ [m]))

/-- Rows numbered from the end of the table are all inserted. -/
theorem insertMessages_eq_append {J : Type} (rows new : List (MessageRow J))
    (hrows : ∀ q ∈ rows, q.seq < rows.length)
    (hnew : ∀ i m, new[i]? = some m → m.seq = rows.length + i) :
    insertMessages rows new = rows ++ new := by
  induction new generalizing rows with
  | nil => simp [insertMessages]
  | cons m ms ih =>
      have hm : m.seq = rows.length := by simpa using hnew 0 m rfl
      have hfree : rows.any (fun q => q.seq == m.seq) = false := by
        rw [List.any_eq_false]
        intro q hq
        have := hrows q hq
        simp only [beq_iff_eq]
        omega
      have hstep : insertMessages rows (m :: ms) = insertMessages (rows ++ [m]) ms := by
        simp only [insertMessages, List.foldl_cons, hfree, Bool.false_eq_true, if_false]
      rw [hstep, ih (rows ++ [m])]
      · simp
      · intro q hq
        rw [List.length_append, List.length_singleton]
        rcases List.mem_append.mp hq with hq | hq
        · have := hrows q hq
          omega
        · rw [List.mem_singleton.mp hq]
          omega
      · intro i q hq
        have := hnew (i + 1) q hq
        rw [List.length_append, List.length_singleton]
        omega

theorem nextMessageSeq_append {J : Type} (rows : List (MessageRow J)) (m : MessageRow J) :
    nextMessageSeq (rows ++ [m]) = max (nextMessageSeq rows) (m.seq + 1) := by
  simp [nextMessageSeq]

/-- Rows numbered by their place. -/
def Numbered {J : Type} (rows : List (MessageRow J)) : Prop :=
  ∀ (i : ℕ) (m : MessageRow J), rows[i]? = some m → m.seq = i

theorem Numbered.nextMessageSeq {J : Type} {rows : List (MessageRow J)} (h : Numbered rows) :
    nextMessageSeq rows = rows.length := by
  induction rows using List.reverseRecOn with
  | nil => rfl
  | append_singleton rows m ih =>
      have hrows : Numbered rows := by
        intro i q hq
        apply h i q
        rw [List.getElem?_append_left (List.getElem?_eq_some_iff.mp hq).1]
        exact hq
      have hm : m.seq = rows.length := h rows.length m (by simp)
      rw [nextMessageSeq_append, ih hrows, List.length_append, List.length_singleton]
      omega

theorem Numbered.lt {J : Type} {rows : List (MessageRow J)} (h : Numbered rows) :
    ∀ q ∈ rows, q.seq < rows.length := by
  intro q hq
  obtain ⟨i, hi, rfl⟩ := List.mem_iff_getElem.mp hq
  rw [h i _ (List.getElem?_eq_getElem hi)]
  exact hi

namespace Rig

theorem getElem?_projectRows (written i : ℕ) (run : R.AgentRun) :
    (R.projectRows written run)[i]? =
      ((R.messages run)[written + i]?).map fun m => R.messageRow (written + i) m := by
  simp [projectRows, List.getElem?_mapIdx, List.getElem?_drop]

theorem numbered_projectRows (run : R.AgentRun) : Numbered (R.projectRows 0 run) := by
  intro i m hm
  rw [getElem?_projectRows, Option.map_eq_some_iff] at hm
  obtain ⟨message, -, rfl⟩ := hm
  simp [messageRow]

/-- A longer run projects to more rows. -/
theorem projectRows_extends {run run' : R.AgentRun} (h : R.messages run <+: R.messages run') :
    R.projectRows 0 run <+: R.projectRows 0 run' := by
  obtain ⟨t, ht⟩ := h
  simp only [projectRows, List.drop_zero, ← ht, List.mapIdx_append]
  exact List.prefix_append _ _

theorem projectRows_append {run : R.AgentRun} {rows : List (MessageRow Json)}
    (h : rows <+: R.projectRows 0 run) :
    rows ++ R.projectRows rows.length run = R.projectRows 0 run := by
  obtain ⟨t, ht⟩ := h
  have htail : t = R.projectRows rows.length run := by
    apply List.ext_getElem?
    intro i
    have hi : (R.projectRows 0 run)[rows.length + i]? = t[i]? := by
      rw [← ht, List.getElem?_append_right (by omega)]
      congr 1
      omega
    rw [← hi, getElem?_projectRows, getElem?_projectRows]
    simp
  rw [← htail, ht]

end Rig

theorem Numbered.of_initial {J : Type} {rows rows' : List (MessageRow J)} (h : Numbered rows')
    (hp : rows <+: rows') : Numbered rows := by
  intro i m hm
  obtain ⟨t, rfl⟩ := hp
  apply h i m
  rw [List.getElem?_append_left (List.getElem?_eq_some_iff.mp hm).1]
  exact hm

/-! ## What the pure stretches do to the messages -/

def Stage.run? : Stage R → Option R.AgentRun
  | top run | resolving run => some run
  | projecting w | writing w _ => some w.run
  | guarded g | beating g => some g.run
  | failing _ _ | abandoning | requeueing => none

def Stage.newMessages? : Stage R → Option (Write R × List (MessageRow Json))
  | writing w new => some (w, new)
  | _ => none

/-- The stage holds a run with at least these messages, and no rows yet. -/
structure Stage.Extends (base : List R.Message) (st : Stage R) : Prop where
  run : ∀ m, st.run? = some m → base <+: R.messages m
  rows : st.newMessages? = none

namespace Stage

variable {base : List R.Message} {run : R.AgentRun}

theorem failTerminal_extends {error : PromptError} {direct : Bool} (h : base <+: R.messages run) :
    (failTerminal run error direct).Extends base :=
  ⟨by rintro m ⟨⟩; exact h, rfl⟩

theorem answeredCall_extends {rest : List R.Call} {p : R.AgentRun × Except PromptError Unit}
    (h : base <+: R.messages p.1) : (answeredCall rest p).Extends base := by
  obtain ⟨run, e⟩ := p
  cases e with
  | error error => exact failTerminal_extends h
  | ok u => exact ⟨by rintro m ⟨⟩; exact h, rfl⟩

theorem callToolsStep_extends (ha : R.AppendOnly) (calls : List R.Call)
    (h : base <+: R.messages run) : (callToolsStep run calls).Extends base := by
  cases calls with
  | nil => exact ⟨by rintro m ⟨⟩; exact h, rfl⟩
  | cons call rest =>
      cases call with
      | malformed call => exact answeredCall_extends (h.trans (ha.answerMalformed run call))
      | execute exec =>
          simp only [callToolsStep]
          split_ifs
          · unfold askStep
            split
            · exact ⟨by rintro m ⟨⟩; exact h, rfl⟩
            · exact answeredCall_extends (h.trans (ha.answerExec run exec _))
          · exact ⟨by rintro m ⟨⟩; exact h, rfl⟩

theorem callModelStep_extends (ha : R.AppendOnly) (a : Attempt) (prompt : R.Message)
    (history : List R.Message) (turn : ℕ) (h : base <+: R.messages run) :
    (callModelStep a run prompt history turn).Extends base := by
  unfold callModelStep
  split
  · exact ⟨by rintro m ⟨⟩; exact h, rfl⟩
  · case _ prepared _ =>
      refine ⟨?_, rfl⟩
      rintro m ⟨⟩
      have hadvertised := h.trans (ha.advertiseTools run turn prepared)
      exact hadvertised.trans (ha.setPreviousModel _ a.model)

theorem drive_extends (ha : R.AppendOnly) (a : Attempt) (h : base <+: R.messages run) :
    (drive a run).Extends base := by
  have hnext := h.trans (ha.nextStep run)
  unfold drive
  split
  · case _ hs => rw [hs] at hnext; exact failTerminal_extends hnext
  · case _ hs => rw [hs] at hnext; exact callModelStep_extends ha a _ _ _ hnext
  · case _ hs => rw [hs] at hnext; exact callToolsStep_extends ha _ hnext
  · case _ hs => rw [hs] at hnext; exact ⟨by rintro m ⟨⟩; exact hnext, rfl⟩

theorem settle_extends {p : R.AgentRun × Except PromptError ModelTurnOutcome}
    (h : base <+: R.messages p.1) : (settle p).Extends base := by
  obtain ⟨run, e⟩ := p
  cases e with
  | error error => exact failTerminal_extends h
  | ok outcome => cases outcome <;> exact ⟨by rintro m ⟨⟩; exact h, rfl⟩

theorem replied_extends (ha : R.AppendOnly) (prepared : R.Prepared)
    (response : Except LlmError R.ModelResponse) (h : base <+: R.messages run) :
    (replied run prepared response).Extends base := by
  cases response with
  | error e => exact ⟨by rintro m ⟨⟩; exact h, rfl⟩
  | ok response => exact settle_extends (h.trans (ha.modelResponse run prepared response))

theorem proceed_extends (ha : R.AppendOnly) (a : Attempt) (next : Next R)
    (h : base <+: R.messages run) : (proceed a run next).Extends base := by
  cases next with
  | callModel prepared request => exact ⟨by rintro m ⟨⟩; exact h, rfl⟩
  | succeed output => exact ⟨by rintro m ⟨⟩; exact h, rfl⟩
  | callTools rest => exact callToolsStep_extends ha rest h
  | checkBudget =>
      simp only [proceed]
      split_ifs
      · exact ⟨by rintro m ⟨⟩; exact h, rfl⟩
      · exact ⟨by rintro m ⟨⟩; exact h, rfl⟩

end Stage

theorem answerRow_extends (ha : R.AppendOnly) {text : String} {r : RunRow Json}
    {run : R.AgentRun} (h : answerRow R text (some r) = .ok run) :
    r.status = .waiting ∧ ∃ run₀, R.fromValue r.runState = .ok run₀ ∧
      R.messages run₀ <+: R.messages run := by
  simp only [answerRow] at h
  split_ifs at h with hw
  split at h
  · cases h
  · refine ⟨hw, ?_⟩
    unfold answeredRun at h
    split at h
    · cases h
    · case _ run₀ hrun₀ =>
        refine ⟨run₀, hrun₀, ?_⟩
        have hnext := ha.nextStep run₀
        split at h
        · case _ run₁ calls hs =>
            rw [hs] at hnext
            split at h
            · cases h
            · case _ exec _ =>
                split_ifs at h
                have hanswer := ha.answerExec run₁ exec (R.textResult (replaceNuls text))
                split at h
                · case _ hx =>
                    cases h
                    rw [hx] at hanswer
                    exact hnext.trans hanswer
                · cases h
        · cases h
        · cases h

/-! ## The invariant -/

/-- The row stores a run, and the transcript projects its first messages. -/
def Stored (R : Rig) (r : RunRow Json) (rows : List (MessageRow Json)) : Prop :=
  ∃ run, r.runState = R.toValue run ∧ rows <+: R.projectRows 0 run

/-- What an attempt that holds the lease knows of the row. -/
def Advance.Fits (r : RunRow Json) (rows : List (MessageRow Json)) : Advance R → Prop
  | closing _ snap => snap.runState = r.runState
  | driving _ st =>
      (∀ m, st.run? = some m → ∃ run, r.runState = R.toValue run ∧ R.messages run <+: R.messages m) ∧
        ∀ w new, st.newMessages? = some (w, new) → new = R.projectRows rows.length w.run
  | _ => True

/-- A transaction that stores a run extending the stored one, with the rows that
are missing, or that stores none and adds no row. -/
def Tx.Sound (R : Rig) (r : RunRow Json) (rows : List (MessageRow Json)) (tx : Tx Json) : Prop :=
  (tx.newMessages = [] ∧ tx.newState.getD r.runState = r.runState) ∨
    ∃ run run', r.runState = R.toValue run ∧ tx.newState = some (R.toValue run') ∧
      R.messages run <+: R.messages run' ∧ tx.newMessages = R.projectRows rows.length run'

structure TranscriptInv (s : Engine R) : Prop where
  stored : ∀ id r, s.db.runs id = some r → Stored R r (s.db.messages id)
  absent : ∀ id, s.db.runs id = none → s.db.messages id = []
  fits : ∀ me j r, s.attempts me = some j → s.db.runs j.run = some r → r.leasedBy me = true →
    j.pc.Fits r (s.db.messages j.run)

namespace Stored

variable {r r' : RunRow Json} {rows : List (MessageRow Json)} {tx : Tx Json} {now : ℕ}

theorem numbered (h : Stored R r rows) : Numbered rows := by
  obtain ⟨run, -, hp⟩ := h
  exact (R.numbered_projectRows run).of_initial hp

theorem step (hr : R.RoundTrip) (h : Stored R r rows) (hs : tx.Sound R r rows)
    (hu : tx.update now r = some r') : Stored R r' (insertMessages rows tx.newMessages) := by
  obtain ⟨run, hrun, hp⟩ := h
  have hstate := Tx.update_runState hu
  rcases hs with ⟨hnew, hsame⟩ | ⟨run₀, run', hrun₀, hnew', hext, hnew⟩
  · refine ⟨run, ?_, ?_⟩
    · rw [hstate, hsame, hrun]
    · rw [hnew]
      exact hp
  · obtain rfl : run = run₀ := hr.injective (hrun.symm.trans hrun₀)
    refine ⟨run', ?_, ?_⟩
    · rw [hstate, hnew', Option.getD_some]
    · have hp' : rows <+: R.projectRows 0 run' := hp.trans (R.projectRows_extends hext)
      have hnum : Numbered rows := (R.numbered_projectRows run').of_initial hp'
      rw [hnew, insertMessages_eq_append rows _ hnum.lt, R.projectRows_append hp']
      intro i m hm
      rw [R.getElem?_projectRows, Option.map_eq_some_iff] at hm
      obtain ⟨message, -, rfl⟩ := hm
      rfl

end Stored

namespace Advance

variable {r r' : RunRow Json} {rows : List (MessageRow Json)} {pc pc' : Advance R}
variable {me : LeaseToken}

theorem fits_of_over (h : pc.over = true) : pc.Fits r rows := by
  cases pc with
  | driving a st =>
      cases st with
      | requeueing => exact ⟨by rintro m ⟨⟩, by rintro w new ⟨⟩⟩
      | _ => cases h
  | closing ending snap => cases h
  | _ => trivial

theorem fits_of_extends {run : R.AgentRun} {a : Attempt} {st : Stage R}
    (hr : r.runState = R.toValue run) (h : st.Extends (R.messages run)) :
    (driving a st).Fits r rows := by
  refine ⟨?_, ?_⟩
  · intro m hm
    exact ⟨run, hr, h.run m hm⟩
  · intro w new hw
    rw [h.rows] at hw
    cases hw

/-- An attempt only reads the run state and the number of rows. -/
theorem Fits.congr (h : pc.Fits r rows) (hr : r'.runState = r.runState) : pc.Fits r' rows := by
  cases pc with
  | driving a st => simpa only [Fits, hr] using h
  | closing ending snap => simpa only [Fits, hr] using h
  | _ => trivial

theorem fits_local (ha : R.AppendOnly) {s : Engine R} {run : Uuid} {a : Action R}
    (hl : Local s me run pc a pc') (hnum : Numbered (s.db.messages run))
    (h : pc.Fits r (s.db.messages run)) : pc'.Fits r (s.db.messages run) := by
  cases hl with
  | readStatus => trivial
  | readSeq =>
      refine ⟨h.1, ?_⟩
      rintro w new ⟨⟩
      rw [hnum.nextMessageSeq]
  | @rejects _ _ code hrej =>
      cases pc with
      | driving a st =>
          cases st with
          | writing w new =>
              cases hrej
              exact ⟨by rintro m ⟨⟩, by rintro w new ⟨⟩⟩
          | _ => cases hrej
      | closing ending snap =>
          cases hrej
          trivial
      | _ => cases hrej
  | input hi =>
      have hrun : ∀ {a : Attempt} {st : Stage R} {m : R.AgentRun},
          (driving a st).Fits r (s.db.messages run) → st.run? = some m →
          ∃ run, r.runState = R.toValue run ∧ R.messages run <+: R.messages m :=
        fun hfit hm => hfit.1 _ hm
      cases hi with
      | drive a m =>
          obtain ⟨run₀, hrow, hext⟩ := hrun h rfl
          exact fits_of_extends hrow (Stage.drive_extends ha a hext)
      | resolve a m =>
          obtain ⟨run₀, hrow, hext⟩ := hrun h rfl
          exact fits_of_extends hrow (Stage.settle_extends (hext.trans (ha.resolve m)))
      | stop a => exact fits_of_over (retry_over a)
      | abandon a g => exact ⟨by rintro m ⟨⟩, by rintro w new ⟨⟩⟩
      | beat a g => exact ⟨h.1, by rintro w new ⟨⟩⟩
      | replied a m prepared request hresp =>
          obtain ⟨run₀, hrow, hext⟩ := hrun h rfl
          exact fits_of_extends hrow (Stage.replied_extends ha prepared _ hext)
      | retryable a => exact fits_of_over (retry_over a)
      | toolReturns a m exec rest result =>
          obtain ⟨run₀, hrow, hext⟩ := hrun h rfl
          exact fits_of_extends hrow
            (Stage.answeredCall_extends (hext.trans (ha.answerExec m exec _)))

/-- The lease holder's transaction is sound. -/
theorem Fits.sound {cfg : Config} {tx : Tx Json} (htx : pc.tx cfg me = some tx)
    (h : pc.Fits r rows) : tx.Sound R r rows := by
  cases pc with
  | driving a st =>
      cases st with
      | writing w new =>
          obtain ⟨run, hrow, hext⟩ := h.1 w.run rfl
          have hnew := h.2 w new rfl
          right
          refine ⟨run, w.run, hrow, ?_, hext, ?_⟩
          · cases w <;> (cases htx; rfl)
          · rw [← hnew]
            cases w <;> (cases htx; rfl)
      | failing code direct => cases htx; exact .inl ⟨rfl, rfl⟩
      | beating g => cases htx; exact .inl ⟨rfl, rfl⟩
      | abandoning => cases htx; exact .inl ⟨rfl, rfl⟩
      | requeueing => cases htx; exact .inl ⟨rfl, rfl⟩
      | _ => cases htx
  | claiming => cases htx; exact .inl ⟨rfl, rfl⟩
  | closing ending snap => cases htx; exact .inl ⟨rfl, h⟩
  | closingFails code => cases htx; exact .inl ⟨rfl, rfl⟩
  | releasing => cases htx; exact .inl ⟨rfl, rfl⟩
  | _ => cases htx

/-- The answer leaves an attempt that fits the row it was answered with. -/
theorem fits_answers (ha : R.AppendOnly) (hr : R.RoundTrip) {cfg : Config} {tx : Tx Json}
    {now : ℕ} (hans : Answers cfg pc (some r') pc') (htx : pc.tx cfg me = some tx)
    (hu : tx.update now r = some r') (hstored : Stored R r' (insertMessages rows tx.newMessages))
    (h : r.leasedBy me = true → pc.Fits r rows) :
    pc'.Fits r' (insertMessages rows tx.newMessages) := by
  obtain ⟨run₀, hrow, -⟩ := hstored
  cases hans with
  | claimed =>
      unfold claimed
      dsimp only
      split_ifs
      · rfl
      · split
        · rfl
        · rfl
        · case _ kind run _ hrun =>
            rw [hrow, hr run₀, Except.ok.injEq] at hrun
            subst hrun
            refine fits_of_extends hrow ⟨?_, rfl⟩
            rintro m ⟨⟩
            exact List.prefix_rfl
  | landed a w new =>
      cases w with
      | persist run advanced next =>
          have hstate : r'.runState = R.toValue run := by
            rw [Tx.update_runState hu]
            cases htx
            rfl
          simp only [landed]
          split_ifs
          · refine fits_of_extends hstate ⟨?_, rfl⟩
            rintro m ⟨⟩
            exact List.prefix_rfl
          · exact fits_of_extends hstate (Stage.proceed_extends ha _ _ List.prefix_rfl)
      | suspend => trivial
      | finish => trivial
  | beatCancelled a g =>
      cases htx
      have hfit := h (Tx.leased_of_update rfl rfl hu)
      refine Fits.congr ⟨hfit.1, ?_⟩ (Tx.update_runState hu)
      rintro w new ⟨⟩
  | beat a g =>
      cases htx
      have hfit := h (Tx.leased_of_update rfl rfl hu)
      refine Fits.congr ⟨hfit.1, ?_⟩ (Tx.update_runState hu)
      rintro w new ⟨⟩
  | abandoned a => exact fits_of_over (retry_over a)
  | closed => trivial
  | closedFailed => trivial
  | failed => trivial
  | requeued => trivial
  | released => trivial

end Advance

/-! ## Every step -/

namespace TranscriptInv

variable {cfg : Config} {s s' t : Engine R} {a : Action R} {es : List Event}

theorem init : TranscriptInv (Engine.init : Engine R) := by
  constructor <;> simp [Engine.init, Db.empty]

/-- Only attempt `me` changes. -/
theorem setAttempt {me : LeaseToken} {j' : Option (JobAttempt R)} (hi : TranscriptInv s)
    (hfits : ∀ j r, j' = some j → s.db.runs j.run = some r → r.leasedBy me = true →
      j.pc.Fits r (s.db.messages j.run)) : TranscriptInv (s.setAttempt me j') where
  stored := hi.stored
  absent := hi.absent
  fits v j r hj := by
    by_cases hv : v = me
    · subst hv
      rw [Engine.setAttempt_self] at hj
      exact hfits j r hj
    · rw [Engine.setAttempt_other _ _ hv] at hj
      exact hi.fits v j r hj

/-- A sound transaction commits; the attempt it speaks for fits the new row, and
the others have lost the lease or find the row as it was. -/
theorem exec {run : Uuid} {tx : Tx Json} {now : ℕ} {ret : Option (RunRow Json)}
    (hr : R.RoundTrip) (hb : s.Basic) (hi : TranscriptInv s)
    (hdb : s.db.exec run tx now = some (t.db, ret))
    (hattempts : ∀ v, tx.token ≠ some v → t.attempts v = s.attempts v)
    (hsound : ∀ r r', s.db.runs run = some r → tx.update now r = some r' →
      tx.Sound R r (s.db.messages run))
    (hself : ∀ v j r, tx.token = some v → t.attempts v = some j → t.db.runs j.run = some r →
      r.leasedBy v = true → j.pc.Fits r (t.db.messages j.run)) : TranscriptInv t := by
  obtain ⟨hother, hrun⟩ := Db.exec_at hdb
  constructor
  case stored =>
    intro k r hk
    by_cases hkr : k = run
    · subst hkr
      rcases hrun with ⟨-, heq, -⟩ | ⟨r₀, r', -, hr₀, hu, hr', hm⟩
      · rw [heq] at hk ⊢
        exact hi.stored k r hk
      · rw [hr'] at hk
        cases hk
        rw [hm]
        exact (hi.stored k r₀ hr₀).step hr (hsound r₀ _ hr₀ hu) hu
    · rw [(hother k hkr).1] at hk
      rw [(hother k hkr).2]
      exact hi.stored k r hk
  case absent =>
    intro k hk
    by_cases hkr : k = run
    · subst hkr
      rcases hrun with ⟨-, heq, -⟩ | ⟨r₀, r', -, hr₀, hu, hr', hm⟩
      · rw [heq] at hk ⊢
        exact hi.absent k hk
      · rw [hr'] at hk
        cases hk
    · rw [(hother k hkr).1] at hk
      rw [(hother k hkr).2]
      exact hi.absent k hk
  case fits =>
    intro v j r hj hk hl
    by_cases hv : tx.token = some v
    · exact hself v j r hv hj hk hl
    · rw [hattempts v hv] at hj
      by_cases hkr : j.run = run
      · rw [hkr] at hk ⊢
        rcases hrun with ⟨-, heq, -⟩ | ⟨r₀, r', -, hr₀, hu, hr', hm⟩
        · rw [heq] at hk ⊢
          have hfit := hi.fits v j r hj (hkr ▸ hk) hl
          rwa [hkr] at hfit
        · rw [hr'] at hk
          cases hk
          -- a lease that survived was there before
          have hl₀ : r₀.leasedBy v = true := by
            rcases Tx.update_lockedBy hu (RunRow.leasedBy_iff.mp hl).1 with h₀ | ⟨-, ht⟩
            · exact RunRow.leasedBy_iff.mpr ⟨h₀, (hb.rows run r₀ hr₀).leased (by simp [h₀])⟩
            · exact absurd ht hv
          have hfit := hi.fits v j r₀ hj (hkr ▸ hr₀) hl₀
          rw [hkr] at hfit
          rcases Tx.update_foreign hl₀ hv hu with hlost | ⟨hstate, hnew, -⟩
          · rw [hl] at hlost
            cases hlost
          · rw [hm, hnew]
            exact hfit.congr hstate
      · rw [(hother j.run hkr).1] at hk
        rw [(hother j.run hkr).2]
        exact hi.fits v j r hj hk hl

/-- Statements that linger store no run and no row. -/
theorem sound_of_lingers {tx : Tx Json} {r : RunRow Json} {rows : List (MessageRow Json)}
    (h : Engine.canLinger tx = true) : tx.Sound R r rows := by
  cases tx <;> first | exact .inl ⟨rfl, rfl⟩ | cases h

theorem step (ha : R.AppendOnly) (hr : R.RoundTrip) (hb : s.Basic) (hi : TranscriptInv s)
    (h : Took cfg s a s' es) : TranscriptInv s' := by
  -- the transaction of an attempt is sound: it holds the lease, or only claims
  have hsound : ∀ {me : LeaseToken} {run : Uuid} {pc : Advance R} {tx : Tx Json} {now : ℕ},
      s.attempts me = some ⟨run, pc⟩ → pc.tx cfg me = some tx → ∀ r r',
      s.db.runs run = some r → tx.update now r = some r' → tx.Sound R r (s.db.messages run) := by
    intro me run pc tx now hj htx r r' hrow hu
    cases hc : tx.isClaim with
    | true =>
        obtain rfl := Advance.claiming_of_isClaim htx hc
        cases htx
        exact .inl ⟨rfl, rfl⟩
    | false =>
        have hl := Tx.leased_of_update (Advance.token_of_tx htx) hc hu
        exact (hi.fits me _ r hj hrow hl).sound htx
  cases h with
  | @begin me run hme =>
      have hset : TranscriptInv (s.setAt me run .claiming) := by
        apply hi.setAttempt
        rintro j r ⟨⟩ _ _
        trivial
      exact ⟨hset.stored, hset.absent, hset.fits⟩
  | @here a me run pc pc' hj hl =>
      apply hi.setAttempt
      rintro j r ⟨⟩ hrow hleased
      exact Advance.fits_local ha hl (hi.stored run r hrow).numbered
        (hi.fits me _ r hj hrow hleased)
  | @commit me run pc pc' tx now db ret hj htx hdb hans =>
      have htoken := Advance.token_of_tx htx
      refine hi.exec (t := (s.setDb db).setAt me run pc') hr hb hdb ?_ (hsound hj htx) ?_
      · intro v hv
        exact Engine.setAttempt_other _ _ fun he => hv (he ▸ htoken)
      · intro v j r hv hj' hrow hl
        obtain rfl : me = v := Option.some.inj (htoken.symm.trans hv)
        rw [Engine.setAt, Engine.setAttempt_self] at hj'
        cases hj'
        change db.runs run = some r at hrow
        change pc'.Fits r (db.messages run)
        rcases (Db.exec_at hdb).2 with ⟨hret, rfl, hnone⟩ | ⟨r₀, r', hret, hr₀, hu, hr', hm⟩
        · -- a transaction that matched nothing leaves no lease of the attempt
          cases hc : tx.isClaim with
          | true =>
              obtain rfl := Advance.claiming_of_isClaim htx hc
              exact absurd (RunRow.leasedBy_iff.mp hl).1 (hb.unclaimed me _ hj rfl run r hrow)
          | false =>
              rw [hrow, Option.bind_some] at hnone
              exact absurd hnone (Tx.update_leased htoken hc hl now)
        · rw [hr'] at hrow
          cases hrow
          subst hret
          rw [hm]
          exact Advance.fits_answers ha hr hans htx hu
            ((hi.stored run r₀ hr₀).step hr (hsound hj htx r₀ _ hr₀ hu) hu)
            (hi.fits me _ r₀ hj hr₀)
  | lost hj he =>
      apply hi.setAttempt
      intro j r hj' _ _
      exact Advance.fits_of_over ((hb.ended hj he).2 j hj')
  | @applied a me j j' tx now db ret hj he htx hdb =>
      have htoken := Advance.token_of_tx htx
      refine hi.exec (t := (s.setDb db).setAttempt me j') hr hb hdb ?_ (hsound hj htx) ?_
      · intro v hv
        exact Engine.setAttempt_other _ _ fun he => hv (he ▸ htoken)
      · intro v k r hv hk _ _
        obtain rfl : me = v := Option.some.inj (htoken.symm.trans hv)
        rw [Engine.setAttempt_self] at hk
        exact Advance.fits_of_over ((hb.ended hj he).2 k hk)
  | @left a me j j' tx now hj he htx hl =>
      have hset : TranscriptInv (s.setAttempt me j') := by
        apply hi.setAttempt
        intro k r hk _ _
        exact Advance.fits_of_over ((hb.ended hj he).2 k hk)
      exact ⟨hset.stored, hset.absent, hset.fits⟩
  | @late i now l db ret hl hdb =>
      have hmem : l ∈ s.late := List.mem_of_getElem? hl
      refine hi.exec (t := { s.setDb db with late := s.late.eraseIdx i }) hr hb hdb ?_ ?_ ?_
      · intro v _
        rfl
      · intro r r' _ _
        exact sound_of_lingers (hb.late l hmem).1
      · intro v j r hv hj _ _
        exact Advance.fits_of_over (((hb.late l hmem).2 v hv).2 j hj)
  | @start run kind prompt now k db hk hdb =>
      unfold Db.insertRun at hdb
      split_ifs at hdb with hnone
      cases hdb
      rw [Bool.and_eq_true, Option.isNone_iff_eq_none] at hnone
      constructor
      case stored =>
        intro id r hrow
        rw [Engine.setDb_db, Db.setRun_runs] at hrow
        split_ifs at hrow with hid
        · cases hrow
          refine ⟨R.fromSpec k prompt, rfl, ?_⟩
          change s.db.messages id <+: _
          rw [hid, hi.absent run hnone.1]
          exact List.nil_prefix
        · exact hi.stored id r hrow
      case absent =>
        intro id hrow
        rw [Engine.setDb_db, Db.setRun_runs] at hrow
        split_ifs at hrow
        exact hi.absent id hrow
      case fits =>
        intro me j r hj hrow hl
        rw [Engine.setDb_db, Db.setRun_runs] at hrow
        split_ifs at hrow
        · cases hrow
          cases (RunRow.leasedBy_iff.mp hl).1
        · exact hi.fits me j r hj hrow hl
  | refused => exact hi
  | @answer run text agentRun db ret hans hdb =>
      refine hi.exec (t := s.setDb db) hr hb hdb (fun _ _ => rfl) ?_ (by simp [Tx.token])
      intro r r' hrow hu
      rw [hrow] at hans
      obtain ⟨-, run₀, hrun₀, hext⟩ := answerRow_extends ha hans
      obtain ⟨run₁, hstate, -⟩ := hi.stored run r hrow
      rw [hstate, hr run₁, Except.ok.injEq] at hrun₀
      subst hrun₀
      refine .inr ⟨run₁, agentRun, hstate, rfl, hext, ?_⟩
      rw [(hi.stored run r hrow).numbered.nextMessageSeq]
      rfl
  | @cancel run now db ret hdb =>
      refine hi.exec (t := s.setDb db) hr hb hdb (fun _ _ => rfl) ?_ (by simp [Tx.token])
      intro r r' _ _
      exact .inl ⟨rfl, rfl⟩

theorem of_run {C : Engine R → Action R → Prop} {log : List Event} (ha : R.AppendOnly)
    (hr : R.RoundTrip) (h : EngineRun cfg C log s) : TranscriptInv s := by
  have hboth : s.Basic ∧ TranscriptInv s := by
    refine h.safe (I := fun s => s.Basic ∧ TranscriptInv s) ⟨.init, init⟩ ?_
    intro s a s' es hs _ hstep
    have htook := step_took hstep
    exact ⟨hs.1.step htook, hs.2.step ha hr hs.1 htook⟩
  exact hboth.2

end TranscriptInv

/-! ## Who wrote which row -/

/-- The recorded rows were written under ownership, and they are all there is. -/
structure WroteInv (log : List Event) (s : Engine R) : Prop where
  owned : ∀ writer id row owned, .wrote writer id row owned ∈ log → owned = true
  kept : ∀ id, ∀ row ∈ s.db.messages id, ∃ writer, .wrote writer id row true ∈ log

/-- A transaction extends the transcripts by the rows it records. -/
theorem wrote_spec {db db' : Db Json} {writer : Option LeaseToken} {run : Uuid} {tx : Tx Json}
    {now : ℕ} {ret : Option (RunRow Json)} (h : db.exec run tx now = some (db', ret))
    (hown : ∀ r r', db.runs run = some r → tx.update now r = some r' → tx.newMessages ≠ [] →
      db.owned writer run = true) :
    (∀ id, db.messages id <+: db'.messages id) ∧
      (∀ w id row owned, .wrote w id row owned ∈ wroteEvents writer run db db' → owned = true) ∧
      ∀ id, ∀ row ∈ db'.messages id, row ∈ db.messages id ∨
        .wrote writer id row true ∈ wroteEvents writer run db db' := by
  obtain ⟨hother, hrun⟩ := Db.exec_at h
  have hextends : ∀ id, db.messages id <+: db'.messages id := by
    intro id
    by_cases hid : id = run
    · subst hid
      rcases hrun with ⟨-, rfl, -⟩ | ⟨r, r', -, -, -, -, hm⟩
      · exact List.prefix_rfl
      · rw [hm]
        exact prefix_insertMessages _ _
    · rw [(hother id hid).2]
  have hadded : (db'.messages run).drop (db.messages run).length ≠ [] →
      db.owned writer run = true := by
    intro hne
    rcases hrun with ⟨-, rfl, -⟩ | ⟨r, r', -, hr, hu, -, hm⟩
    · simp at hne
    · refine hown r r' hr hu ?_
      intro hnil
      rw [hm, hnil] at hne
      simp [insertMessages] at hne
  refine ⟨hextends, ?_, ?_⟩
  · intro w id row owned hmem
    simp only [wroteEvents, List.mem_map] at hmem
    obtain ⟨q, hq, heq⟩ := hmem
    cases heq
    exact hadded (List.ne_nil_of_mem hq)
  · intro id row hrow
    by_cases hid : id = run
    · subst hid
      obtain ⟨t, ht⟩ := hextends id
      have hdrop : (db'.messages id).drop (db.messages id).length = t := by
        rw [← ht]
        simp
      rw [← ht, List.mem_append] at hrow
      rcases hrow with hrow | hrow
      · exact .inl hrow
      · right
        rw [hdrop] at hadded
        simp only [wroteEvents, hdrop, hadded (List.ne_nil_of_mem hrow), List.mem_map]
        exact ⟨row, hrow, rfl⟩
    · rw [(hother id hid).2] at hrow
      exact .inl hrow

theorem owned_some {db : Db Json} {me : LeaseToken} {run : Uuid} {r : RunRow Json}
    (hr : db.runs run = some r) (hl : r.leasedBy me = true) : db.owned (some me) run = true := by
  simp [Db.owned, hr, hl]

section

variable {cfg : Config} {s s' : Engine R} {a : Action R} {es log : List Event}

/-- Every step extends the transcripts by the rows it records, all owned. -/
theorem took_wrote (hb : s.Basic) (h : Took cfg s a s' es) :
    (∀ id, s.db.messages id <+: s'.db.messages id) ∧
      (∀ w id row owned, .wrote w id row owned ∈ es → owned = true) ∧
      ∀ id, ∀ row ∈ s'.db.messages id, row ∈ s.db.messages id ∨
        ∃ w, .wrote w id row true ∈ es := by
  have hquiet : (∀ id, s.db.messages id <+: s.db.messages id) ∧
      (∀ w id row owned, (.wrote w id row owned : Event) ∈ ([] : List Event) → owned = true) ∧
      ∀ id, ∀ row ∈ s.db.messages id, row ∈ s.db.messages id ∨
        ∃ w, (.wrote w id row true : Event) ∈ ([] : List Event) :=
    ⟨fun _ => List.prefix_rfl, by simp, fun _ _ h => .inl h⟩
  have hfrom : ∀ (writer : Option LeaseToken) {run : Uuid} {db : Db Json} (fs : List Event),
      (∀ id, s.db.messages id <+: db.messages id) ∧
        (∀ w id row owned, .wrote w id row owned ∈ wroteEvents writer run s.db db →
          owned = true) ∧
        (∀ id, ∀ row ∈ db.messages id, row ∈ s.db.messages id ∨
          .wrote writer id row true ∈ wroteEvents writer run s.db db) →
      (∀ w id row owned, .wrote w id row owned ∉ fs) →
      (∀ id, s.db.messages id <+: db.messages id) ∧
        (∀ w id row owned, .wrote w id row owned ∈ wroteEvents writer run s.db db ++ fs →
          owned = true) ∧
        ∀ id, ∀ row ∈ db.messages id, row ∈ s.db.messages id ∨
          ∃ w, .wrote w id row true ∈ wroteEvents writer run s.db db ++ fs := by
    intro writer run db fs hspec hfs
    refine ⟨hspec.1, ?_, ?_⟩
    · intro w id row owned hmem
      rcases List.mem_append.mp hmem with hmem | hmem
      · exact hspec.2.1 w id row owned hmem
      · exact absurd hmem (hfs w id row owned)
    · intro id row hrow
      rcases hspec.2.2 id row hrow with hold | hnew
      · exact .inl hold
      · exact .inr ⟨writer, List.mem_append_left _ hnew⟩
  have henqueued : ∀ (run : Uuid) (b : Bool) w id row owned,
      (.wrote w id row owned : Event) ∉ enqueuedEvents run b := by
    intro run b w id row owned
    cases b <;> simp [enqueuedEvents]
  have hattempt : ∀ {me : LeaseToken} {run : Uuid} {pc : Advance R} {tx : Tx Json} {now : ℕ},
      pc.tx cfg me = some tx → ∀ r r', s.db.runs run = some r → tx.update now r = some r' →
      tx.newMessages ≠ [] → s.db.owned (some me) run = true := by
    intro me run pc tx now htx r r' hr hu hne
    cases hc : tx.isClaim with
    | true =>
        obtain rfl := Advance.claiming_of_isClaim htx hc
        cases htx
        exact absurd rfl hne
    | false => exact owned_some hr (Tx.leased_of_update (Advance.token_of_tx htx) hc hu)
  cases h with
  | begin => exact hquiet
  | here => exact hquiet
  | commit hj htx hdb => exact hfrom _ _ (wrote_spec hdb (hattempt htx)) (henqueued _ _)
  | lost => exact hquiet
  | applied hj he htx hdb => exact hfrom _ _ (wrote_spec hdb (hattempt htx)) (henqueued _ _)
  | left => exact hquiet
  | @late i now l db ret hl hdb =>
      refine hfrom _ _ (wrote_spec hdb ?_) (henqueued _ _)
      intro r r' _ _ hne
      have hlinger := (hb.late l (List.mem_of_getElem? hl)).1
      cases htx : l.tx <;> rw [htx] at hlinger hne <;>
        first | exact absurd rfl hne | cases hlinger
  | @start run kind prompt now k db hk hdb =>
      unfold Db.insertRun at hdb
      split_ifs at hdb
      cases hdb
      exact ⟨fun _ => List.prefix_rfl, by simp, fun _ _ h => .inl h⟩
  | refused => exact hquiet
  | @answer run text agentRun db ret hans hdb =>
      have hspec := hfrom none [.enqueued run] (wrote_spec hdb ?_) (by simp)
      · refine ⟨hspec.1, ?_, ?_⟩
        · intro w id row owned hmem
          rw [List.mem_cons] at hmem
          rcases hmem with hmem | hmem
          · cases hmem
          · exact hspec.2.1 w id row owned hmem
        · intro id row hrow
          rcases hspec.2.2 id row hrow with hold | ⟨w, hw⟩
          · exact .inl hold
          · exact .inr ⟨w, List.mem_cons_of_mem _ hw⟩
      · intro r r' hr hu _
        simp only [Tx.update, RunRow.answerWaiting] at hu
        split_ifs at hu with hw
        simp [Db.owned, hr, hw]
  | @cancel run now db ret hdb =>
      have hspec := hfrom none [] (wrote_spec hdb ?_) (by simp)
      · simpa using hspec
      · intro r r' _ _ hne
        exact absurd rfl hne

theorem WroteInv.of_run {C : Engine R → Action R → Prop} (h : EngineRun cfg C log s) :
    WroteInv log s := by
  have hboth : s.Basic ∧ WroteInv log s := by
    refine h.invariant (I := fun log s => s.Basic ∧ WroteInv log s) ?_ ?_
    · refine ⟨.init, by simp, ?_⟩
      intro id row hrow
      simp [Engine.init, Db.empty] at hrow
    · intro log s a s' es _ hi _ hs
      have htook := step_took hs
      obtain ⟨-, howned, hkept⟩ := took_wrote hi.1 htook
      refine ⟨hi.1.step htook, ?_, ?_⟩
      · intro w id row owned hmem
        rcases List.mem_append.mp hmem with hmem | hmem
        · exact hi.2.owned w id row owned hmem
        · exact howned w id row owned hmem
      · intro id row hrow
        rcases hkept id row hrow with hold | ⟨w, hw⟩
        · obtain ⟨w, hw⟩ := hi.2.kept id row hold
          exact ⟨w, List.mem_append_left _ hw⟩
        · exact ⟨w, List.mem_append_right _ hw⟩
  exact hboth.2

end

/-- Row `i` is message `i` of the run. -/
def TranscriptOf (run : R.AgentRun) (rows : List (MessageRow Json)) : Prop :=
  ∀ (i : ℕ) (row : MessageRow Json), rows[i]? = some row → row.seq = i ∧
    ∃ message, (R.messages run)[i]? = some message ∧ row.role = R.messageRole message ∧
      row.message = R.messageValue message

theorem TranscriptOf.of_initial {run : R.AgentRun} {rows : List (MessageRow Json)}
    (h : rows <+: R.projectRows 0 run) : TranscriptOf run rows := by
  intro i row hrow
  have hproj : (R.projectRows 0 run)[i]? = some row := by
    obtain ⟨t, ht⟩ := h
    rw [← ht, List.getElem?_append_left (List.getElem?_eq_some_iff.mp hrow).1]
    exact hrow
  rw [R.getElem?_projectRows, Option.map_eq_some_iff] at hproj
  obtain ⟨message, hm, rfl⟩ := hproj
  rw [Nat.zero_add] at hm
  exact ⟨by simp [Rig.messageRow], message, hm, rfl, rfl⟩

/-- The transcript of every run is numbered without a gap, agrees with the stored
run, only grows, and holds only rows whose writer owned the run. -/
theorem transcript_integrity {cfg : Config} {log log' : List Event} {s s' : Engine R} {id : Uuid}
    (ha : R.AppendOnly) (hr : R.RoundTrip) (h : EngineRun cfg StepRun.Free log s)
    (h' : StepRun.Run (Engine.step cfg) StepRun.Free s log' s') :
    s.db.messages id <+: s'.db.messages id ∧
      (∀ row ∈ s'.db.messages id, ∃ writer, .wrote writer id row true ∈ log ++ log') ∧
      (∀ writer row owned, .wrote writer id row owned ∈ log ++ log' → owned = true) ∧
      ∀ r, s'.db.runs id = some r →
        ∃ run, R.fromValue r.runState = .ok run ∧ TranscriptOf run (s'.db.messages id) := by
  have hrun : EngineRun cfg StepRun.Free (log ++ log') s' := h.trans h'
  have hwrote := WroteInv.of_run hrun
  refine ⟨?_, hwrote.kept id, fun writer => hwrote.owned writer id, ?_⟩
  · have hboth := h'.safe (I := fun t => t.Basic ∧ s.db.messages id <+: t.db.messages id)
      ⟨Engine.Basic.of_run h, List.prefix_rfl⟩ fun t a t' es ht _ hs =>
        ⟨ht.1.step (step_took hs), ht.2.trans ((took_wrote ht.1 (step_took hs)).1 id)⟩
    exact hboth.2
  · intro r hrow
    obtain ⟨run, hstate, hp⟩ := (TranscriptInv.of_run ha hr hrun).stored id r hrow
    refine ⟨run, ?_, .of_initial hp⟩
    rw [hstate]
    exact hr run

/-! ## A scripted run -/

/-- The messages of a run that asks once. -/
def script : List (Role × String) :=
  [(.user, "greet me"), (.assistant, "call ask"), (.user, "my name"), (.assistant, "hello")]

/-- rig on one conversation: a run is the number of messages it has reached. A
request is the messages it carries, and a reply or a result the next message. -/
def Rig.scripted : Rig where
  AgentRun := ℕ
  Message := Role × String
  ExecCall := Unit
  MalformedCall := Empty
  ToolResult := String
  Prepared := List (Role × String)
  Request := List (Role × String)
  ModelResponse := String
  messages n := script.take n
  messageRole message := message.1
  messageValue message := .string message.2
  turn n := n / 2
  inputTokens n := some (if n ≤ 1 then 0 else if n ≤ 3 then 100 else 200)
  outputTokens _ := none
  outputToolName _ := none
  toValue n := .array (List.replicate n .null)
  fromValue
    | .array items => .ok items.length
    | _ => .error "at line 1"
  fromSpec _ _ := 1
  hasOutputSchema _ := false
  nextStep n := (n, match n with
    | 1 => .ok (.callModel (.user, "greet me") [] 0)
    | 2 => .ok (.callTools [.execute ()])
    | 3 => .ok (.callModel (.user, "my name") (script.take 2) 1)
    | 4 => .ok (.done "hello")
    | _ => .error .other)
  prepareRequest _ _ history _ := .ok history
  applyTo history prompt := history ++ [prompt]
  advertiseTools n _ _ := n
  setPreviousModel n _ := n
  modelResponse n _ _ := if n = 1 ∨ n = 3 then (n + 1, .ok .settled) else (n, .error .other)
  resolveUnhandledInvalidToolCall n := (n, .error .unknownToolCall)
  callId _ := "call-1"
  callName _ := "ask"
  askArgs _ := some "what is your name?"
  answerExec n _ _ := if n = 2 then (3, .ok ()) else (n, .error .other)
  answerMalformed n _ := (n, .ok ())
  mapOrder := .inserted
  textResult text := text
  invalidArgs message := message
  asText result := some result
  asJson _ := none
  withText _ text := text
  withJson result _ := result

theorem Rig.scripted_appendOnly : Rig.scripted.AppendOnly where
  nextStep _ := List.prefix_rfl
  advertiseTools _ _ _ := List.prefix_rfl
  setPreviousModel _ _ := List.prefix_rfl
  modelResponse n _ _ := by
    simp only [Rig.scripted]
    split_ifs
    · exact List.take_prefix_take_left (Nat.le_succ n)
    · exact List.prefix_rfl
  resolve _ := List.prefix_rfl
  answerExec n _ _ := by
    simp only [Rig.scripted]
    split_ifs with hn
    · subst hn
      exact List.take_prefix_take_left (Nat.le_succ 2)
    · exact List.prefix_rfl
  answerMalformed _ _ := List.prefix_rfl

theorem Rig.scripted_roundTrip : Rig.scripted.RoundTrip := by
  intro n
  exact congrArg Except.ok (List.length_replicate ..)

def scriptedConfig : Config := ⟨[⟨"greeter", "model", 8, 1000⟩], "app", 90⟩

/-- The attempt asks; its successor dies after the model call, and a third one
finishes the run. -/
def scriptedRun : List (Action Rig.scripted) :=
  [.start 1 "greeter" "greet me" 0,
    .begin 7 1, .commit 7 1, .input 7 .proceed, .readSeq 7, .commit 7 2,
    .input 7 (.reply (.ok "call ask")), .readSeq 7, .commit 7 3,
    .input 7 .proceed, .readSeq 7, .commit 7 4, .answer 1 "my name",
    .begin 8 1, .commit 8 5, .input 8 .proceed, .readSeq 8, .commit 8 6,
    .input 8 (.reply (.ok "hello")), .vanish 8 .lost 7,
    .begin 9 1, .commit 9 200, .input 9 .proceed, .readSeq 9, .commit 9 201,
    .input 9 (.reply (.ok "hello")), .readSeq 9, .commit 9 202,
    .input 9 .proceed, .readSeq 9, .commit 9 203, .readSeq 9, .commit 9 204]

/-- The four messages, after a question, an answer and a crash. -/
theorem transcript_integrity_resumed : ∃ (log : List Event) (s : Engine Rig.scripted),
    EngineRun scriptedConfig StepRun.Free log s ∧ (s.db.messages 1).length = 4 ∧
      (∀ row ∈ s.db.messages 1, ∃ writer, .wrote writer 1 row true ∈ log) ∧
      ∀ r, s.db.runs 1 = some r →
        ∃ run : ℕ, Rig.scripted.fromValue r.runState = .ok run ∧
          TranscriptOf (R := Rig.scripted) run (s.db.messages 1) := by
  obtain ⟨log, s, hrun, hdone⟩ := StepRun.exists_free_run (Engine.step scriptedConfig)
    Engine.init scriptedRun (fun _ s => (s.db.messages 1).length == 4) (by decide)
  have h := @transcript_integrity Rig.scripted scriptedConfig log [] s s 1
    Rig.scripted_appendOnly Rig.scripted_roundTrip hrun (.start (C := StepRun.Free))
  rw [List.append_nil] at h
  exact ⟨log, s, hrun, by simpa using hdone, h.2.1, h.2.2.2⟩

end Cja.Durable
