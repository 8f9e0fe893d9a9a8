import Cja.Durable.Course

/-!
# Crashes leave no trace

Whatever attempts a run took, where they died and which of their statements were
lost, applied or late, the run settles as an uninterrupted attempt would have
settled it: with the same state, the same result and the same transcript. The
world answers alike when it is asked twice; an attempt that stores usage above
the budget is excluded, since its successor does not check it.
-/
namespace Cja.Durable

open Jobs (Uuid)

variable {R : Rig} {cfg : Config} {s s' : Engine R} {a : Action R} {es log : List Event}
variable {id : Uuid} {w : World R}

/-- The answers a run was given so far. -/
def answersOf (id : Uuid) (log : List Event) : List String :=
  log.filterMap fun
    | .answered run text => if run = id then some text else none
    | _ => none

@[simp] theorem answersOf_nil (id : Uuid) : answersOf id [] = [] := rfl

@[simp] theorem answersOf_append (id : Uuid) (es fs : List Event) :
    answersOf id (es ++ fs) = answersOf id es ++ answersOf id fs := List.filterMap_append

@[simp] theorem answersOf_answered (id run : Uuid) (text : String) (es : List Event) :
    answersOf id (.answered run text :: es) =
      if run = id then text :: answersOf id es else answersOf id es := by
  by_cases h : run = id <;> simp [answersOf, h]

@[simp] theorem answersOf_wroteEvents (id run : Uuid) (writer : Option LeaseToken)
    (db db' : Db Json) : answersOf id (wroteEvents writer run db db') = [] := by
  unfold answersOf wroteEvents
  rw [List.filterMap_eq_nil_iff]
  intro e he
  obtain ⟨row, -, rfl⟩ := List.mem_map.mp he
  rfl

@[simp] theorem answersOf_enqueued (id run : Uuid) : answersOf id [.enqueued run] = [] := rfl

@[simp] theorem answersOf_enqueuedEvents (id run : Uuid) (enqueues : Bool) :
    answersOf id (enqueuedEvents run enqueues) = [] := by
  cases enqueues <;> rfl

/-! ## The steps that a world allows -/

/-- A reply or a result is the world's, or an error that is tried again. -/
def Input.Faithful (w : World R) (pc : Advance R) : Input R → Prop
  | .reply response => ∀ a run prepared request,
      pc = .driving a (.guarded (.model run prepared request)) →
      response = w.model a.kind request ∨ ∃ e, response = .error e ∧ isRetryable e = true
  | .toolReturns result => ∀ a run exec rest, pc = .driving a (.guarded (.tool run exec rest)) →
      result = w.tool a.kind exec
  | _ => True

def Advance.overdraws : Advance R → Bool
  | driving a st => st.overdraws a
  | _ => false

/-- The inputs are the world's, the database stores what it is given, and no attempt
stores usage above its budget. -/
structure World.Governs (w : World R) (s : Engine R) (a : Action R) : Prop where
  inputs : ∀ me i j, a = .input me i → s.attempts me = some j → i.Faithful w j.pc
  stores : ∀ me code, a ≠ .rejects me code
  budget : ∀ me j, a.actor = some me → s.attempts me = some j → j.pc.overdraws = false

theorem Advance.overdraws_of_over {pc : Advance R} (h : pc.over = true) :
    pc.overdraws = false := by
  cases pc with
  | driving a st =>
      cases st with
      | requeueing => rfl
      | _ => cases h
  | _ => rfl

/-- The attempt whose statement is applied acts, or it is over. -/
theorem World.Governs.overdraws_of_applies (hg : w.Governs s a) (hb : s.Basic) {me : LeaseToken}
    {pc : Advance R} {tx : Tx Json} (hj : s.attempts me = some ⟨id, pc⟩)
    (happ : s.applies cfg a = some (id, tx)) (htoken : tx.token = some me) :
    pc.overdraws = false := by
  have hactor : ∀ {v : LeaseToken}, a.actor = some v → ((s.attempts v).bind fun j =>
      (j.pc.tx cfg v).map fun tx => (j.run, tx)) = some (id, tx) → pc.overdraws = false := by
    intro v hv h
    simp only [Option.bind_eq_some_iff, Option.map_eq_some_iff, Prod.mk.injEq] at h
    obtain ⟨j, -, tx', htx, -, rfl⟩ := h
    obtain rfl : v = me := Option.some.inj ((Advance.token_of_tx htx).symm.trans htoken)
    exact hg.budget v _ hv hj
  cases a with
  | commit v now => exact hactor rfl happ
  | fails v fate now =>
      cases fate with
      | applied => exact hactor rfl happ
      | _ => cases happ
  | vanish v fate now =>
      cases fate with
      | applied => exact hactor rfl happ
      | _ => cases happ
  | applyLate i now =>
      simp only [Engine.applies, Option.map_eq_some_iff, Prod.mk.injEq] at happ
      obtain ⟨l, hl, -, rfl⟩ := happ
      have hlate := (hb.late l (List.mem_of_getElem? hl)).2 me htoken
      exact Advance.overdraws_of_over (hlate.2 _ hj)
  | answer run text =>
      simp only [Engine.applies] at happ
      split at happ
      · cases happ; cases htoken
      · cases happ
  | cancel run now => cases happ; cases htoken
  | _ => cases happ

/-! ## What a step does to a row and its transcript -/

/-- The tables at one run, before and after a step. -/
inductive TableStep (cfg : Config) (s s' : Engine R) (a : Action R) (es : List Event)
    (id : Uuid) : Prop
  | same (hr : s'.db.runs id = s.db.runs id) (hm : s'.db.messages id = s.db.messages id)
      (he : answersOf id es = [])
  | started {k : AgentKind} {kind prompt : String} {now : ℕ} (hk : cfg.kindNamed kind = some k)
      (hnone : s.db.runs id = none) (hr : s'.db.runs id = some (NewRun.row
        ⟨k.name, prompt, k.model, cfg.appName, R.toValue (R.fromSpec k prompt), now⟩))
      (he : answersOf id es = [])
  | attempt {me : LeaseToken} {pc : Advance R} {tx : Tx Json} {now : ℕ} {r r' : RunRow Json}
      (ha : a.actor = some me) (hj : s.attempts me = some ⟨id, pc⟩)
      (htx : pc.tx cfg me = some tx) (hr : s.db.runs id = some r)
      (hu : tx.update now r = some r') (hr' : s'.db.runs id = some r')
      (hm : s'.db.messages id = insertMessages (s.db.messages id) tx.newMessages)
      (he : answersOf id es = [])
  | late {l : LateTx} {now : ℕ} {r r' : RunRow Json} (hl : l ∈ s.late)
      (hr : s.db.runs id = some r) (hu : l.tx.update now r = some r')
      (hr' : s'.db.runs id = some r')
      (hm : s'.db.messages id = insertMessages (s.db.messages id) l.tx.newMessages)
      (he : answersOf id es = [])
  | answered {text : String} {agentRun : R.AgentRun} {r r' : RunRow Json}
      (hr : s.db.runs id = some r) (hans : answerRow R text (some r) = .ok agentRun)
      (hu : r.answerWaiting (R.toValue agentRun) = some r') (hr' : s'.db.runs id = some r')
      (he : answersOf id es = [text])
  | cancelled {now : ℕ} {r : RunRow Json} (hr : s.db.runs id = some r)
      (hr' : s'.db.runs id = some (r.cancelRun cfg.leaseTakeover now))
      (hm : s'.db.messages id = s.db.messages id) (he : answersOf id es = [])

/-- A committed transaction at one run, split by whether it matched. -/
theorem Db.exec_split {db db' : Db Json} {run : Uuid} {tx : Tx Json} {now : ℕ}
    {ret : Option (RunRow Json)} (h : db.exec run tx now = some (db', ret)) (id : Uuid) :
    (db'.runs id = db.runs id ∧ db'.messages id = db.messages id ∧
        (run = id → (db.runs id).bind (tx.update now) = none)) ∨
      ∃ r r', run = id ∧ db.runs id = some r ∧ tx.update now r = some r' ∧
        db'.runs id = some r' ∧
        db'.messages id = insertMessages (db.messages id) tx.newMessages := by
  obtain ⟨hother, hrun⟩ := Db.exec_at h
  by_cases hid : id = run
  · subst hid
    rcases hrun with ⟨-, rfl, hnone⟩ | ⟨r, r', -, hr, hu, hr', hm⟩
    · exact .inl ⟨rfl, rfl, fun _ => hnone⟩
    · exact .inr ⟨r, r', rfl, hr, hu, hr', hm⟩
  · exact .inl ⟨(hother id hid).1, (hother id hid).2, fun he => absurd he.symm hid⟩

/-- What `answer` needs of the row. -/
theorem answerRow_pending {text : String} {o : Option (RunRow Json)} {agentRun : R.AgentRun}
    (h : answerRow R text o = .ok agentRun) : ∃ r callId, o = some r ∧ r.status = .waiting ∧
      r.pendingCallId = some callId ∧ answeredRun R callId text r.runState = .ok agentRun := by
  cases o with
  | none => cases h
  | some r =>
      simp only [answerRow] at h
      split_ifs at h with hw
      split at h
      · cases h
      · case _ callId hcall => exact ⟨r, callId, rfl, hw, hcall, h⟩

theorem Took.tableStep (h : Took cfg s a s' es) (id : Uuid) : TableStep cfg s s' a es id := by
  cases h with
  | begin => exact .same rfl rfl rfl
  | here => exact .same rfl rfl rfl
  | lost => exact .same rfl rfl rfl
  | left => exact .same rfl rfl rfl
  | refused => exact .same rfl rfl rfl
  | commit hj htx hdb =>
      rcases Db.exec_split hdb id with ⟨hr, hm, -⟩ | ⟨r, r', rfl, hr, hu, hr', hm⟩
      · exact .same hr hm (by simp)
      · exact .attempt rfl hj htx hr hu hr' hm (by simp)
  | @applied a me j j' tx now db ret hj he htx hdb =>
      have hactor : a.actor = some me := by cases he <;> rfl
      rcases Db.exec_split hdb id with ⟨hr, hm, -⟩ | ⟨r, r', rfl, hr, hu, hr', hm⟩
      · exact .same hr hm (by simp)
      · exact .attempt hactor hj htx hr hu hr' hm (by simp)
  | late hl hdb =>
      rcases Db.exec_split hdb id with ⟨hr, hm, -⟩ | ⟨r, r', rfl, hr, hu, hr', hm⟩
      · exact .same hr hm (by simp)
      · exact .late (List.mem_of_getElem? hl) hr hu hr' hm (by simp)
  | @start run kind prompt now k db hk hdb =>
      unfold Db.insertRun at hdb
      split_ifs at hdb with hnone
      cases hdb
      rw [Bool.and_eq_true, Option.isNone_iff_eq_none] at hnone
      by_cases hid : id = run
      · subst hid
        let n : NewRun Json :=
          ⟨k.name, prompt, k.model, cfg.appName, R.toValue (R.fromSpec k prompt), now⟩
        have hrow : (s.setDb (s.db.setRun id n.row)).db.runs id = some n.row := by
          rw [Engine.setDb_db, Db.setRun_runs, if_pos rfl]
        exact .started hk hnone.1 hrow rfl
      · refine .same ?_ rfl rfl
        rw [Engine.setDb_db, Db.setRun_runs, if_neg hid]
  | @answer run text agentRun db ret hans hdb =>
      rcases Db.exec_split hdb id with ⟨hr, hm, hnone⟩ | ⟨r, r', rfl, hr, hu, hr', hm⟩
      · by_cases hid : run = id
        · -- an answer that was accepted found its row waiting
          subst hid
          obtain ⟨r, callId, hrow, hw, -⟩ := answerRow_pending hans
          have hmatch := hnone rfl
          simp [hrow, Tx.update, RunRow.answerWaiting, hw] at hmatch
        · exact .same hr hm (by simp [hid])
      · exact .answered hr (hr ▸ hans) hu hr' (by simp)
  | cancel hdb =>
      rcases Db.exec_split hdb id with ⟨hr, hm, -⟩ | ⟨r, r', rfl, hr, hu, hr', hm⟩
      · exact .same hr hm (by simp)
      · cases hu
        exact .cancelled hr hr' hm (by simp)

/-! ## Attempts whose write cannot be stored -/

def Stage.unstorable : Stage R → Bool
  | failing _ _ => true
  | _ => false

/-- `fail_unstorable` is in flight. -/
def Advance.unstorable : Advance R → Bool
  | closingFails _ => true
  | driving _ st => st.unstorable
  | _ => false

namespace Advance

variable {pc pc' : Advance R} {me : LeaseToken}

theorem unstorable_of_over (h : pc.over = true) : pc.unstorable = false := by
  cases pc with
  | driving a st =>
      cases st with
      | requeueing => rfl
      | _ => cases h
  | closingFails code => cases h
  | _ => rfl

theorem unstorable_answeredCall (rest : List R.Call) (p : R.AgentRun × Except PromptError Unit) :
    (Stage.answeredCall rest p).unstorable = false := by
  obtain ⟨run, e⟩ := p
  cases e <;> rfl

theorem unstorable_callToolsStep (run : R.AgentRun) (calls : List R.Call) :
    (Stage.callToolsStep run calls).unstorable = false := by
  cases calls with
  | nil => rfl
  | cons call rest =>
      cases call with
      | malformed call => exact unstorable_answeredCall rest _
      | execute exec =>
          simp only [Stage.callToolsStep]
          split_ifs
          · unfold Stage.askStep
            split
            · rfl
            · exact unstorable_answeredCall [] _
          · rfl

theorem unstorable_settle (p : R.AgentRun × Except PromptError ModelTurnOutcome) :
    (Stage.settle p).unstorable = false := by
  obtain ⟨run, e⟩ := p
  cases e with
  | error error => rfl
  | ok outcome => cases outcome <;> rfl

theorem unstorable_drive (a : Attempt) (run : R.AgentRun) :
    (Stage.drive a run).unstorable = false := by
  unfold Stage.drive
  split
  · rfl
  · unfold Stage.callModelStep
    split <;> rfl
  · exact unstorable_callToolsStep _ _
  · rfl

theorem unstorable_proceed (a : Attempt) (run : R.AgentRun) (next : Next R) :
    (Stage.proceed a run next).unstorable = false := by
  cases next with
  | callTools rest => exact unstorable_callToolsStep run rest
  | checkBudget =>
      simp only [Stage.proceed]
      split_ifs <;> rfl
  | _ => rfl

theorem unstorable_input {i : Input R} (h : Inputs i pc pc') : pc'.unstorable = false := by
  cases h with
  | drive a run => exact unstorable_drive a run
  | resolve a run => exact unstorable_settle _
  | stop a => exact unstorable_of_over (retry_over a)
  | retryable a => exact unstorable_of_over (retry_over a)
  | toolReturns => exact unstorable_answeredCall _ _
  | @replied a run prepared request response hresp =>
      cases response with
      | error e => rfl
      | ok response => exact unstorable_settle _
  | _ => rfl

theorem unstorable_answers {ret : Option (RunRow Json)} (h : Answers cfg pc ret pc') :
    pc'.unstorable = false := by
  cases h with
  | claimed row =>
      unfold claimed
      dsimp only
      split_ifs
      · rfl
      · split <;> rfl
  | landed a w rows row =>
      cases w with
      | persist run advanced next =>
          simp only [landed]
          split_ifs
          · rfl
          · exact unstorable_proceed _ run next
      | _ => rfl
  | abandoned a => exact unstorable_of_over (retry_over a)
  | _ => rfl

theorem unstorable_of_tx {code : String} (h : pc.tx cfg me = some (.failUnstorable me code)) :
    pc.unstorable = true := by
  cases pc with
  | driving a st =>
      cases st with
      | failing => rfl
      | writing w rows => cases w <;> cases h
      | _ => cases h
  | closingFails => rfl
  | _ => cases h

end Advance

/-- No attempt has to fail its run for what the database refuses, nor did one. -/
structure Engine.Storable (s : Engine R) : Prop where
  attempts : ∀ me j, s.attempts me = some j → j.pc.unstorable = false
  late : ∀ l ∈ s.late, ∀ me code, l.tx ≠ .failUnstorable me code

theorem Engine.Storable.step (hb : s.Basic) (hs : s.Storable) (h : Took cfg s a s' es)
    (hstores : ∀ me code, a ≠ .rejects me code) : s'.Storable := by
  have hset : ∀ {t : Engine R} {me : LeaseToken} {j' : Option (JobAttempt R)},
      t.attempts = (s.setAttempt me j').attempts →
      (∀ j, j' = some j → j.pc.unstorable = false) →
      ∀ v j, t.attempts v = some j → j.pc.unstorable = false := by
    intro t me j' ht hj' v j hv
    rw [ht] at hv
    by_cases hvm : v = me
    · subst hvm
      rw [Engine.setAttempt_self] at hv
      exact hj' j hv
    · rw [Engine.setAttempt_other _ _ hvm] at hv
      exact hs.attempts v j hv
  have hended : ∀ {me : LeaseToken} {j : JobAttempt R} {j' : Option (JobAttempt R)} {fate : Fate}
      {now : ℕ}, s.attempts me = some j → Ended cfg me j fate now a j' →
      ∀ k, j' = some k → k.pc.unstorable = false := by
    intro me j j' fate now hj he k hk
    exact Advance.unstorable_of_over ((hb.ended hj he).2 k hk)
  constructor
  case attempts =>
    cases h with
    | begin => exact hset rfl (by rintro j ⟨⟩; rfl)
    | here hj hl =>
        refine hset rfl ?_
        rintro j ⟨⟩
        cases hl with
        | readStatus => rfl
        | readSeq => rfl
        | rejects => exact absurd rfl (hstores _ _)
        | input hi => exact Advance.unstorable_input hi
    | commit hj htx hdb hans =>
        refine hset rfl ?_
        rintro j ⟨⟩
        exact Advance.unstorable_answers hans
    | lost hj he => exact hset rfl (hended hj he)
    | applied hj he => exact hset rfl (hended hj he)
    | left hj he => exact hset rfl (hended hj he)
    | _ => exact hs.attempts
  case late =>
    intro l hl me code htx
    rcases h.late_mem hl with hold | ⟨v, j, hj, -, hjtx, -⟩
    · exact hs.late l hold me code htx
    · rw [htx] at hjtx
      obtain rfl : me = v := Option.some.inj (Advance.token_of_tx hjtx)
      have hstorable := hs.attempts me j hj
      rw [Advance.unstorable_of_tx hjtx] at hstorable
      cases hstorable

/-! ## Where the row and its lease holder are on the course -/

/-- An active row stores a run that is driven on along the course from `origin`, and
a settled one what the write at the end of the course stores. -/
structure RunRow.OnCourse (w : World R) (a : Attempt) (origin : R.AgentRun) (r : RunRow Json)
    (rows : List (MessageRow Json)) : Prop where
  active : r.status = .queued ∨ r.status = .running → ∃ stored, r.runState = R.toValue stored ∧
    Stage.Reaches w a (.top origin) (Stage.drive a stored)
  settled : ∀ x, r.settlement = some x → ∃ wr : Write R,
    Stage.Reaches w a (.top origin) (.projecting wr) ∧ wr.settlement = some x ∧
      rows = R.projectRows 0 wr.run

/-- The attempt is on the course that starts at the stored run, or ends it cancelled. -/
def Stage.Joins (w : World R) (a : Attempt) (stored : R.AgentRun) (st : Stage R) : Prop :=
  Stage.Reaches w a (.top stored) st.course ∨
    ∃ run, st.course = .projecting (.finish run .cancelled false)

/-- The attempt is giving its lease back. -/
def Stage.leaving : Stage R → Bool
  | abandoning | requeueing => true
  | _ => false

/-- What a lease holder knows of the course. -/
def Advance.OnCourse (w : World R) (cfg : Config) (r : RunRow Json) : Advance R → Prop
  | closing ending _ => ending = .cancelled
  | driving a st => st.leaving = true ∨
      cfg.kindNamed r.kind = some a.kind ∧ a.model = a.kind.model ∧
        ∃ stored, r.runState = R.toValue stored ∧ st.Joins w a.kind.attempt stored
  | _ => True

namespace Stage

variable {stored run : R.AgentRun} {st st' : Stage R} {a : Attempt}

theorem Joins.next (he : R.Reemits) (h : st.Joins w a stored)
    (hs : uninterrupted w a st.course = some st') : st'.Joins w a stored := by
  rcases h with h | ⟨run, hrun⟩
  · have hnext : Reaches w a (.top stored) st' := h.next hs
    left
    rw [(hnext.resumable he).course_eq]
    exact hnext
  · rw [hrun] at hs
    cases hs

theorem Joins.congr (h : st.Joins w a stored) (hc : st'.course = st.course) :
    st'.Joins w a stored := by
  unfold Joins at h ⊢
  rwa [hc]

theorem joins_cancelled (run : R.AgentRun) :
    (projecting (.finish run .cancelled false)).Joins w a stored := .inr ⟨run, rfl⟩

end Stage

/-- A claim takes an active row. -/
theorem RunRow.tryClaim_active {J : Type} {r r' : RunRow J} {me : LeaseToken}
    {takeover now : ℕ} (h : r.tryClaim me takeover now = some r') :
    (r.status = .queued ∨ r.status = .running) ∧ r'.status = .running := by
  unfold tryClaim claimable at h
  split_ifs at h with hc
  · cases h
    simp only [Bool.or_eq_true, beq_iff_eq, Bool.and_eq_true] at hc
    exact ⟨hc.imp_right And.left, rfl⟩

namespace Advance

variable {r r' : RunRow Json} {rows : List (MessageRow Json)} {pc pc' : Advance R}
variable {me : LeaseToken}

theorem onCourse_of_over (h : pc.over = true) : pc.OnCourse w cfg r := by
  cases pc with
  | driving a st =>
      cases st with
      | requeueing => exact .inl rfl
      | _ => cases h
  | closing ending snap => cases h
  | _ => trivial

theorem OnCourse.congr (h : pc.OnCourse w cfg r) (hk : r'.kind = r.kind)
    (hs : r'.runState = r.runState) : pc.OnCourse w cfg r' := by
  cases pc with
  | driving a st => simpa only [OnCourse, hk, hs] using h
  | closing ending snap => exact h
  | _ => trivial

theorem onCourse_local (he : R.Reemits) (hg : w.Governs s a) {run : Uuid}
    (hl : Local s me run pc a pc') (hj : s.attempts me = some ⟨run, pc⟩)
    (h : pc.OnCourse w cfg r) : pc'.OnCourse w cfg r := by
  -- one step of the course, from where the attempt stands on it
  have hnext : ∀ {b : Attempt} {st st' : Stage R}, (driving b st).OnCourse w cfg r →
      st.leaving = false →
      (b.model = b.kind.model → Stage.uninterrupted w b.kind.attempt st.course = some st') →
      (driving b st').OnCourse w cfg r := by
    intro b st st' hc hst hs
    rcases hc with hleaving | ⟨hk, hm, stored, hrow, hjoin⟩
    · rw [hst] at hleaving
      cases hleaving
    · exact .inr ⟨hk, hm, stored, hrow, hjoin.next he (hs hm)⟩
  cases hl with
  | readStatus => trivial
  | readSeq =>
      rcases h with hleaving | ⟨hk, hm, stored, hrow, hjoin⟩
      · cases hleaving
      · exact .inr ⟨hk, hm, stored, hrow, hjoin.congr rfl⟩
  | rejects => exact absurd rfl (hg.stores _ _)
  | @input _ _ i hi =>
      have hfaithful := hg.inputs me i _ rfl hj
      cases hi with
      | drive b run =>
          refine hnext h rfl ?_
          intro hm
          rw [Stage.drive_attempt hm]
          rfl
      | resolve b run => exact hnext h rfl fun _ => rfl
      | stop b => exact onCourse_of_over (retry_over b)
      | abandon b g => exact .inl rfl
      | beat b g =>
          rcases h with hleaving | ⟨hk, hm, stored, hrow, hjoin⟩
          · cases hleaving
          · exact .inr ⟨hk, hm, stored, hrow, hjoin.congr rfl⟩
      | @replied b run prepared request response hresp =>
          refine hnext h rfl ?_
          intro _
          rcases hfaithful b run prepared request rfl with rfl | ⟨e, rfl, hretry⟩
          · rfl
          · rw [hresp e rfl] at hretry
            cases hretry
      | retryable b => exact onCourse_of_over (retry_over b)
      | toolReturns b run exec rest result =>
          refine hnext h rfl ?_
          intro _
          rw [hfaithful b run exec rest rfl]
          rfl

/-- The answer to a transaction leaves its attempt on the course. -/
theorem onCourse_answers (he : R.Reemits) (hr : R.RoundTrip) {tx : Tx Json} {now : ℕ}
    {k : AgentKind} {origin : R.AgentRun} (hans : Answers cfg pc (some r') pc')
    (htx : pc.tx cfg me = some tx) (hu : tx.update now r = some r')
    (hbudget : pc.overdraws = false) (hk : cfg.kindNamed r.kind = some k)
    (hmodel : r'.model = k.model) (hrow : r.OnCourse w k.attempt origin rows)
    (h : r.leasedBy me = true → pc.OnCourse w cfg r) : pc'.OnCourse w cfg r' := by
  have hkind := Tx.update_kind hu
  have hstate := Tx.update_runState hu
  cases hans with
  | claimed =>
      cases htx
      obtain ⟨stored, hstored, -⟩ := hrow.active (RunRow.tryClaim_active hu).1
      have hstored' : r'.runState = R.toValue stored := hstate.trans hstored
      have hread : R.fromValue r'.runState = .ok stored := by rw [hstored', hr stored]
      have hname : cfg.kindNamed r'.kind = some k := by rw [hkind, hk]
      simp only [claimed, hread, hname]
      split_ifs
      · rfl
      · exact .inr ⟨hname, hmodel, stored, hstored', .inl .refl⟩
  | landed a wr new =>
      cases wr with
      | persist run advanced next =>
          have hleased : r.leasedBy me = true := Tx.leased_of_update (token_of_tx htx)
            (by cases htx; rfl) hu
          cases htx
          rcases h hleased with hleaving | ⟨hname, hm, stored, -, hjoin⟩
          · cases hleaving
          have hname' : cfg.kindNamed r'.kind = some a.kind := by rw [hkind, hname]
          simp only [landed]
          split_ifs
          · exact .inr ⟨hname', hm, run, hstate, Stage.joins_cancelled run⟩
          · rcases hjoin with hreach | ⟨run', hfin⟩
            · rw [overdraws, Stage.overdraws_writing] at hbudget
              have hon := Stage.Reaches.proceed (w := w) (hreach.resumable he) hbudget
              refine .inr ⟨hname', hm, run, hstate, .inl ?_⟩
              rw [Stage.proceed_attempt, (hon.resumable he).course_eq]
              exact hon
            · cases hfin
      | suspend => trivial
      | finish => trivial
  | beatCancelled a g =>
      cases htx
      rcases h (Tx.leased_of_update rfl rfl hu) with hleaving | ⟨hname, hm, stored, hstored, -⟩
      · cases hleaving
      · exact .inr ⟨by rw [hkind, hname], hm, stored, hstate.trans hstored,
          Stage.joins_cancelled g.run⟩
  | beat a g =>
      cases htx
      exact (h (Tx.leased_of_update rfl rfl hu)).congr hkind hstate
  | abandoned a => exact onCourse_of_over (retry_over a)
  | closed => trivial
  | closedFailed => trivial
  | failed => trivial
  | requeued => trivial
  | released => trivial

end Advance

namespace RunRow

variable {r r' : RunRow Json} {rows : List (MessageRow Json)} {origin : R.AgentRun}
variable {at_ : Attempt}

theorem settlement_of_active (h : r.status = .queued ∨ r.status = .running) :
    r.settlement = none := by
  unfold settlement
  rcases h with h | h <;> rw [h]

theorem settlement_of_cancelled (h : r.status = .cancelled) : r.settlement = none := by
  unfold settlement
  rw [h]

theorem onCourse_of_cancelled (h : r.status = .cancelled) : r.OnCourse w at_ origin rows where
  active hactive := by
    rw [h] at hactive
    simp at hactive
  settled _ hx := by
    rw [settlement_of_cancelled h] at hx
    cases hx

theorem onCourse_of_active {stored : R.AgentRun} (h : r.status = .queued ∨ r.status = .running)
    (hs : r.runState = R.toValue stored)
    (hc : Stage.Reaches w at_ (.top origin) (Stage.drive at_ stored)) :
    r.OnCourse w at_ origin rows where
  active _ := ⟨stored, hs, hc⟩
  settled _ hx := by
    rw [settlement_of_active h] at hx
    cases hx

theorem onCourse_of_settled {wr : Write R} (h : ¬(r.status = .queued ∨ r.status = .running))
    (hc : Stage.Reaches w at_ (.top origin) (.projecting wr)) (hs : wr.settlement = r.settlement)
    (hrows : rows = R.projectRows 0 wr.run) : r.OnCourse w at_ origin rows where
  active hactive := absurd hactive h
  settled _ hx := ⟨wr, hc, hs.trans hx, hrows⟩

/-- A row that stays active and keeps its run stays on the course. -/
theorem OnCourse.stays {rows' : List (MessageRow Json)} (h : r.OnCourse w at_ origin rows)
    (hs : r.status = .queued ∨ r.status = .running)
    (hs' : r'.status = .queued ∨ r'.status = .running) (hstate : r'.runState = r.runState) :
    r'.OnCourse w at_ origin rows' := by
  obtain ⟨stored, hstored, hc⟩ := h.active hs
  exact onCourse_of_active hs' (hstate.trans hstored) hc

end RunRow

/-- Rows that are inserted for a run that extends the stored one complete its transcript. -/
theorem insertMessages_project (hr : R.RoundTrip) {r : RunRow Json}
    {rows new : List (MessageRow Json)} {run : R.AgentRun} (hst : Stored R r rows)
    (hnew : new = R.projectRows rows.length run)
    (hext : ∃ stored, r.runState = R.toValue stored ∧ R.messages stored <+: R.messages run) :
    insertMessages rows new = R.projectRows 0 run := by
  obtain ⟨stored, hstored, hp⟩ := hst
  obtain ⟨stored', hstored', hext⟩ := hext
  obtain rfl : stored = stored' := hr.injective (hstored.symm.trans hstored')
  have hp' : rows <+: R.projectRows 0 run := hp.trans (R.projectRows_extends hext)
  have hnum : Numbered rows := (R.numbered_projectRows run).of_initial hp'
  rw [hnew, insertMessages_eq_append rows _ hnum.lt, R.projectRows_append hp']
  intro i m hm
  rw [R.getElem?_projectRows, Option.map_eq_some_iff] at hm
  obtain ⟨message, -, rfl⟩ := hm
  rfl

theorem Tx.update_origin {J : Type} {tx : Tx J} {now : ℕ} {r r' : RunRow J}
    (h : tx.update now r = some r') : r'.input = r.input ∧ r'.model = r.model := by
  cases tx with
  | cancelRun takeover => cases h; exact ⟨rfl, rfl⟩
  | setWaiting me state callId question rows =>
      simp only [update, RunRow.setWaiting] at h
      split at h
      · cases h; exact ⟨rfl, rfl⟩
      · cases h
  | failUnstorable me code =>
      simp only [update, RunRow.failUnstorable] at h
      split_ifs at h
      cases h; exact ⟨rfl, rfl⟩
  | tryClaim me takeover =>
      simp only [update, RunRow.tryClaim] at h
      split_ifs at h
      cases h; exact ⟨rfl, rfl⟩
  | releaseLease me =>
      simp only [update, RunRow.releaseLease] at h
      split_ifs at h
      cases h; exact ⟨rfl, rfl⟩
  | heartbeat me =>
      simp only [update, RunRow.heartbeat] at h
      split_ifs at h
      cases h; exact ⟨rfl, rfl⟩
  | persistStep me snap rows =>
      simp only [update, RunRow.persistStep] at h
      split_ifs at h
      cases h; exact ⟨rfl, rfl⟩
  | finish me ending snap rows =>
      simp only [update, RunRow.finish] at h
      split_ifs at h
      cases h; exact ⟨rfl, rfl⟩
  | answerWaiting state rows =>
      simp only [update, RunRow.answerWaiting] at h
      split_ifs at h
      cases h; exact ⟨rfl, rfl⟩

namespace RunRow.OnCourse

variable {r r' : RunRow Json} {rows rows' : List (MessageRow Json)} {origin : R.AgentRun}
variable {k : AgentKind} {me : LeaseToken} {now : ℕ}

/-- A transaction that stores no run and ends none leaves the row on the course. -/
theorem idles {tx : Tx Json} (h : r.OnCourse w k.attempt origin rows) (hu : tx.update now r = some r')
    (hnew : tx.newState = none) (hcancel : ∀ takeover, tx ≠ .cancelRun takeover)
    (hfail : ∀ me code, tx ≠ .failUnstorable me code) : r'.OnCourse w k.attempt origin rows' := by
  have hstate : r'.runState = r.runState := by rw [Tx.update_runState hu, hnew, Option.getD_none]
  cases tx with
  | tryClaim v takeover =>
      obtain ⟨hs, hs'⟩ := tryClaim_active hu
      exact h.stays hs (.inr hs') hstate
  | releaseLease v =>
      simp only [Tx.update, releaseLease] at hu
      split_ifs at hu with hl
      cases hu
      have hs := (leasedBy_iff.mp hl).2
      exact h.stays (.inr hs) (.inr hs) hstate
  | heartbeat v =>
      simp only [Tx.update, heartbeat] at hu
      split_ifs at hu with hl
      cases hu
      have hs := (leasedBy_iff.mp hl).2
      exact h.stays (.inr hs) (.inr hs) hstate
  | failUnstorable v code => exact absurd rfl (hfail v code)
  | cancelRun takeover => exact absurd rfl (hcancel takeover)
  | _ => cases hnew

theorem cancelled (h : r.OnCourse w k.attempt origin rows) (takeover : ℕ) :
    (r.cancelRun takeover now).OnCourse w k.attempt origin rows := by
  rw [cancelRun_eq]
  split
  · exact onCourse_of_cancelled rfl
  · exact ⟨h.active, h.settled⟩
  · exact h
  · exact h

/-- The write of the lease holder: a persist of the course, or its end. -/
theorem written {wr : Write R} {stored : R.AgentRun} (he : R.Reemits) (hr : R.RoundTrip)
    (h : r.OnCourse w k.attempt origin rows) (hl : r.leasedBy me = true)
    (hu : (wr.tx me rows').update now r = some r') (hstored : r.runState = R.toValue stored)
    (hjoin : (Stage.projecting wr).Joins w k.attempt stored)
    (hbudget : Stage.overdraws k.attempt (.projecting wr) = false)
    (hrows : insertMessages rows rows' = R.projectRows 0 wr.run) :
    r'.OnCourse w k.attempt origin (insertMessages rows (wr.tx me rows').newMessages) := by
  obtain ⟨stored', hstored', hdrive⟩ := h.active (.inr (leasedBy_iff.mp hl).2)
  obtain rfl : stored' = stored := hr.injective (hstored'.symm.trans hstored)
  rcases hjoin with hreach | ⟨run, hfin⟩
  · have hwr : Stage.Reaches w k.attempt (.top origin) (.projecting wr) :=
      hdrive.rebase hreach (by simp)
    cases wr with
    | persist run advanced next =>
        have hs : r'.status = .running := by
          simp only [Write.tx, Tx.update, persistStep, hl, if_true, Option.some.injEq] at hu
          subst hu
          exact (leasedBy_iff.mp hl).2
        have hdriven := hwr.driven (hreach.resumable he) hbudget
        exact onCourse_of_active (.inr hs) (Tx.update_runState hu) hdriven
    | suspend run callId question =>
        simp only [Write.tx, Tx.update, setWaiting, hl, if_true, Option.some.injEq] at hu
        subst hu
        cases hc : r.cancelRequested with
        | true => exact onCourse_of_cancelled (by simp)
        | false =>
            exact onCourse_of_settled (by simp) hwr (by simp [settlement, Write.settlement]) hrows
    | finish run ending direct =>
        simp only [Write.tx, Tx.update, RunRow.finish, hl, if_true, Option.some.injEq] at hu
        subst hu
        cases ending with
        | cancelled => exact onCourse_of_cancelled rfl
        | succeeded output => exact onCourse_of_settled (by simp [Ending.status]) hwr rfl hrows
        | failed reason message => exact onCourse_of_settled (by simp [Ending.status]) hwr rfl hrows
  · simp only [Stage.course, Stage.projecting.injEq] at hfin
    subst hfin
    simp only [Write.tx, Tx.update, RunRow.finish, hl, if_true, Option.some.injEq] at hu
    subst hu
    exact onCourse_of_cancelled rfl

/-- An attempt's transaction leaves the row on the course. -/
theorem attempt {pc : Advance R} {tx : Tx Json} (he : R.Reemits) (hr : R.RoundTrip)
    (h : r.OnCourse w k.attempt origin rows) (htx : pc.tx cfg me = some tx)
    (hu : tx.update now r = some r') (hk : cfg.kindNamed r.kind = some k)
    (hstorable : pc.unstorable = false) (hbudget : pc.overdraws = false)
    (hst : Stored R r rows) (hfits : r.leasedBy me = true → pc.Fits r rows)
    (hon : r.leasedBy me = true → pc.OnCourse w cfg r) :
    r'.OnCourse w k.attempt origin (insertMessages rows tx.newMessages) := by
  have hleased : tx.isClaim = false → r.leasedBy me = true := fun hc =>
    Tx.leased_of_update (Advance.token_of_tx htx) hc hu
  cases pc with
  | claiming => cases htx; exact h.idles hu rfl (by simp) (by simp)
  | checking => cases htx
  | closing ending snap =>
      cases htx
      obtain rfl : ending = .cancelled := hon (hleased rfl)
      simp only [Tx.update, RunRow.finish, hleased rfl, if_true, Option.some.injEq] at hu
      subst hu
      exact onCourse_of_cancelled rfl
  | closingFails code => cases hstorable
  | releasing => cases htx; exact h.idles hu rfl (by simp) (by simp)
  | returned ok => cases htx
  | driving a st =>
      cases st with
      | writing wr new =>
          have hl : r.leasedBy me = true := hleased (by cases wr <;> (cases htx; rfl))
          obtain ⟨hext, hnew⟩ := hfits hl
          rcases hon hl with hleaving | ⟨hname, hm, stored, hstored, hjoin⟩
          · cases hleaving
          obtain rfl : k = a.kind := Option.some.inj (hk.symm.trans hname)
          cases htx
          rw [Advance.overdraws, Stage.overdraws_writing] at hbudget
          exact h.written he hr hl hu hstored (hjoin.congr rfl) hbudget
            (insertMessages_project hr hst (hnew wr new rfl) (hext wr.run rfl))
      | failing code direct => cases hstorable
      | beating g => cases htx; exact h.idles hu rfl (by simp) (by simp)
      | abandoning => cases htx; exact h.idles hu rfl (by simp) (by simp)
      | requeueing => cases htx; exact h.idles hu rfl (by simp) (by simp)
      | _ => cases htx

end RunRow.OnCourse

/-! ## Every step -/

/-- Every run is on the course of its answers, and every lease holder with it. -/
structure Resumes (cfg : Config) (w : World R) (log : List Event) (s : Engine R) : Prop where
  rows : ∀ id r, s.db.runs id = some r → ∃ k origin, cfg.kindNamed r.kind = some k ∧
    r.model = k.model ∧ Origin w k.attempt r.input (answersOf id log) origin ∧
      r.OnCourse w k.attempt origin (s.db.messages id)
  absent : ∀ id, s.db.runs id = none → answersOf id log = []
  holders : s.Holders fun r _ pc => pc.OnCourse w cfg r
  storable : s.Storable

/-- An accepted answer starts the run from the state that it left. -/
theorem Origin.answer {k : AgentKind} {r : RunRow Json} {answers : List String}
    {rows : List (MessageRow Json)} {text : String} {origin agentRun : R.AgentRun}
    (h : Origin w k.attempt r.input answers origin) (hc : r.OnCourse w k.attempt origin rows)
    (hans : answerRow R text (some r) = .ok agentRun) :
    Origin w k.attempt r.input (answers ++ [text]) agentRun := by
  obtain ⟨q, callId, hq, hw, hcall, hrun⟩ := answerRow_pending hans
  cases hq
  have hx : r.settlement = some (.asked r.runState r.pendingCallId r.pendingQuestion) := by
    simp [RunRow.settlement, hw]
  obtain ⟨wr, hreach, hsettled, -⟩ := hc.settled _ hx
  cases wr with
  | persist => cases hsettled
  | finish => cases hsettled
  | suspend run call question =>
      simp only [Write.settlement, hcall, Option.some.injEq, Settlement.asked.injEq] at hsettled
      obtain ⟨hstate, rfl, -⟩ := hsettled
      rw [← hstate] at hrun
      exact h.answered hreach hrun

namespace Resumes

theorem init : Resumes cfg w [] (Engine.init : Engine R) where
  rows id r h := by simp [Engine.init, Db.empty] at h
  absent _ _ := rfl
  holders me j r h := by simp [Engine.init] at h
  storable := ⟨by simp [Engine.init], by simp [Engine.init]⟩

theorem kindNamed_name {kind : String} {k : AgentKind} (h : cfg.kindNamed kind = some k) :
    cfg.kindNamed k.name = some k := by
  have hname := List.find?_some h
  rw [beq_iff_eq] at hname
  rw [hname]
  exact h

theorem rows_step (he : R.Reemits) (hr : R.RoundTrip) (hb : s.Basic) (ht : TranscriptInv s)
    (hi : Resumes cfg w log s) (hg : w.Governs s a) (h : Took cfg s a s' es) (id : Uuid)
    (r' : RunRow Json) (hrow' : s'.db.runs id = some r') : ∃ k origin,
      cfg.kindNamed r'.kind = some k ∧ r'.model = k.model ∧
        Origin w k.attempt r'.input (answersOf id (log ++ es)) origin ∧
        r'.OnCourse w k.attempt origin (s'.db.messages id) := by
  rw [answersOf_append]
  cases h.tableStep id with
  | same hrow hm hes =>
      rw [hm, hes, List.append_nil]
      exact hi.rows id r' (hrow ▸ hrow')
  | @started k kind prompt now hk hnone hrow hes =>
      rw [hrow, Option.some.injEq] at hrow'
      subst hrow'
      rw [hi.absent id hnone, hes]
      exact ⟨k, R.fromSpec k prompt, kindNamed_name hk, rfl, .start,
        RunRow.onCourse_of_active (.inl rfl) rfl (Stage.Reaches.drive w k.attempt _)⟩
  | @attempt me pc tx now r _ hactor hj htx hrow hu hr' hm hes =>
      rw [hr', Option.some.injEq] at hrow'
      subst hrow'
      obtain ⟨k, origin, hk, hmodel, horigin, hc⟩ := hi.rows id r hrow
      obtain ⟨hinput, hmodel'⟩ := Tx.update_origin hu
      rw [hes, List.append_nil, Tx.update_kind hu, hinput, hmodel', hm]
      exact ⟨k, origin, hk, hmodel, horigin,
        hc.attempt he hr htx hu hk (hi.storable.attempts me _ hj) (hg.budget me _ hactor hj)
          (ht.stored id r hrow) (ht.fits me _ r hj hrow) (hi.holders me _ r hj hrow)⟩
  | @late l now r _ hl hrow hu hr' hm hes =>
      rw [hr', Option.some.injEq] at hrow'
      subst hrow'
      obtain ⟨k, origin, hk, hmodel, horigin, hc⟩ := hi.rows id r hrow
      obtain ⟨hinput, hmodel'⟩ := Tx.update_origin hu
      have hlinger := (hb.late l hl).1
      have hnew : l.tx.newState = none := by
        cases htx : l.tx <;> rw [htx] at hlinger <;> first | rfl | cases hlinger
      have hcancel : ∀ takeover, l.tx ≠ .cancelRun takeover := by
        intro takeover htx
        rw [htx] at hlinger
        cases hlinger
      rw [hes, List.append_nil, Tx.update_kind hu, hinput, hmodel']
      exact ⟨k, origin, hk, hmodel, horigin, hc.idles hu hnew hcancel (hi.storable.late l hl)⟩
  | @answered text agentRun r _ hrow hans hu hr' hes =>
      rw [hr', Option.some.injEq] at hrow'
      subst hrow'
      obtain ⟨k, origin, hk, hmodel, horigin, hc⟩ := hi.rows id r hrow
      have hnext := horigin.answer hc hans
      simp only [RunRow.answerWaiting] at hu
      split_ifs at hu
      cases hu
      rw [hes]
      exact ⟨k, agentRun, hk, hmodel, hnext,
        RunRow.onCourse_of_active (.inr rfl) rfl (Stage.Reaches.drive w k.attempt _)⟩
  | @cancelled now r hrow hr' hm hes =>
      rw [hr', Option.some.injEq] at hrow'
      subst hrow'
      obtain ⟨k, origin, hk, hmodel, horigin, hc⟩ := hi.rows id r hrow
      rw [hes, List.append_nil, hm]
      exact ⟨k, origin, hk, hmodel, horigin, hc.cancelled cfg.leaseTakeover⟩

theorem absent_step (hi : Resumes cfg w log s) (h : Took cfg s a s' es) (id : Uuid)
    (hnone : s'.db.runs id = none) : answersOf id (log ++ es) = [] := by
  rw [answersOf_append]
  cases h.tableStep id with
  | same hrow hm hes => rw [hes, hi.absent id (hrow ▸ hnone), List.append_nil]
  | started hk hold hrow => rw [hrow] at hnone; cases hnone
  | attempt ha hj htx hrow hu hr' => rw [hr'] at hnone; cases hnone
  | late hl hrow hu hr' => rw [hr'] at hnone; cases hnone
  | answered hrow hans hu hr' => rw [hr'] at hnone; cases hnone
  | cancelled hrow hr' => rw [hr'] at hnone; cases hnone

theorem holders_step (he : R.Reemits) (hr : R.RoundTrip) (hb : s.Basic)
    (hi : Resumes cfg w log s) (hg : w.Governs s a) (h : Took cfg s a s' es) :
    s'.Holders fun r _ pc => pc.OnCourse w cfg r := by
  refine hi.holders.step hb h ?_ ?_ ?_ ?_
  · intro r rows pc hover
    exact Advance.onCourse_of_over hover
  · intro r rows pc hc
    exact hc.congr rfl rfl
  · intro me run pc pc' r hl hj _ _ hc
    exact Advance.onCourse_local he hg hl hj hc
  · intro me run pc pc' tx r r' hj happ htx hrow hu hans hc
    obtain ⟨k, origin, hk, hmodel, -, hcourse⟩ := hi.rows run r hrow
    have hbudget := hg.overdraws_of_applies hb hj happ (Advance.token_of_tx htx)
    exact Advance.onCourse_answers he hr hans htx hu hbudget hk
      ((Tx.update_origin hu).2.trans hmodel) hcourse hc

theorem step (he : R.Reemits) (hr : R.RoundTrip) (hb : s.Basic) (ht : TranscriptInv s)
    (hi : Resumes cfg w log s) (hg : w.Governs s a) (h : Took cfg s a s' es) :
    Resumes cfg w (log ++ es) s' where
  rows := hi.rows_step he hr hb ht hg h
  absent := hi.absent_step h
  holders := hi.holders_step he hr hb hg h
  storable := hi.storable.step hb h hg.stores

theorem of_run (ha : R.AppendOnly) (hr : R.RoundTrip) (he : R.Reemits)
    (h : EngineRun cfg w.Governs log s) : Resumes cfg w log s := by
  have hall : (s.Basic ∧ TranscriptInv s) ∧ Resumes cfg w log s := by
    refine h.invariant (I := fun log s => (s.Basic ∧ TranscriptInv s) ∧ Resumes cfg w log s)
      ⟨⟨.init, .init⟩, init⟩ ?_
    intro log s a s' es _ hi hg hs
    have htook := step_took hs
    exact ⟨⟨hi.1.1.step htook, hi.1.2.step ha hr hi.1.1 htook⟩,
      hi.2.step he hr hi.1.1 hi.1.2 hg htook⟩
  exact hall.2

end Resumes

/-- Two runs of one kind on one prompt that were given the same answers settle alike,
however often either was interrupted. -/
theorem resumes_identically {log' : List Event} {id' : Uuid} {r r' : RunRow Json}
    {x x' : Settlement} (ha : R.AppendOnly) (hr : R.RoundTrip) (he : R.Reemits)
    (h : EngineRun cfg w.Governs log s) (h' : EngineRun cfg w.Governs log' s')
    (hrow : s.db.runs id = some r) (hrow' : s'.db.runs id' = some r')
    (hkind : r'.kind = r.kind) (hinput : r'.input = r.input)
    (hanswers : answersOf id' log' = answersOf id log)
    (hx : r.settlement = some x) (hx' : r'.settlement = some x') :
    x' = x ∧ s'.db.messages id' = s.db.messages id := by
  obtain ⟨k, origin, hk, -, horigin, hc⟩ := (Resumes.of_run ha hr he h).rows id r hrow
  obtain ⟨k', origin', hk', -, horigin', hc'⟩ := (Resumes.of_run ha hr he h').rows id' r' hrow'
  obtain rfl : k = k' := by
    rw [hkind, hk] at hk'
    exact Option.some.inj hk'
  rw [hinput, hanswers] at horigin'
  obtain rfl : origin = origin' := horigin.unique horigin'
  obtain ⟨wr, hreach, hsettled, hrows⟩ := hc.settled x hx
  obtain ⟨wr', hreach', hsettled', hrows'⟩ := hc'.settled x' hx'
  have hend : Stage.projecting wr = .projecting wr' := hreach.end_unique hreach'
    (Write.uninterrupted_settlement (by simp [hsettled]))
    (Write.uninterrupted_settlement (by simp [hsettled']))
  obtain rfl : wr = wr' := by simpa using hend
  refine ⟨?_, hrows'.trans hrows.symm⟩
  rw [hsettled, Option.some.injEq] at hsettled'
  exact hsettled'.symm

/-! ## The scripted run again -/

/-- The script opens one batch, of one call. -/
theorem Rig.scripted_calls (n : ℕ) (calls : List Rig.scripted.Call)
    (h : (Rig.scripted.nextStep n).2 = .ok (.callTools calls)) : calls = [.execute ()] := by
  match n with
  | 0 => cases h
  | 1 => cases h
  | 2 => cases h; rfl
  | 3 => cases h
  | 4 => cases h
  | _ + 5 => cases h

theorem Rig.scripted_reemits : Rig.scripted.Reemits where
  callModel _ run run' _ _ _ _ h _ := by
    obtain ⟨rfl, hstep⟩ := Prod.mk.inj h
    exact ⟨run, h, rfl, rfl⟩
  answered run run' run'' exec rest _ h hrest _ := by
    have hcalls := Rig.scripted_calls run _ (congrArg Prod.snd h)
    exact absurd (List.cons.inj hcalls).2 hrest
  answeredMalformed _ _ _ call := call.elim
  done run run' _ h := by
    obtain ⟨rfl, -⟩ := Prod.mk.inj h
    exact h

def scriptedReply (request : List (Role × String)) : String :=
  if request.length = 1 then "call ask" else "hello"

/-- The model of the script. -/
def scriptedWorld : World Rig.scripted where
  model _ request := .ok (scriptedReply request)
  tool _ _ := ""
  final _ _ _ h := by cases h

def sameText (text text' : String) : Bool := text == text'

theorem sameText_eq {text text' : String} (h : sameText text text' = true) : text = text' :=
  beq_iff_eq.mp h

/-- A test of `scriptedWorld.Governs`. -/
def scriptedGoverns (s : Engine Rig.scripted) (a : Action Rig.scripted) : Bool :=
  (match a with
    | .rejects _ _ => false
    | .input me (.reply (.ok text)) => (s.attempts me).all fun j => match j.pc with
        | .driving _ (.guarded (.model _ _ request)) => sameText text (scriptedReply request)
        | _ => true
    | .input _ (.reply (.error e)) => isRetryable e
    | .input _ (.toolReturns _) => false
    | _ => true) &&
  a.actor.all fun me => (s.attempts me).all fun j => !j.pc.overdraws

theorem scriptedGoverns_sound (s : Engine Rig.scripted) (a : Action Rig.scripted)
    (h : scriptedGoverns s a = true) : scriptedWorld.Governs s a := by
  simp only [scriptedGoverns, Bool.and_eq_true] at h
  constructor
  case inputs =>
    rintro me i j rfl hj
    cases i with
    | reply response =>
        cases response with
        | error e => exact fun _ _ _ _ _ => .inr ⟨e, rfl, h.1⟩
        | ok text =>
            intro a run prepared request hpc
            simp only [hj, Option.all_some, hpc] at h
            exact .inl (congrArg Except.ok (sameText_eq h.1))
    | toolReturns result => simp at h
    | _ => trivial
  case stores =>
    rintro me code rfl
    simp at h
  case budget =>
    intro me j hactor hj
    simpa [hactor, hj] using h.2

/-- The script without a crash. -/
def directRun : List (Action Rig.scripted) :=
  [.start 2 "greeter" "greet me" 0,
    .begin 7 2, .commit 7 1, .input 7 .proceed, .readSeq 7, .commit 7 2,
    .input 7 (.reply (.ok "call ask")), .readSeq 7, .commit 7 3,
    .input 7 .proceed, .readSeq 7, .commit 7 4, .answer 2 "my name",
    .begin 8 2, .commit 8 5, .input 8 .proceed, .readSeq 8, .commit 8 6,
    .input 8 (.reply (.ok "hello")), .readSeq 8, .commit 8 7,
    .input 8 .proceed, .readSeq 8, .commit 8 8, .readSeq 8, .commit 8 9]

/-- Run 1 dies after its second model call and run 2 does not. -/
theorem resumes_identically_scripted : ∃ (log log' : List Event) (s s' : Engine Rig.scripted)
    (r r' : RunRow Json) (x x' : Settlement),
    EngineRun scriptedConfig scriptedWorld.Governs log s ∧
      EngineRun scriptedConfig scriptedWorld.Governs log' s' ∧
      s.db.runs 1 = some r ∧ s'.db.runs 2 = some r' ∧ r.status = .succeeded ∧
      r.settlement = some x ∧ r'.settlement = some x' ∧
      x' = x ∧ s'.db.messages 2 = s.db.messages 1 := by
  obtain ⟨log, s, hrun, hp⟩ := StepRun.exists_run (Engine.step scriptedConfig) scriptedGoverns
    Engine.init scriptedRun (fun log s => (s.db.runs 1).any (fun r => r.kind == "greeter" &&
      r.input == "greet me" && r.status == .succeeded) && answersOf 1 log == ["my name"])
    (by decide)
  obtain ⟨log', s', hrun', hp'⟩ := StepRun.exists_run (Engine.step scriptedConfig) scriptedGoverns
    Engine.init directRun (fun log s => (s.db.runs 2).any (fun r => r.kind == "greeter" &&
      r.input == "greet me" && r.status == .succeeded) && answersOf 2 log == ["my name"])
    (by decide)
  simp only [Bool.and_eq_true, Option.any_eq_true, beq_iff_eq] at hp hp'
  obtain ⟨⟨r, hrow, ⟨hkind, hinput⟩, hstatus⟩, hanswers⟩ := hp
  obtain ⟨⟨r', hrow', ⟨hkind', hinput'⟩, hstatus'⟩, hanswers'⟩ := hp'
  have hx : r.settlement = some (.ended .succeeded r.failReason r.output r.error
      ⟨r.runState, r.turns, r.inputTokens, r.outputTokens⟩) := by
    simp [RunRow.settlement, hstatus]
  have hx' : r'.settlement = some (.ended .succeeded r'.failReason r'.output r'.error
      ⟨r'.runState, r'.turns, r'.inputTokens, r'.outputTokens⟩) := by
    simp [RunRow.settlement, hstatus']
  have hg := hrun.mono scriptedGoverns_sound
  have hg' := hrun'.mono scriptedGoverns_sound
  exact ⟨log, log', s, s', r, r', _, _, hg, hg', hrow, hrow', hstatus, hx, hx',
    resumes_identically Rig.scripted_appendOnly Rig.scripted_roundTrip Rig.scripted_reemits
      hg hg' hrow hrow' (hkind'.trans hkind.symm) (hinput'.trans hinput.symm)
      (hanswers'.trans hanswers.symm) hx hx'⟩

end Cja.Durable
