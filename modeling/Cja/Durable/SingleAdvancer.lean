import Cja.Durable.CancelWork

/-!
# One advancer at a time

Nothing watches over a lease: a call stays alone because its attempt refreshed the
lease just before, beats every third of the window, and gives up a write bound
after a heartbeat that nobody answers. The window must be long enough for that,
and a lease must not be given back while its call is still in flight.
-/
namespace Cja.Durable

open Jobs (Uuid stampable)

variable {R : Rig}

/-! ## The conditions -/

/-- Timeouts and ticks fire on time, and the code between two statements takes
none. -/
def Line.onTime (line : Line) (pc : Advance R) (clock elapsed : ℕ) : Bool :=
  line.limit.all (fun l => clock + elapsed ≤ l) &&
    (line.unheard || match pc with
      | .driving _ (.top _) | .driving _ (.resolving _) => elapsed == 0
      | .driving _ (.guarded _) => elapsed == 0 || clock + elapsed ≤ line.due
      | _ => true)

namespace Wire

def punctual (w : Wire R) : WireAction R → Bool
  | .wait elapsed => w.engine.issued.all fun me =>
      (w.engine.attempts me).all fun j => (w.lines me).onTime j.pc w.clock elapsed
  | _ => true

/-- Some attempt has a call in flight for the run. -/
def inFlight (w : Wire R) (id : Uuid) : Bool :=
  w.engine.issued.any fun me =>
    (w.lines me).calls && (w.engine.attempts me).any fun j => j.run == id

/-- No claim takes a lease that was given back under a call in flight. -/
def dropsFirst (cfg : Config) (w : Wire R) : WireAction R → Bool
  | .act a => match w.engine.applies cfg a with
      | some (id, .tryClaim _ _) =>
          !((w.engine.db.runs id).any fun r => r.status == .running && r.lockedBy.isNone) ||
            !w.inFlight id
      | _ => true
  | _ => true

end Wire

/-! ## How long a lease is good for -/

/-- The last instant that `NOW()` reads as the instant of the lease. -/
def RunRow.stamp {J : Type} (r : RunRow J) : ℕ := 1000 * r.lockedAt.getD 0 + 999

/-- The row gives nobody a reason to begin a call. -/
def RunRow.Barren {J : Type} (r : RunRow J) : Prop :=
  r.cancelRequested = true ∨ r.status.terminal = true ∨ (r.status = .running ∧ r.lockedBy = none)

/-- Where the holder of a lease stamped `x` can be, and until when. -/
inductive Timely (window clock x : ℕ) : Advance R → Line → Prop
  | unheard {pc : Advance R} {line : Line} {l : ℕ} (hu : line.unheard = true)
      (hpc : pc.poised = true ∨ pc.over = true) (hl : line.limit = some l)
      (hlate : l ≤ x + 2 * writeBound + window / 3)
      (hp : pc.poised = true → l ≤ x + writeBound)
      (hdue : line.calls = true → pc.poised = true → line.due ≤ x + writeBound + window / 3) :
      Timely window clock x pc line
  | top {a : Attempt} {run : R.AgentRun} {line : Line} (hu : line.unheard = false)
      (hc : clock ≤ x + writeBound) : Timely window clock x (.driving a (.top run)) line
  | guarded {a : Attempt} {g : Guarded R} {line : Line} (hu : line.unheard = false)
      (hc : clock ≤ x + writeBound + window / 3) (hd : line.due ≤ x + writeBound + window / 3) :
      Timely window clock x (.driving a (.guarded g)) line
  | beating {a : Attempt} {g : Guarded R} {line : Line} (hu : line.unheard = false)
      (hs : line.sent ≤ x + writeBound + window / 3) :
      Timely window clock x (.driving a (.beating g)) line
  | abandoning {a : Attempt} {line : Line} (hu : line.unheard = false)
      (hs : line.sent ≤ x + writeBound + window / 3) :
      Timely window clock x (.driving a .abandoning) line

/-- What the row of a run is to an attempt that works on it: its lease, which is
still good, or a row that lets nobody begin. -/
def Covered (window clock : ℕ) (me : LeaseToken) (pc : Advance R) (line : Line)
    (r : RunRow Json) : Prop :=
  (r.leasedBy me = true ∧ Timely window clock r.stamp pc line) ∨ (r.Barren ∧ pc.poised = false)

/-- An attempt that is seen: its timers and its call are those of where it is. -/
structure Line.Fits (window clock : ℕ) (pc : Advance R) (line : Line) : Prop where
  past : line.sent ≤ clock
  within : ∀ l, line.limit = some l → clock ≤ l
  limit : line.unheard = false → line.limit = pc.bound.map fun b => line.sent + b
  beat : line.unheard = false → ∀ a g, pc = .driving a (.beating g) →
    line.due = line.sent + window / 3
  calls : line.unheard = false → line.calls = true → pc.callsAfter true = true

/-- Where a call can be in flight while the attempt is seen. -/
inductive Advance.MayCall : Advance R → Prop
  | guarded (a : Attempt) (g : Guarded R) : MayCall (.driving a (.guarded g))
  | beating (a : Attempt) (g : Guarded R) : MayCall (.driving a (.beating g))
  | abandoning (a : Attempt) : MayCall (.driving a .abandoning)
  | failing (a : Attempt) (code : String) (direct : Bool) : MayCall (.driving a (.failing code direct))
  | projecting (a : Attempt) (run : R.AgentRun) (direct : Bool) :
      MayCall (.driving a (.projecting (.finish run .cancelled direct)))
  | writing (a : Attempt) (run : R.AgentRun) (direct : Bool) (rows : List (MessageRow Json)) :
      MayCall (.driving a (.writing (.finish run .cancelled direct) rows))

theorem Advance.mayCall {pc : Advance R} (h : pc.callsAfter true = true) : pc.MayCall := by
  unfold callsAfter at h
  split at h
  · exact .guarded _ _
  · exact .beating _ _
  · exact .abandoning _
  · exact .failing _ _ _
  · exact .projecting _ _ _
  · exact .writing _ _ _ _
  · cases h

theorem Advance.over_mayCall {pc : Advance R} (ho : pc.over = true) (h : pc.MayCall) : False := by
  cases h <;> cases ho

theorem Line.fits_new (window clock : ℕ) (pc : Advance R) (line : Line) :
    (line.enter window clock pc).Fits window clock pc where
  past := Nat.le_refl _
  within l hl := by
    simp only [enter, Option.map_eq_some_iff] at hl
    obtain ⟨b, -, rfl⟩ := hl
    omega
  limit _ := rfl
  beat _ a g hpc := by
    subst hpc
    rfl
  calls _ hc := by
    change pc.callsAfter line.calls = true at hc
    cases hl : line.calls with
    | true => rw [hl] at hc; exact hc
    | false =>
        rw [hl] at hc
        cases hg : pc.guards with
        | true => exact Advance.callsAfter_guards hg _
        | false => rw [Advance.callsAfter_idle hg] at hc; cases hc

section

variable {window clock : ℕ} {x : ℕ} {pc : Advance R} {line : Line}

/-- Before the lease of its holder is stale, the holder is done. -/
theorem Timely.clock_le (h : Timely window clock x pc line) (hf : line.Fits window clock pc) :
    clock ≤ x + 2 * writeBound + window / 3 := by
  have hwithin := hf.within
  cases h with
  | unheard hu hpc hl hlate => exact Nat.le_trans (hwithin _ hl) hlate
  | top hu hc => omega
  | guarded hu hc hd => omega
  | beating hu hs =>
      have hl : clock ≤ line.sent + writeBound := hwithin _ (hf.limit hu)
      omega
  | abandoning hu hs =>
      have hl : clock ≤ line.sent + releaseBound := hwithin _ (hf.limit hu)
      have hbounds : releaseBound ≤ writeBound := by decide
      omega

end

/-! ## What others commit -/

/-- The window that a transaction reads. -/
def Tx.takeover {J : Type} : Tx J → Option ℕ
  | tryClaim _ takeover | cancelRun takeover => some takeover
  | _ => none

section

variable {window clock now takeover : ℕ} {me : LeaseToken} {pc : Advance R} {line : Line}
variable {r r' : RunRow Json} {tx : Tx Json}

theorem RunRow.staleAt_stamp (h : r.staleAt now takeover = true) (hnow : now ≤ clock / 1000) :
    r.stamp + 1000 * takeover < clock := by
  unfold staleAt at h
  rw [Option.any_eq_true] at h
  obtain ⟨t, ht, hlt⟩ := h
  have hlt' : t + takeover < now := by simpa using hlt
  unfold stamp
  rw [ht, Option.getD_some]
  omega

/-- A lease that is not stale yet survives whatever others commit. -/
theorem Tx.update_fresh (hi : r.Inv) (hl : r.leasedBy me = true) (htoken : tx.token ≠ some me)
    (hfresh : ∀ t, tx.takeover = some t → r.staleAt now t = false)
    (h : tx.update now r = some r') : r'.leasedBy me = true ∧ r'.stamp = r.stamp := by
  obtain ⟨hlock, hrun⟩ := RunRow.leasedBy_iff.mp hl
  have hforeign : ∀ v, tx.token = some v → tx.isClaim = false → False := by
    intro v hv hc
    have hlv := (RunRow.leasedBy_iff.mp (leased_of_update hv hc h)).1
    rw [hlock] at hlv
    cases hlv
    exact htoken hv
  cases tx with
  | tryClaim v takeover =>
      simp only [update, RunRow.tryClaim, RunRow.claimable, hrun, hlock, hfresh takeover rfl] at h
      cases h
  | cancelRun takeover =>
      cases h
      have hat : r.lockedAt.isNone = false := by rw [← hi.locked, hlock]; rfl
      have ha : r.cancelAction takeover now = .request := by
        simp [RunRow.cancelAction, hrun, hlock, hat, hfresh takeover rfl]
      rw [RunRow.cancelRun_eq, ha]
      exact ⟨hl, rfl⟩
  | answerWaiting state rows =>
      simp only [update, RunRow.answerWaiting, hrun] at h
      cases h
  | failUnstorable v => exact (hforeign v rfl rfl).elim
  | releaseLease v => exact (hforeign v rfl rfl).elim
  | heartbeat v => exact (hforeign v rfl rfl).elim
  | persistStep v => exact (hforeign v rfl rfl).elim
  | setWaiting v => exact (hforeign v rfl rfl).elim
  | finish v => exact (hforeign v rfl rfl).elim

/-- A barren row stays so, unless a claim takes the lease that was given back. -/
theorem Tx.update_barren (hb : r.Barren)
    (hclaim : tx.isClaim = true → ¬(r.status = .running ∧ r.lockedBy = none))
    (h : tx.update now r = some r') : r'.Barren := by
  rcases hb with hflag | hterm | ⟨hrun, hlock⟩
  · exact .inl (update_flagged h hflag)
  · rw [update_terminal hterm h]
    exact .inr (.inl hterm)
  · have hnot : ∀ v, tx.token = some v → tx.isClaim = false → False := by
      intro v hv hc
      have hlv := (RunRow.leasedBy_iff.mp (leased_of_update hv hc h)).1
      rw [hlock] at hlv
      cases hlv
    cases tx with
    | tryClaim v takeover => exact absurd ⟨hrun, hlock⟩ (hclaim rfl)
    | cancelRun takeover =>
        cases h
        have ha : r.cancelAction takeover now = .cancelNow := by
          simp [RunRow.cancelAction, hrun, hlock]
        rw [RunRow.cancelRun_eq, ha]
        exact .inr (.inl rfl)
    | answerWaiting state rows =>
        simp only [update, RunRow.answerWaiting, hrun] at h
        cases h
    | failUnstorable v => exact (hnot v rfl rfl).elim
    | releaseLease v => exact (hnot v rfl rfl).elim
    | heartbeat v => exact (hnot v rfl rfl).elim
    | persistStep v => exact (hnot v rfl rfl).elim
    | setWaiting v => exact (hnot v rfl rfl).elim
    | finish v => exact (hnot v rfl rfl).elim

theorem Covered.foreign (hc : Covered window clock me pc line r)
    (hf : line.Fits window clock pc) (hi : r.Inv)
    (hwindow : 2 * writeBound + window / 3 ≤ 1000 * takeover) (hnow : now ≤ clock / 1000)
    (htoken : tx.token ≠ some me) (htake : ∀ t, tx.takeover = some t → t = takeover)
    (hclaim : tx.isClaim = true → ¬(r.status = .running ∧ r.lockedBy = none))
    (h : tx.update now r = some r') : Covered window clock me pc line r' := by
  rcases hc with ⟨hl, ht⟩ | ⟨hb, hp⟩
  · have hfresh : ∀ t, tx.takeover = some t → r.staleAt now t = false := by
      intro t hto
      obtain rfl := htake t hto
      have hle := ht.clock_le hf
      cases hs : r.staleAt now t with
      | false => rfl
      | true =>
          have hlt := RunRow.staleAt_stamp hs hnow
          omega
    obtain ⟨hl', hstamp⟩ := Tx.update_fresh hi hl htoken hfresh h
    refine .inl ⟨hl', ?_⟩
    rw [hstamp]
    exact ht
  · exact .inr ⟨Tx.update_barren hb hclaim h, hp⟩

end

/-! ## What an attempt does itself -/

section

variable {cfg : Config} {window clock now : ℕ} {me : LeaseToken} {pc pc' : Advance R}
variable {line : Line} {r r' : RunRow Json} {tx : Tx Json}

/-- What leaves an attempt poised has just stamped its lease. -/
theorem Advance.poised_leased (htx : pc.tx cfg me = some tx) (hu : tx.update now r = some r')
    (hans : Answers cfg pc (some r') pc') (hp : pc'.poised = true) :
    r'.leasedBy me = true ∧ r'.lockedAt = some now ∧ pc.bound = some writeBound ∧
      (pc.MayCall → ∃ a g, pc = .driving a (.beating g)) := by
  cases hans with
  | claimed row =>
      cases htx
      simp only [Tx.update, RunRow.tryClaim] at hu
      split_ifs at hu
      cases hu
      exact ⟨by simp [RunRow.leasedBy], rfl, rfl, fun h => by cases h⟩
  | landed a w rows row =>
      cases w with
      | persist run advanced next =>
          cases htx
          simp only [Write.tx, Tx.update, RunRow.persistStep] at hu
          split_ifs at hu with hl
          cases hu
          exact ⟨hl, rfl, rfl, fun h => by cases h⟩
      | suspend => cases hp
      | finish => cases hp
  | beat a g hc =>
      cases htx
      simp only [Tx.update, RunRow.heartbeat] at hu
      split_ifs at hu with hl
      cases hu
      exact ⟨hl, rfl, rfl, fun _ => ⟨a, g, rfl⟩⟩
  | abandoned a => rw [poised_of_over (retry_over a)] at hp; cases hp
  | _ => cases hp

/-- With a call in flight, a transaction of the attempt that ends its work leaves
a barren row. -/
theorem Advance.barren_of_answer (hm : pc.MayCall) (htx : pc.tx cfg me = some tx)
    (hu : tx.update now r = some r') (hans : Answers cfg pc (some r') pc')
    (hp : pc'.poised = false) : r'.Barren := by
  cases hm with
  | guarded a g => cases htx
  | beating a g =>
      cases hans with
      | beatCancelled a g hc => exact .inl hc
      | beat => cases hp
  | abandoning a =>
      cases htx
      simp only [Tx.update, RunRow.releaseLease] at hu
      split_ifs at hu with hl
      cases hu
      exact .inr (.inr ⟨(RunRow.leasedBy_iff.mp hl).2, rfl⟩)
  | failing a code direct =>
      cases htx
      simp only [Tx.update, RunRow.failUnstorable] at hu
      split_ifs at hu with hl
      cases hu
      exact .inr (.inl rfl)
  | projecting a run direct => cases htx
  | writing a run direct rows =>
      cases htx
      simp only [Write.tx, Tx.update, RunRow.finish] at hu
      split_ifs at hu with hl
      cases hu
      exact .inr (.inl rfl)

theorem Covered.answered (hf : line.Fits window clock pc) (hu : line.unheard = false)
    (hnow : stampable line.sent now clock = true) (htx : pc.tx cfg me = some tx)
    (hup : tx.update now r = some r') (hans : Answers cfg pc (some r') pc')
    (hwork : pc'.poised = true ∨ line.calls = true) :
    Covered window clock me pc' { line with unheard := true } r' := by
  cases hp : pc'.poised with
  | false =>
      have hcalls : line.calls = true := by
        rcases hwork with h | h
        · rw [hp] at h
          cases h
        · exact h
      exact .inr ⟨Advance.barren_of_answer (Advance.mayCall (hf.calls hu hcalls)) htx hup hans hp, hp⟩
  | true =>
      obtain ⟨hl, hat, hbound, hbeat⟩ := Advance.poised_leased htx hup hans hp
      have hstamp : r'.stamp = 1000 * now + 999 := by
        unfold RunRow.stamp
        rw [hat, Option.getD_some]
      have hsent : line.sent ≤ r'.stamp := by
        simp only [stampable, Bool.and_eq_true, decide_eq_true_eq] at hnow
        omega
      have hlimit : line.limit = some (line.sent + writeBound) := by
        rw [hf.limit hu, hbound]
        rfl
      refine .inl ⟨hl, .unheard rfl (.inl hp) hlimit ?_ ?_ ?_⟩
      · omega
      · intro _
        omega
      · intro hcalls _
        obtain ⟨a, g, hpc⟩ := hbeat (Advance.mayCall (hf.calls hu hcalls))
        have hdue := hf.beat hu a g hpc
        change line.due ≤ _
        omega

/-- A transaction of an attempt that matches nothing finds no lease of it. -/
theorem Covered.unanswered (hc : Covered window clock me pc line r)
    (htx : pc.tx cfg me = some tx) (hclaim : tx.isClaim = false) (hup : tx.update now r = none) :
    r.Barren := by
  rcases hc with ⟨hl, -⟩ | ⟨hb, -⟩
  · exact absurd hup (Tx.update_leased (Advance.token_of_tx htx) hclaim hl now)
  · exact hb

/-- The statement of a call in flight ends in an error, and changed nothing. -/
theorem Covered.lost (hc : Covered window clock me pc line r) (hf : line.Fits window clock pc)
    (hu : line.unheard = false) (hover : pc'.over = true)
    (hawait : pc.awaits cfg me = true) :
    Covered window clock me pc' { line with unheard := true } r := by
  have hpoised := Advance.poised_of_over hover
  rcases hc with ⟨hl, ht⟩ | ⟨hb, -⟩
  · have hnot : pc'.poised ≠ true := by simp [hpoised]
    cases ht with
    | unheard hu' => rw [hu] at hu'; cases hu'
    | top => cases hawait
    | guarded => cases hawait
    | beating _ hs =>
        refine .inl ⟨hl, .unheard rfl (.inr hover) (hf.limit hu) ?_ (absurd · hnot)
          fun _ => (absurd · hnot)⟩
        change line.sent + writeBound ≤ _
        omega
    | abandoning _ hs =>
        have hbounds : releaseBound ≤ writeBound := by decide
        refine .inl ⟨hl, .unheard rfl (.inr hover) (hf.limit hu) ?_ (absurd · hnot)
          fun _ => (absurd · hnot)⟩
        change line.sent + releaseBound ≤ _
        omega
  · exact .inr ⟨hb, hpoised⟩

/-- It ends in an error, and the database applied it. -/
theorem Covered.applied (hc : Covered window clock me pc line r) (hf : line.Fits window clock pc)
    (hu : line.unheard = false) (hcalls : line.calls = true) (hover : pc'.over = true)
    (hnow : stampable line.sent now clock = true) (htx : pc.tx cfg me = some tx)
    (hup : tx.update now r = some r') :
    Covered window clock me pc' { line with unheard := true } r' := by
  have hpoised := Advance.poised_of_over hover
  have hm := Advance.mayCall (hf.calls hu hcalls)
  have hnot : pc'.poised ≠ true := by simp [hpoised]
  rcases hc with ⟨hl, ht⟩ | ⟨hb, -⟩
  · cases ht with
    | unheard hu' => rw [hu] at hu'; cases hu'
    | top => cases htx
    | guarded => cases htx
    | @beating a g _ _ hs =>
        cases htx
        simp only [Tx.update, RunRow.heartbeat] at hup
        split_ifs at hup
        cases hup
        simp only [stampable, Bool.and_eq_true, decide_eq_true_eq] at hnow
        refine .inl ⟨hl, .unheard rfl (.inr hover) (hf.limit hu) ?_ (absurd · hnot)
          fun _ => (absurd · hnot)⟩
        change line.sent + writeBound ≤ _
        simp only [RunRow.stamp, Option.getD_some]
        omega
    | abandoning _ hs =>
        cases htx
        simp only [Tx.update, RunRow.releaseLease] at hup
        split_ifs at hup
        cases hup
        exact .inr ⟨.inr (.inr ⟨(RunRow.leasedBy_iff.mp hl).2, rfl⟩), hpoised⟩
  · have hclaim : tx.isClaim ≠ true := by
      intro hc
      rw [Advance.claiming_of_isClaim htx hc] at hm
      cases hm
    exact .inr ⟨Tx.update_barren hb (absurd · hclaim) hup, hpoised⟩

/-- A seen attempt that is not where a lease holder works finds a barren row. -/
theorem Covered.moved (hc : Covered window clock me pc line r)
    (hnot : ∀ x, ¬Timely window clock x pc line) (hp : pc'.poised = false) :
    Covered window clock me pc' { line with unheard := true } r := by
  rcases hc with ⟨-, ht⟩ | ⟨hb, -⟩
  · exact absurd ht (hnot _)
  · exact .inr ⟨hb, hp⟩

/-! ### Inputs and answers -/

theorem Advance.callsAfter_over (h : pc.over = true) (calls : Bool) : pc.callsAfter calls = false := by
  cases pc with
  | driving a st => cases st <;> first | rfl | cases h
  | _ => rfl

theorem Advance.callsAfter_settle (a : Attempt) (calls : Bool)
    (p : R.AgentRun × Except PromptError ModelTurnOutcome) :
    (driving a (Stage.settle p)).callsAfter calls = false := by
  obtain ⟨run, e⟩ := p
  cases e with
  | error error => rfl
  | ok outcome => cases outcome <;> rfl

theorem Advance.callsAfter_answeredCall (a : Attempt) (calls : Bool) (rest : List R.Call)
    (p : R.AgentRun × Except PromptError Unit) :
    (driving a (Stage.answeredCall rest p)).callsAfter calls = false := by
  obtain ⟨run, e⟩ := p
  cases e <;> rfl

theorem Advance.top_or_guarded (hw : pc.poised = true ∨ pc.callsAfter false = true)
    (hbeat : ∀ {a} g, pc ≠ .driving a (.beating g)) :
    (∃ a run, pc = .driving a (.top run)) ∨ ∃ a g, pc = .driving a (.guarded g) := by
  cases hg : pc.guards with
  | true =>
      rcases Advance.guards_cases hg with h | ⟨a, g, he⟩
      · exact .inr h
      · exact absurd he (hbeat g)
  | false =>
      rcases hw with hp | hc
      · exact .inl (Advance.top_of_poised hp hg)
      · rw [Advance.callsAfter_idle hg] at hc
        cases hc

/-- An attempt works on after an input only where it worked before. -/
inductive WorksOn : Advance R → Advance R → Prop
  | top (a : Attempt) (run : R.AgentRun) : WorksOn (.driving a (.top run)) (.driving a (Stage.drive a run))
  | beat (a : Attempt) (g : Guarded R) : WorksOn (.driving a (.guarded g)) (.driving a (.beating g))
  | abandon (a : Attempt) (g : Guarded R) : WorksOn (.driving a (.guarded g)) (.driving a .abandoning)

theorem inputs_worksOn {i : Input R} (h : Inputs i pc pc')
    (hw : pc'.poised = true ∨ pc'.callsAfter line.calls = true) : WorksOn pc pc' := by
  have hover : pc'.over = true → False := by
    intro ho
    rcases hw with hp | hc
    · rw [Advance.poised_of_over ho] at hp
      cases hp
    · rw [Advance.callsAfter_over ho] at hc
      cases hc
  cases h with
  | drive a run => exact .top a run
  | beat a g => exact .beat a g
  | abandon a g => exact .abandon a g
  | stop a => exact (hover (Advance.retry_over a)).elim
  | retryable a => exact (hover (Advance.retry_over a)).elim
  | resolve a run =>
      rw [Advance.settle_poised, Advance.callsAfter_settle] at hw
      rcases hw with h | h <;> cases h
  | toolReturns a run exec rest result =>
      unfold Stage.toolReturned at hw
      rw [Advance.answeredCall_poised, Advance.callsAfter_answeredCall] at hw
      rcases hw with h | h <;> cases h
  | @replied a run prepared request response hresp =>
      cases response with
      | error e => rcases hw with h | h <;> cases h
      | ok response =>
          unfold Stage.replied at hw
          rw [Advance.settle_poised, Advance.callsAfter_settle] at hw
          rcases hw with h | h <;> cases h

theorem Covered.input (hc : Covered window clock me pc line r) (hf : line.Fits window clock pc)
    (hu : line.unheard = false) (h : WorksOn pc pc')
    (hw : pc'.poised = true ∨ pc'.callsAfter line.calls = true) :
    Covered window clock me pc' (line.enter window clock pc') r := by
  cases h with
  | top a run =>
      rcases hc with ⟨hl, ht⟩ | ⟨-, hp⟩
      · cases ht with
        | unheard hu' => rw [hu] at hu'; cases hu'
        | top _ hle =>
            have hidle : line.calls = false := by
              cases hcalls : line.calls with
              | false => rfl
              | true => exact absurd (hf.calls hu hcalls) (by simp [Advance.callsAfter])
            rw [hidle] at hw
            rcases Advance.top_or_guarded hw (fun g he => by
              injection he with _ hstage
              exact Advance.drive_beating a run g hstage) with ⟨a', run', he⟩ | ⟨a', g, he⟩
            · rw [he]
              exact .inl ⟨hl, .top rfl hle⟩
            · rw [he]
              have hdue : (line.enter window clock (.driving a' (.guarded g) : Advance R)).due =
                  clock + window / 3 := by simp [Line.enter, hidle]
              refine .inl ⟨hl, .guarded rfl ?_ ?_⟩ <;> omega
      · cases hp
  | beat a g =>
      rcases hc with ⟨hl, ht⟩ | ⟨-, hp⟩
      · cases ht with
        | unheard hu' => rw [hu] at hu'; cases hu'
        | guarded _ hle => exact .inl ⟨hl, .beating rfl hle⟩
      · cases hp
  | abandon a g =>
      rcases hc with ⟨hl, ht⟩ | ⟨-, hp⟩
      · cases ht with
        | unheard hu' => rw [hu] at hu'; cases hu'
        | guarded _ hle => exact .inl ⟨hl, .abandoning rfl hle⟩
      · cases hp

/-- The answer, or the error, arrives. -/
theorem Covered.heard (hc : Covered window clock me pc line r) (hf : line.Fits window clock pc)
    (hu : line.unheard = true) (hw : pc.poised = true ∨ pc.callsAfter line.calls = true) :
    Covered window clock me pc (line.enter window clock pc) r := by
  rcases hc with ⟨hl, ht⟩ | hb
  · cases ht with
    | unheard _ hpc hlimit hlate hp hdue =>
        have hle := hf.within _ hlimit
        rcases hpc with hp' | hover
        · have hlease := hp hp'
          by_cases hg : pc.guards = true
          · rcases Advance.guards_cases hg with ⟨a, g, rfl⟩ | ⟨a, g, rfl⟩
            · refine .inl ⟨hl, .guarded rfl (by omega) ?_⟩
              cases hcalls : line.calls with
              | true => simpa [Line.enter, hcalls] using hdue hcalls hp'
              | false =>
                  have hnew : (line.enter window clock (.driving a (.guarded g) : Advance R)).due =
                      clock + window / 3 := by simp [Line.enter, hcalls]
                  omega
            · cases hp'
          · obtain ⟨a, run, rfl⟩ := Advance.top_of_poised hp' (by simpa using hg)
            exact .inl ⟨hl, .top rfl (by omega)⟩
        · rw [Advance.poised_of_over hover, Advance.callsAfter_over hover] at hw
          rcases hw with h | h <;> cases h
    | top hu' => rw [hu] at hu'; cases hu'
    | guarded hu' => rw [hu] at hu'; cases hu'
    | beating hu' => rw [hu] at hu'; cases hu'
    | abandoning hu' => rw [hu] at hu'; cases hu'
  · exact .inr hb

end

/-! ## One step -/

/-- The attempt can begin a call for the run, or has one in flight. -/
def Wire.Working (w : Wire R) (me : LeaseToken) (id : Uuid) (pc : Advance R) : Prop :=
  w.engine.attempts me = some ⟨id, pc⟩ ∧ (pc.poised = true ∨ (w.lines me).calls = true)

structure Wire.Sole (cfg : Config) (window : ℕ) (w : Wire R) : Prop where
  basic : w.engine.Basic
  calling : w.Calling
  late : ∀ l ∈ w.engine.late, ∀ t, l.tx.takeover = some t → t = cfg.leaseTakeover
  fits : ∀ me j, w.engine.attempts me = some j → (w.lines me).Fits window w.clock j.pc
  covered : ∀ me id pc, w.Working me id pc → ∃ r, w.engine.db.runs id = some r ∧
    Covered window w.clock me pc (w.lines me) r
  sole : ∀ me v id pc pc', w.Working me id pc → w.Working v id pc' → me = v

section

variable {cfg : Config} {window : ℕ} {w w' : Wire R} {a : Action R} {s : Engine R}
variable {es : List Event} {me v : LeaseToken} {id : Uuid} {pc pc' : Advance R}

theorem Advance.takeover_of_tx {tx : Tx Json} {t : ℕ} (h : pc.tx cfg me = some tx)
    (ht : tx.takeover = some t) : t = cfg.leaseTakeover := by
  cases pc with
  | claiming =>
      cases h
      exact (Option.some.inj ht).symm
  | driving a st =>
      cases st with
      | writing w rows => cases w <;> (cases h; cases ht)
      | failing code direct => cases h; cases ht
      | beating g => cases h; cases ht
      | abandoning => cases h; cases ht
      | requeueing => cases h; cases ht
      | _ => cases h
  | closing ending snap => cases h; cases ht
  | closingFails code => cases h; cases ht
  | releasing => cases h; cases ht
  | _ => cases h

theorem Advance.rejected_poised {code : String} (h : pc.rejected code = some pc') :
    pc'.poised = false := by
  unfold rejected at h
  split at h <;> cases h <;> rfl

/-- `NOW()` is not ahead of the clock. -/
theorem Wire.allows_now (h : w.allows a = true) {x : Uuid × Tx Json}
    (happ : w.engine.applies cfg a = some x) : a.now ≤ w.clock / 1000 := by
  have hstamp : ∀ {sent now clock : ℕ}, stampable sent now clock = true → now ≤ clock / 1000 := by
    intro sent now clock h
    simp only [stampable, Bool.and_eq_true, decide_eq_true_eq] at h
    exact h.2
  cases a with
  | commit me now =>
      simp only [allows, Bool.and_eq_true] at h
      exact hstamp h.2
  | fails me fate now =>
      cases fate with
      | applied =>
          simp only [allows, Bool.and_eq_true] at h
          exact hstamp h.2
      | _ => cases happ
  | vanish me fate now =>
      cases fate with
      | applied =>
          simp only [allows, Bool.and_eq_true] at h
          exact hstamp h.2
      | _ => cases happ
  | applyLate i now =>
      simp only [allows, Bool.and_eq_true, decide_eq_true_eq] at h
      exact h.2
  | answer run text => exact Nat.zero_le _
  | cancel run now =>
      simp only [allows, decide_eq_true_eq] at h
      exact h
  | _ => cases happ

theorem Wire.Sole.not_over (hs : w.Sole cfg window) (hw : w.Working v id pc)
    (hu : (w.lines v).unheard = false) : pc.over = false := by
  cases ho : pc.over with
  | false => rfl
  | true =>
      rcases hw.2 with hp | hc
      · rw [Advance.poised_of_over ho] at hp
        cases hp
      · exact (Advance.over_mayCall ho (Advance.mayCall ((hs.fits v _ hw.1).calls hu hc))).elim

/-- Nobody else applies a transaction in the name of an attempt that works. -/
theorem Wire.Sole.foreign (hs : w.Sole cfg window) (hallow : w.allows a = true)
    (hv : a.actor ≠ some v) (hw : w.Working v id pc) {x : Uuid × Tx Json}
    (happ : w.engine.applies cfg a = some x) :
    x.2.token ≠ some v ∧ ∀ t, x.2.takeover = some t → t = cfg.leaseTakeover := by
  have hattempt : ∀ {me : LeaseToken}, a.actor = some me → ((w.engine.attempts me).bind fun j =>
      (j.pc.tx cfg me).map fun tx => (j.run, tx)) = some x →
      x.2.token ≠ some v ∧ ∀ t, x.2.takeover = some t → t = cfg.leaseTakeover := by
    intro me ha h
    simp only [Option.bind_eq_some_iff, Option.map_eq_some_iff] at h
    obtain ⟨j, -, tx, htx, rfl⟩ := h
    refine ⟨?_, fun t => Advance.takeover_of_tx htx⟩
    intro ht
    rw [Advance.token_of_tx htx] at ht
    exact hv (ha.trans ht)
  cases a with
  | commit me now => exact hattempt rfl happ
  | fails me fate now =>
      cases fate with
      | applied => exact hattempt rfl happ
      | _ => cases happ
  | vanish me fate now =>
      cases fate with
      | applied => exact hattempt rfl happ
      | _ => cases happ
  | applyLate i now =>
      simp only [Engine.applies, Option.map_eq_some_iff] at happ
      obtain ⟨l, hl, rfl⟩ := happ
      have hmem := List.mem_of_getElem? hl
      refine ⟨?_, hs.late l hmem⟩
      intro ht
      have hover := ((hs.basic.late l hmem).2 v ht).2 _ hw.1
      have hheard : (w.lines v).unheard = false := by
        simp only [Wire.allows, Wire.late, hl, Option.bind_some, ht, Option.all_some,
          Bool.and_eq_true, Bool.not_eq_true'] at hallow
        exact hallow.1
      rw [hs.not_over hw hheard] at hover
      cases hover
  | answer run text =>
      simp only [Engine.applies] at happ
      split at happ
      · cases happ
        exact ⟨by rintro ⟨⟩, by rintro t ⟨⟩⟩
      · cases happ
  | cancel run now =>
      cases happ
      exact ⟨by rintro ⟨⟩, fun t ht => (Option.some.inj ht).symm⟩
  | _ => cases happ

/-- What an attempt works under survives the steps of others. -/
theorem Wire.Sole.frame (hs : w.Sole cfg window)
    (hwindow : 2 * writeBound + window / 3 ≤ 1000 * cfg.leaseTakeover)
    (ht : Took cfg w.engine a s es) (hallow : w.allows a = true)
    (hdrops : w.dropsFirst cfg (.act a) = true) (hv : a.actor ≠ some v)
    (hw : w.Working v id pc) :
    ∃ r, s.db.runs id = some r ∧ Covered window w.clock v pc (w.lines v) r := by
  obtain ⟨r, hr, hc⟩ := hs.covered v id pc hw
  have hrow := ht.rowStep id
  rw [hr] at hrow
  generalize ho : s.db.runs id = o at hrow
  cases hrow with
  | same => exact ⟨r, rfl, hc⟩
  | @updated tx _ r' happ hu =>
      obtain ⟨htoken, htake⟩ := hs.foreign hallow hv hw happ
      refine ⟨r', rfl, hc.foreign (hs.fits v _ hw.1) (hs.basic.rows id r hr) hwindow
        (Wire.allows_now hallow happ) htoken htake ?_ hu⟩
      rintro hclaim ⟨hrun, hlock⟩
      cases tx with
      | tryClaim me takeover =>
          have hcalls : (w.lines v).calls = true := by
            rcases hw.2 with hp | hcalls
            · rcases hc with ⟨hl, -⟩ | ⟨-, hn⟩
              · rw [(RunRow.leasedBy_iff.mp hl).1] at hlock
                cases hlock
              · rw [hp] at hn
                cases hn
            · exact hcalls
          have hflight : w.inFlight id = true := by
            refine List.any_eq_true.mpr ⟨v, hs.basic.attempts v _ hw.1, ?_⟩
            simp [hcalls, hw.1]
          simp [Wire.dropsFirst, happ, hr, hrun, hlock, hflight] at hdrops
      | _ => cases hclaim

/-- Whoever holds a lease under no cancel is the only one at work. -/
theorem Covered.alone {clock : ℕ} {line : Line} {r : RunRow Json}
    (hc : Covered window clock v pc line r) (hl : r.leasedBy me = true)
    (hflag : r.cancelRequested = false) : me = v := by
  obtain ⟨hlock, hrun⟩ := RunRow.leasedBy_iff.mp hl
  rcases hc with ⟨hv, -⟩ | ⟨hf | ht | ⟨-, hn⟩, -⟩
  · have hlv := (RunRow.leasedBy_iff.mp hv).1
    rw [hlock] at hlv
    exact Option.some.inj hlv
  · rw [hflag] at hf
    cases hf
  · rw [hrun] at ht
    cases ht
  · rw [hlock] at hn
    cases hn

theorem Wire.allows_remote (h : w.allows a = true) (ha : a.actor = some me)
    (hr : a.remote = true) : (w.lines me).unheard = false := by
  cases a with
  | fails v fate now =>
      obtain rfl := Option.some.inj ha
      cases fate <;> simp_all [allows]
  | commit v now =>
      obtain rfl := Option.some.inj ha
      simp_all [allows]
  | readStatus v => obtain rfl := Option.some.inj ha; simpa [allows] using h
  | readSeq v => obtain rfl := Option.some.inj ha; simpa [allows] using h
  | rejects v code => obtain rfl := Option.some.inj ha; simpa [allows] using h
  | _ => cases hr

theorem Wire.Sole.mayCall (hs : w.Sole cfg window) (hj : w.engine.attempts me = some ⟨id, pc⟩)
    (hu : (w.lines me).unheard = false) (hcalls : (w.lines me).calls = true) : pc.MayCall :=
  Advance.mayCall ((hs.fits me _ hj).calls hu hcalls)

/-- The attempt that acts, while it does not know the outcome yet. -/
theorem Wire.Sole.remote (hs : w.Sole cfg window) (ht : Took cfg w.engine a s es)
    (hallow : w.allows a = true) (ha : a.actor = some me) (hr : a.remote = true)
    (hj : s.attempts me = some ⟨id, pc'⟩) (hw : pc'.poised = true ∨ (w.lines me).calls = true) :
    (∃ r, s.db.runs id = some r ∧
        Covered window w.clock me pc' { w.lines me with unheard := true } r) ∧
      ((∃ pc, w.Working me id pc) ∨
        ∃ r, s.db.runs id = some r ∧ r.leasedBy me = true ∧ r.cancelRequested = false) := by
  have hu := Wire.allows_remote hallow ha hr
  have hset : ∀ {u : LeaseToken} {k : Option (JobAttempt R)} {t : Engine R}, u = me →
      (t.setAttempt u k).attempts me = some ⟨id, pc'⟩ → k = some ⟨id, pc'⟩ := by
    rintro u k t rfl hk
    rwa [Engine.setAttempt_self] at hk
  -- a step that leaves the attempt without a call to begin finds it with one in flight
  have hbefore : ∀ {pc : Advance R}, w.engine.attempts me = some ⟨id, pc⟩ →
      pc'.poised = false → w.Working me id pc ∧ (w.lines me).calls = true := by
    intro pc hk hp
    rcases hw with h | hcalls
    · rw [hp] at h
      cases h
    · exact ⟨⟨hk, .inr hcalls⟩, hcalls⟩
  have herrored : ∀ {u : LeaseToken} {j : JobAttempt R} {j' : Option (JobAttempt R)} {fate : Fate}
      {now : ℕ} {t : Engine R}, w.engine.attempts u = some j → Ended cfg u j fate now a j' →
      (t.setAttempt u j').attempts me = some ⟨id, pc'⟩ →
      (w.Working me id j.pc → ∃ r, t.db.runs id = some r ∧
        Covered window w.clock me j.pc (w.lines me) r) →
      (∃ r, t.db.runs id = some r ∧
        Covered window w.clock me pc' { w.lines me with unheard := true } r) ∧
      ((∃ pc, w.Working me id pc) ∨
        ∃ r, t.db.runs id = some r ∧ r.leasedBy me = true ∧ r.cancelRequested = false) := by
    intro u j j' fate now t hk he hk' hcov
    cases he with
    | vanish => cases hr
    | fails hawait =>
        obtain rfl := Option.some.inj ha
        cases hset rfl hk'
        have hover := Advance.errored_over hawait
        obtain ⟨hwork, -⟩ := hbefore hk (Advance.poised_of_over hover)
        obtain ⟨r, hrow, hc⟩ := hcov hwork
        exact ⟨⟨r, hrow, hc.lost (hs.fits _ _ hk) hu hover hawait⟩, .inl ⟨_, hwork⟩⟩
  cases ht with
  | begin => cases hr
  | @here a u run pc _ hk hl =>
      cases hl with
      | input => cases hr
      | readStatus =>
          obtain rfl := Option.some.inj ha
          cases hset rfl hj
          obtain ⟨-, hcalls⟩ := hbefore hk rfl
          cases hs.mayCall hk hu hcalls
      | @readSeq at' wr =>
          obtain rfl := Option.some.inj ha
          cases hset rfl hj
          obtain ⟨hwork, -⟩ := hbefore hk rfl
          obtain ⟨r, hrow, hc⟩ := hs.covered _ _ _ hwork
          refine ⟨⟨r, hrow, hc.moved ?_ rfl⟩, .inl ⟨_, hwork⟩⟩
          intro x htimely
          cases htimely with
          | unheard hu' => rw [hu] at hu'; cases hu'
      | @rejects _ _ code hrej =>
          obtain rfl := Option.some.inj ha
          cases hset rfl hj
          have hp : pc'.poised = false := Advance.rejected_poised hrej
          obtain ⟨hwork, hcalls⟩ := hbefore hk hp
          obtain ⟨r, hrow, hc⟩ := hs.covered _ _ _ hwork
          refine ⟨⟨r, hrow, hc.moved ?_ hp⟩, .inl ⟨_, hwork⟩⟩
          intro x htimely
          cases htimely with
          | unheard hu' => rw [hu] at hu'; cases hu'
          | _ => cases hrej
  | @commit u run pc _ tx now db ret hk htx hdb hans =>
      obtain rfl := Option.some.inj ha
      cases hset rfl hj
      have hf := hs.fits _ _ hk
      have hnow : stampable (w.lines u).sent now w.clock = true := by
        simp only [Wire.allows, Bool.and_eq_true] at hallow
        exact hallow.2
      rcases (Db.exec_at hdb).2 with ⟨rfl, rfl, hnone⟩ | ⟨r, r', rfl, hrow, hup, hrow', -⟩
      · have hp : pc'.poised = false := by
          by_contra hp
          obtain ⟨row, hret, -⟩ := Advance.answers_poised hans (by simpa using hp)
          cases hret
        obtain ⟨hwork, hcalls⟩ := hbefore hk hp
        obtain ⟨r, hrow, hc⟩ := hs.covered _ _ _ hwork
        have hclaim : tx.isClaim = false := by
          cases hc : tx.isClaim with
          | false => rfl
          | true =>
              have hm := hs.mayCall hk hu hcalls
              rw [Advance.claiming_of_isClaim htx hc] at hm
              cases hm
        rw [hrow, Option.bind_some] at hnone
        exact ⟨⟨r, hrow, .inr ⟨hc.unanswered htx hclaim hnone, hp⟩⟩, .inl ⟨_, hwork⟩⟩
      · refine ⟨⟨r', hrow', Covered.answered hf hu hnow htx hup hans hw⟩, ?_⟩
        cases hp : pc'.poised with
        | false => exact .inl ⟨pc, (hbefore hk hp).1⟩
        | true =>
            obtain ⟨row, hret, hflag⟩ := Advance.answers_poised hans hp
            cases hret
            exact .inr ⟨_, hrow', (Advance.poised_leased htx hup hans hp).1, hflag⟩
  | @lost a u j j' now hk he =>
      exact herrored (t := w.engine) hk he hj fun hwork => hs.covered _ _ _ hwork
  | @left a u j j' tx now hk he htx hl =>
      exact herrored (t := { w.engine with late := _ }) hk he hj fun hwork => hs.covered _ _ _ hwork
  | @applied a u j j' tx now db ret hk he htx hdb =>
      cases he with
      | vanish => cases hr
      | fails hawait =>
          obtain rfl := Option.some.inj ha
          cases hset rfl hj
          have hover := Advance.errored_over hawait
          obtain ⟨hwork, hcalls⟩ := hbefore hk (Advance.poised_of_over hover)
          obtain ⟨r, hrow, hc⟩ := hs.covered _ _ _ hwork
          have hf := hs.fits _ _ hk
          refine ⟨?_, .inl ⟨_, hwork⟩⟩
          rcases (Db.exec_at hdb).2 with ⟨-, rfl, -⟩ | ⟨r₀, r', -, hrow₀, hup, hrow', -⟩
          · exact ⟨r, hrow, hc.lost hf hu hover hawait⟩
          · rw [hrow] at hrow₀
            cases hrow₀
            have hnow : stampable (w.lines u).sent now w.clock = true := by
              simp only [Wire.allows, Bool.and_eq_true] at hallow
              exact hallow.2
            exact ⟨r', hrow', hc.applied hf hu hcalls hover hnow htx hup⟩
  | _ => cases ha

/-- The attempt that acts, where it knows the outcome at once. -/
theorem Wire.Sole.near (hs : w.Sole cfg window) (ht : Took cfg w.engine a s es)
    (hallow : w.allows a = true) (ha : a.actor = some me) (hr : a.remote = false)
    (hj : s.attempts me = some ⟨id, pc'⟩)
    (hw : pc'.poised = true ∨ pc'.callsAfter (w.lines me).calls = true) :
    (∃ pc, w.Working me id pc) ∧ ∃ r, s.db.runs id = some r ∧
      Covered window w.clock me pc' ((w.lines me).enter window w.clock pc') r := by
  have hset : ∀ {u : LeaseToken} {k : Option (JobAttempt R)} {t : Engine R}, u = me →
      (t.setAttempt u k).attempts me = some ⟨id, pc'⟩ → k = some ⟨id, pc'⟩ := by
    rintro u k t rfl hk
    rwa [Engine.setAttempt_self] at hk
  have hgone : ∀ {u : LeaseToken} {j : JobAttempt R} {j' : Option (JobAttempt R)} {fate : Fate}
      {now : ℕ} {t : Engine R}, Ended cfg u j fate now a j' →
      (t.setAttempt u j').attempts me = some ⟨id, pc'⟩ → False := by
    intro u j j' fate now t he hk
    cases he with
    | fails => cases hr
    | vanish => cases hset (Option.some.inj ha) hk
  cases ht with
  | begin =>
      cases hset (Option.some.inj ha) hj
      rcases hw with h | h <;> cases h
  | @here a u run pc _ hk hl =>
      cases hl with
      | @input _ _ i hi =>
          obtain rfl := Option.some.inj ha
          cases hset rfl hj
          have hu := Wire.allows_input hallow
          have hon := inputs_worksOn hi hw
          have hwork : w.Working u id pc := by
            refine ⟨hk, .inl ?_⟩
            cases hon <;> rfl
          obtain ⟨r, hrow, hc⟩ := hs.covered _ _ _ hwork
          exact ⟨⟨pc, hwork⟩, r, hrow, hc.input (hs.fits _ _ hk) hu hon hw⟩
      | _ => cases hr
  | commit => cases hr
  | lost hk he => exact (hgone (t := w.engine) he hj).elim
  | applied hk he => exact (hgone (t := w.engine.setDb _) he hj).elim
  | left hk he => exact (hgone (t := { w.engine with late := _ }) he hj).elim
  | _ => cases ha

theorem Wire.Sole.late_step (hs : w.Sole cfg window) (ht : Took cfg w.engine a s es) :
    ∀ l ∈ s.late, ∀ t, l.tx.takeover = some t → t = cfg.leaseTakeover := by
  intro l hl t htake
  rcases ht.late_mem hl with hold | ⟨u, j, -, -, htx, -⟩
  · exact hs.late l hold t htake
  · exact Advance.takeover_of_tx htx htake

theorem Line.Fits.wait {clock elapsed : ℕ} {line : Line} (hf : line.Fits window clock pc)
    (h : line.onTime pc clock elapsed = true) : line.Fits window (clock + elapsed) pc where
  past := Nat.le_add_right_of_le hf.past
  within l hl := by
    simp only [onTime, hl, Option.all_some, Bool.and_eq_true, decide_eq_true_eq] at h
    exact h.1
  limit := hf.limit
  beat := hf.beat
  calls := hf.calls

theorem Covered.wait {clock elapsed : ℕ} {line : Line} {r : RunRow Json}
    (hc : Covered window clock v pc line r) (h : line.onTime pc clock elapsed = true) :
    Covered window (clock + elapsed) v pc line r := by
  simp only [Line.onTime, Bool.and_eq_true] at h
  rcases hc with ⟨hl, ht⟩ | hb
  · refine .inl ⟨hl, ?_⟩
    cases ht with
    | unheard hu hpc hlimit hlate hp hdue => exact .unheard hu hpc hlimit hlate hp hdue
    | top hu hle =>
        have hzero : elapsed = 0 := by simpa [hu] using h.2
        exact .top hu (by omega)
    | guarded hu hle hd =>
        have htick : elapsed = 0 ∨ clock + elapsed ≤ line.due := by simpa [hu] using h.2
        exact .guarded hu (by omega) hd
    | beating hu hs => exact .beating hu hs
    | abandoning hu hs => exact .abandoning hu hs
  · exact .inr hb

/-- What a step has to show: the others keep what they work under, and the attempt
that acts worked before or holds the lease under no cancel. -/
theorem Wire.Sole.of_actor (actor : Option LeaseToken) (hs : w.Sole cfg window)
    (hbasic : w'.engine.Basic) (hcalling : w'.Calling)
    (hlate : ∀ l ∈ w'.engine.late, ∀ t, l.tx.takeover = some t → t = cfg.leaseTakeover)
    (hclock : w'.clock = w.clock)
    (hothers : ∀ v, actor ≠ some v → w'.engine.attempts v = w.engine.attempts v ∧
      w'.lines v = w.lines v)
    (hframe : ∀ v id pc, actor ≠ some v → w.Working v id pc →
      ∃ r, w'.engine.db.runs id = some r ∧ Covered window w.clock v pc (w.lines v) r)
    (hfits : ∀ me j, actor = some me → w'.engine.attempts me = some j →
      (w'.lines me).Fits window w.clock j.pc)
    (hself : ∀ me id pc, actor = some me → w'.Working me id pc →
      (∃ r, w'.engine.db.runs id = some r ∧ Covered window w.clock me pc (w'.lines me) r) ∧
      ((∃ pc', w.Working me id pc') ∨
        ∃ r, w'.engine.db.runs id = some r ∧ r.leasedBy me = true ∧ r.cancelRequested = false)) :
    w'.Sole cfg window := by
  have hback : ∀ v id pc, actor ≠ some v → w'.Working v id pc → w.Working v id pc := by
    intro v id pc hv hw
    unfold Working at hw ⊢
    rw [← (hothers v hv).1, ← (hothers v hv).2]
    exact hw
  -- an attempt that starts to work finds no other at work
  have hfresh : ∀ me v id pc pc', actor = some me → actor ≠ some v → w'.Working me id pc →
      w'.Working v id pc' → me = v := by
    intro me v id pc pc' hme hv hwm hwv
    have hwv' := hback v id pc' hv hwv
    rcases (hself me id pc hme hwm).2 with ⟨pc₀, hold⟩ | ⟨r, hr, hl, hflag⟩
    · exact hs.sole me v id pc₀ pc' hold hwv'
    · obtain ⟨r', hr', hc⟩ := hframe v id pc' hv hwv'
      rw [hr] at hr'
      cases hr'
      exact hc.alone hl hflag
  refine ⟨hbasic, hcalling, hlate, ?_, ?_, ?_⟩
  · intro v j hj
    rw [hclock]
    by_cases hv : actor = some v
    · exact hfits v j hv hj
    · rw [(hothers v hv).1] at hj
      rw [(hothers v hv).2]
      exact hs.fits v j hj
  · intro v id pc hw
    rw [hclock]
    by_cases hv : actor = some v
    · exact (hself v id pc hv hw).1
    · rw [(hothers v hv).2]
      exact hframe v id pc hv (hback v id pc hv hw)
  · intro me v id pc pc' hwm hwv
    by_cases hm : actor = some me
    · by_cases hv : actor = some v
      · exact Option.some.inj (hm.symm.trans hv)
      · exact hfresh me v id pc pc' hm hv hwm hwv
    · by_cases hv : actor = some v
      · exact (hfresh v me id pc' pc hv hm hwv hwm).symm
      · exact hs.sole me v id pc pc' (hback me id pc hm hwm) (hback v id pc' hv hwv)

theorem Line.Fits.unhear {clock : ℕ} {line : Line} (hf : line.Fits window clock pc)
    (pc' : Advance R) : Line.Fits window clock pc' { line with unheard := true } where
  past := hf.past
  within := hf.within
  limit h := by cases h
  beat h := by cases h
  calls h := by cases h

theorem Took.attempts_actor (ht : Took cfg w.engine a s es) (ha : a.actor = some me)
    (hr : a.remote = true) : ∃ j, w.engine.attempts me = some j := by
  have hactor : ∀ {u : LeaseToken} {j : JobAttempt R} {j' : Option (JobAttempt R)} {fate : Fate}
      {now : ℕ}, w.engine.attempts u = some j → Ended cfg u j fate now a j' →
      ∃ j, w.engine.attempts me = some j := by
    intro u j j' fate now hj he
    cases he with
    | fails => cases ha; exact ⟨j, hj⟩
    | vanish => cases ha; exact ⟨j, hj⟩
  cases ht with
  | begin => cases hr
  | here hj hl => cases hl <;> (cases ha; exact ⟨_, hj⟩)
  | commit hj => cases ha; exact ⟨_, hj⟩
  | lost hj he => exact hactor hj he
  | applied hj he => exact hactor hj he
  | left hj he => exact hactor hj he
  | _ => cases ha

theorem WireTook.sole {b : WireAction R} {fs : List WireEvent}
    (h : WireTook cfg window w b w' fs) (hs : w.Sole cfg window)
    (hwindow : 2 * writeBound + window / 3 ≤ 1000 * cfg.leaseTakeover)
    (hpunctual : w.punctual b = true) (hdrops : w.dropsFirst cfg b = true) :
    w'.Sole cfg window := by
  have hcalling := h.calling hs.calling
  cases h with
  | wait elapsed =>
      have htime : ∀ v j, w.engine.attempts v = some j →
          (w.lines v).onTime j.pc w.clock elapsed = true := by
        intro v j hj
        have hall := List.all_eq_true.mp hpunctual v (hs.basic.attempts v j hj)
        rw [hj] at hall
        exact hall
      refine ⟨hs.basic, hcalling, hs.late, ?_, ?_, hs.sole⟩
      · intro v j hj
        exact (hs.fits v j hj).wait (htime v j hj)
      · intro v id pc hw
        obtain ⟨r, hr, hc⟩ := hs.covered v id pc hw
        exact ⟨r, hr, hc.wait (htime v _ hw.1)⟩
  | @quiet a s es hallow hstep ha =>
      have ht := step_took hstep
      refine Wire.Sole.of_actor none hs (hs.basic.step ht) hcalling (hs.late_step ht) rfl ?_ ?_ ?_ ?_
      · intro v _
        exact ⟨ht.attempts_other (by simp [ha]), rfl⟩
      · intro v id pc _ hw
        exact hs.frame hwindow ht hallow hdrops (by simp [ha]) hw
      · rintro me j ⟨⟩
      · rintro me id pc ⟨⟩
  | @remote a me s es hallow hstep ha hr =>
      have ht := step_took hstep
      refine Wire.Sole.of_actor (some me) hs (hs.basic.step ht) hcalling (hs.late_step ht) rfl
        ?_ ?_ ?_ ?_
      · intro v hv
        refine ⟨ht.attempts_other (by rw [ha]; exact hv), Wire.setLine_other _ _ ?_⟩
        exact fun he => hv (congrArg some he.symm)
      · intro v id pc hv hw
        exact hs.frame hwindow ht hallow hdrops (by rw [ha]; exact hv) hw
      · rintro v j ⟨⟩ hj
        rw [Wire.setLine_self]
        obtain ⟨j₀, hj₀⟩ := ht.attempts_actor ha hr
        exact (hs.fits _ j₀ hj₀).unhear j.pc
      · rintro v id pc ⟨⟩ ⟨hj, hw⟩
        rw [Wire.setLine_self] at hw ⊢
        exact hs.remote ht hallow ha hr hj hw
  | @near a me s es hallow hstep ha hr =>
      have ht := step_took hstep
      refine Wire.Sole.of_actor (some me) hs ?_ hcalling ?_ (Wire.arrive_clock ..) ?_ ?_ ?_ ?_
      · rw [Wire.arrive_engine]
        exact hs.basic.step ht
      · rw [Wire.arrive_engine]
        exact hs.late_step ht
      · intro v hv
        rw [Wire.arrive_engine]
        refine ⟨ht.attempts_other (by rw [ha]; exact hv), Wire.arrive_other _ _ ?_⟩
        exact fun he => hv (congrArg some he.symm)
      · intro v id pc hv hw
        rw [Wire.arrive_engine]
        exact hs.frame hwindow ht hallow hdrops (by rw [ha]; exact hv) hw
      · rintro v j ⟨⟩ hj
        rw [Wire.arrive_engine] at hj
        rw [(Wire.arrive_some window hj).1]
        exact Line.fits_new ..
      · rintro v id pc ⟨⟩ ⟨hj, hw⟩
        rw [Wire.arrive_engine] at hj ⊢
        rw [(Wire.arrive_some window hj).1] at hw ⊢
        obtain ⟨hbefore, hc⟩ := hs.near ht hallow ha hr hj hw
        exact ⟨hc, .inl hbefore⟩
  | @hear me hu =>
      refine Wire.Sole.of_actor (some me) hs ?_ hcalling ?_ (Wire.arrive_clock ..) ?_ ?_ ?_ ?_
      · rw [Wire.arrive_engine]
        exact hs.basic
      · rw [Wire.arrive_engine]
        exact hs.late
      · intro v hv
        rw [Wire.arrive_engine]
        exact ⟨rfl, Wire.arrive_other _ _ fun he => hv (congrArg some he.symm)⟩
      · intro v id pc hv hw
        rw [Wire.arrive_engine]
        exact hs.covered v id pc hw
      · rintro v j ⟨⟩ hj
        rw [Wire.arrive_engine] at hj
        rw [(Wire.arrive_some window hj).1]
        exact Line.fits_new ..
      · rintro v id pc ⟨⟩ ⟨hj, hw⟩
        rw [Wire.arrive_engine] at hj ⊢
        rw [(Wire.arrive_some window hj).1] at hw ⊢
        have hwork : w.Working me id pc := by
          refine ⟨hj, ?_⟩
          rcases hw with hp | hc
          · exact .inl hp
          · cases hcalls : (w.lines me).calls with
            | true => exact .inr rfl
            | false =>
                change pc.callsAfter (w.lines me).calls = true at hc
                rw [hcalls] at hc
                cases hg : pc.guards with
                | false => rw [Advance.callsAfter_idle hg] at hc; cases hc
                | true =>
                    rcases Advance.guards_cases hg with ⟨a, g, rfl⟩ | ⟨a, g, rfl⟩
                    · exact .inl rfl
                    · exact .inr (hcalls ▸ (hs.calling me _ hj).1 a g rfl)
        obtain ⟨r, hr, hc⟩ := hs.covered me id pc hwork
        exact ⟨⟨r, hr, hc.heard (hs.fits me _ hj) hu hw⟩, .inl ⟨pc, hwork⟩⟩

/-- With a window of three write bounds, and as long as no lease is given back under
its call, two attempts never have a call in flight for one run. -/
theorem single_advancer {cfg₀ : Config} {log : List WireEvent}
    (hset : leaseTakeover window cfg₀ = some cfg)
    (hwindow : 2 * writeBound + window / 3 ≤ 1000 * takeoverMicros window)
    (h : WireRun cfg window (fun w b => w.punctual b = true ∧ w.dropsFirst cfg b = true) log w) :
    ∀ me v j k, w.engine.attempts me = some j → w.engine.attempts v = some k → j.run = k.run →
      (w.lines me).calls = true → (w.lines v).calls = true → me = v := by
  have htake : cfg.leaseTakeover = takeoverMicros window := by
    unfold leaseTakeover at hset
    split_ifs at hset
    cases hset
    rfl
  have hs : w.Sole cfg window := by
    refine h.safe (I := Wire.Sole cfg window) ?_ ?_
    · constructor
      · exact Engine.Basic.init
      · rintro me j ⟨⟩
      · rintro l ⟨⟩
      · rintro me j ⟨⟩
      · rintro me id pc ⟨⟨⟩, -⟩
      · rintro me v id pc pc' ⟨⟨⟩, -⟩
    · rintro w b w' fs hs ⟨hpunctual, hdrops⟩ hstep
      exact (wire_took hstep).sole hs (by rw [htake]; exact hwindow) hpunctual hdrops
  rintro me v ⟨id, pc⟩ ⟨id', pc'⟩ hj hk ⟨⟩ hcm hcv
  exact hs.sole me v id pc pc' ⟨hj, .inr hcm⟩ ⟨hk, .inr hcv⟩

end

/-! ## The shortest window that is long enough, and what goes wrong -/

def window15s : ℕ := 15000000000
def window3s : ℕ := 3000000000
def window90s : ℕ := 90000000000

/-- The attempt claims and calls the model at once; a second one begins while the
heartbeat after a period is on its way. -/
def beatingRun (window : ℕ) : List (WireAction Rig.scripted) :=
  [.act (.start 1 "greeter" "greet me" 0), .act (.begin 7 1), .act (.commit 7 0), .hear 7,
    .act (.input 7 .proceed), .act (.readSeq 7), .hear 7, .act (.commit 7 0), .hear 7,
    .wait (window / 3), .act (.input 7 .tick), .act (.begin 8 1)]

/-- The heartbeat takes its whole bound, and the second attempt claims in vain. -/
theorem single_advancer_beating : ∃ (cfg : Config) (log : List WireEvent) (w : Wire Rig.scripted),
    leaseTakeover window15s scriptedConfig = some cfg ∧
      WireRun cfg window15s (fun w b => w.punctual b = true ∧ w.dropsFirst cfg b = true) log w ∧
      (w.lines 7).calls = true ∧ (w.engine.attempts 8).isSome = true ∧
      ∀ v k, w.engine.attempts v = some k → k.run = 1 → (w.lines v).calls = true → v = 7 := by
  obtain ⟨log, w, hrun, hdone⟩ := StepRun.exists_run
    (Wire.step { scriptedConfig with leaseTakeover := takeoverMicros window15s } window15s)
    (fun w b => w.punctual b &&
      w.dropsFirst { scriptedConfig with leaseTakeover := takeoverMicros window15s } b) Wire.init
    (beatingRun window15s ++ [.wait writeBound, .act (.commit 8 10000000)])
    (fun _ w => ((w.engine.attempts 7).any fun j : JobAttempt Rig.scripted => j.run == 1) &&
      (w.lines 7).calls && (w.engine.attempts 8).isSome) (by decide)
  have hcond := hrun.mono fun w b hc => Bool.and_eq_true_iff.mp hc
  have hset : leaseTakeover window15s scriptedConfig =
      some { scriptedConfig with leaseTakeover := takeoverMicros window15s } := if_pos (by decide)
  simp only [Bool.and_eq_true, Option.any_eq_true, beq_iff_eq] at hdone
  obtain ⟨⟨⟨j, hj, hid⟩, hcalls⟩, hsecond⟩ := hdone
  have h := single_advancer hset (by decide) hcond
  exact ⟨_, log, w, hset, hcond, hcalls, hsecond,
    fun v k hk hrun hv => h v 7 k j hk hj (hrun.trans hid.symm) hv hcalls⟩

/-- Two calls in flight for one run, at the end of a run of punctual steps. -/
def Overlap (cfg : Config) (window : ℕ) (C : Wire Rig.scripted → WireAction Rig.scripted → Bool) :
    Prop :=
  ∃ (log : List WireEvent) (w : Wire Rig.scripted) (j k : JobAttempt Rig.scripted),
    WireRun cfg window (fun w b => w.punctual b = true ∧ C w b = true) log w ∧
      w.engine.attempts 7 = some j ∧ w.engine.attempts 8 = some k ∧ j.run = k.run ∧
      (w.lines 7).calls = true ∧ (w.lines 8).calls = true

theorem overlap_of_execute {cfg : Config} {window : ℕ}
    {C : Wire Rig.scripted → WireAction Rig.scripted → Bool} (as : List (WireAction Rig.scripted))
    (h : ((StepRun.execute (Wire.step cfg window) (fun w b => w.punctual b && C w b) as
      Wire.init).any fun r =>
        ((r.1.engine.attempts 7).any fun j : JobAttempt Rig.scripted => j.run == 1) &&
        ((r.1.engine.attempts 8).any fun j : JobAttempt Rig.scripted => j.run == 1) &&
        (r.1.lines 7).calls && (r.1.lines 8).calls) = true) : Overlap cfg window C := by
  simp only [Bool.and_eq_true, Option.any_eq_true, beq_iff_eq] at h
  obtain ⟨⟨w, log⟩, hexec, ⟨⟨⟨j, hj, hid⟩, k, hk, hid'⟩, hcj⟩, hck⟩ := h
  exact ⟨log, w, j, k, (StepRun.run_of_execute hexec).mono fun w b hc => Bool.and_eq_true_iff.mp hc,
    hj, hk, hid.trans hid'.symm, hcj, hck⟩

/-- Under a window of three seconds the lease is stale before the heartbeat fails.
Under any window, the guards give the lease back at shutdown with the call still
in flight. -/
theorem not_single_advancer :
    (∃ cfg, leaseTakeover window3s scriptedConfig = some cfg ∧
      Overlap cfg window3s (Wire.dropsFirst cfg)) ∧
    ∃ cfg, leaseTakeover window90s scriptedConfig = some cfg ∧
      Overlap cfg window90s fun _ _ => true := by
  refine ⟨⟨{ scriptedConfig with leaseTakeover := takeoverMicros window3s }, if_pos (by decide), ?_⟩,
    { scriptedConfig with leaseTakeover := takeoverMicros window90s }, if_pos (by decide), ?_⟩
  · exact overlap_of_execute (beatingRun window3s ++ [.wait 3000000000, .act (.commit 8 4000000),
      .hear 8, .act (.input 8 .proceed), .act (.readSeq 8), .hear 8, .act (.commit 8 4000000),
      .hear 8]) (by decide)
  · exact overlap_of_execute ((beatingRun window90s).take 9 ++ [.act (.input 7 .shutdown),
      .act (.commit 7 0), .act (.begin 8 1), .act (.commit 8 0), .hear 8,
      .act (.input 8 .proceed), .act (.readSeq 8), .hear 8, .act (.commit 8 0), .hear 8])
      (by decide)

end Cja.Durable
