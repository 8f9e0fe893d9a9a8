import Cja.Durable.Transcript

/-!
# A cancel that returned `Ok`

`cancel_run` ends a run that nobody advances and flags one that is live. Nothing
takes the flag back, and every statement but a terminal write leaves a flagged
run running or cancelled; `finish` and `fail_unstorable` do not read the flag. Its
owner reads it with the answers to its claim, its persists and its heartbeats, and
turns to the cancellation wherever it finds it set.
-/
namespace Cja.Durable

open Jobs (Uuid)

/-- The errors of `cancel` besides those of the database. -/
inductive CancelError
  | notFound
  | invalidTransition (status : RunStatus)
deriving Repr, DecidableEq

/-- What `cancel` returns for the row it locked. -/
def cancelResult (cfg : Config) (now : ℕ) : Option (RunRow Json) → Except CancelError Unit
  | none => .error .notFound
  | some r =>
      match r.cancelAction cfg.leaseTakeover now with
      | .terminal => .error (.invalidTransition r.status)
      | _ => .ok ()

/-- The run is cancelled, or it is running with the flag set. -/
def RunRow.Cancelling {J : Type} (r : RunRow J) : Prop :=
  r.status = .cancelled ∨ (r.status = .running ∧ r.cancelRequested = true)

/-- A terminal write that records no cancellation. -/
def Tx.ends {J : Type} : Tx J → Bool
  | failUnstorable _ _ => true
  | finish _ ending _ _ => ending != .cancelled
  | _ => false

section

variable {J : Type} {tx : Tx J} {now : ℕ} {r r' : RunRow J}

/-- Only `cancel_run` sets the flag, on a running row, and nothing resets it. -/
theorem Tx.update_flag (h : tx.update now r = some r') :
    r'.cancelRequested = r.cancelRequested ∨
      ((∃ takeover, tx = .cancelRun takeover) ∧ r'.cancelRequested = true ∧ r'.status = .running) := by
  cases tx with
  | failUnstorable me code =>
      simp only [update, RunRow.failUnstorable] at h
      split_ifs at h
      cases h
      exact .inl rfl
  | tryClaim me takeover =>
      simp only [update, RunRow.tryClaim] at h
      split_ifs at h
      cases h
      exact .inl rfl
  | releaseLease me =>
      simp only [update, RunRow.releaseLease] at h
      split_ifs at h
      cases h
      exact .inl rfl
  | heartbeat me =>
      simp only [update, RunRow.heartbeat] at h
      split_ifs at h
      cases h
      exact .inl rfl
  | persistStep me snap rows =>
      simp only [update, RunRow.persistStep] at h
      split_ifs at h
      cases h
      exact .inl rfl
  | setWaiting me state callId question rows =>
      simp only [update, RunRow.setWaiting] at h
      split at h
      · cases h
        exact .inl rfl
      · cases h
  | finish me ending snap rows =>
      simp only [update, RunRow.finish] at h
      split_ifs at h
      cases h
      exact .inl rfl
  | answerWaiting state rows =>
      simp only [update, RunRow.answerWaiting] at h
      split_ifs at h
      cases h
      exact .inl rfl
  | cancelRun takeover =>
      cases h
      have hspec := r.cancelAction_spec takeover now
      rw [RunRow.cancelRun_eq]
      cases ha : r.cancelAction takeover now with
      | request =>
          rw [ha] at hspec
          exact .inr ⟨⟨takeover, rfl⟩, rfl, hspec⟩
      | cancelNow => exact .inl rfl
      | noop => exact .inl rfl
      | terminal => exact .inl rfl

theorem RunRow.cancelRun_cancelling {takeover : ℕ} (h : r.Cancelling) :
    (r.cancelRun takeover now).Cancelling := by
  have hspec := r.cancelAction_spec takeover now
  rw [cancelRun_eq]
  cases ha : r.cancelAction takeover now with
  | cancelNow => exact .inl rfl
  | request =>
      rw [ha] at hspec
      exact .inr ⟨hspec, rfl⟩
  | noop => exact h
  | terminal => exact h

/-- The other statements leave a cancelling run cancelling. -/
theorem Tx.update_cancelling (h : r.Cancelling) (hends : ∀ me, tx.token = some me →
    r.leasedBy me = true → tx.ends = true → r.cancelRequested = false)
    (hu : tx.update now r = some r') : r'.Cancelling := by
  rcases h with hc | ⟨hrun, hflag⟩
  · rw [update_terminal (by rw [hc]; rfl) hu]
    exact .inl hc
  · have hquiet : ∀ me, tx.token = some me → tx.isClaim = false → tx.ends = false := by
      intro me ht hclaim
      cases he : tx.ends with
      | false => rfl
      | true =>
          have := hends me ht (leased_of_update ht hclaim hu) he
          rw [hflag] at this
          cases this
    cases tx with
    | failUnstorable me code => cases hquiet me rfl rfl
    | finish me ending snap rows =>
        have hending := hquiet me rfl rfl
        simp only [ends, bne_eq_false_iff_eq] at hending
        subst hending
        simp only [update, RunRow.finish] at hu
        split_ifs at hu
        cases hu
        exact .inl rfl
    | tryClaim me takeover =>
        simp only [update, RunRow.tryClaim] at hu
        split_ifs at hu
        cases hu
        exact .inr ⟨rfl, hflag⟩
    | setWaiting me state callId question rows =>
        simp only [update, RunRow.setWaiting, hflag, if_true] at hu
        split at hu
        · cases hu
          exact .inl rfl
        · cases hu
    | answerWaiting state rows =>
        simp only [update, RunRow.answerWaiting, hrun] at hu
        cases hu
    | releaseLease me =>
        simp only [update, RunRow.releaseLease] at hu
        split_ifs at hu
        cases hu
        exact .inr ⟨hrun, hflag⟩
    | heartbeat me =>
        simp only [update, RunRow.heartbeat] at hu
        split_ifs at hu
        cases hu
        exact .inr ⟨hrun, hflag⟩
    | persistStep me snap rows =>
        simp only [update, RunRow.persistStep] at hu
        split_ifs at hu
        cases hu
        exact .inr ⟨hrun, hflag⟩
    | cancelRun takeover =>
        cases hu
        exact RunRow.cancelRun_cancelling (.inr ⟨hrun, hflag⟩)

end

/-- A cancel that returns `Ok` leaves the run cancelling. -/
theorem cancelResult_ok {cfg : Config} {now : ℕ} {r : RunRow Json}
    (h : cancelResult cfg now (some r) = .ok ()) :
    (r.cancelRun cfg.leaseTakeover now).Cancelling := by
  have hspec := r.cancelAction_spec cfg.leaseTakeover now
  rw [RunRow.cancelRun_eq]
  cases ha : r.cancelAction cfg.leaseTakeover now with
  | cancelNow => exact .inl rfl
  | request =>
      rw [ha] at hspec
      exact .inr ⟨hspec, rfl⟩
  | noop =>
      rw [ha] at hspec
      exact .inl hspec
  | terminal => simp [cancelResult, ha] at h

variable {R : Rig}

/-! ## Requests that an attempt has missed -/

/-- The answer to the transaction in flight carries `cancel_requested`. -/
def Advance.readsFlag : Advance R → Bool
  | claiming | driving _ (.writing (.persist _ _ _) _) | driving _ (.beating _) => true
  | _ => false

def Write.cancels : Write R → Bool
  | finish _ ending _ => ending == .cancelled
  | _ => false

/-- The attempt is about to write that the run is cancelled. -/
def Advance.cancels : Advance R → Bool
  | closing ending _ => ending == .cancelled
  | driving _ (.projecting w) | driving _ (.writing w _) => w.cancels
  | _ => false

/-- The engine under observation: `missed` holds of an attempt if a cancel was
requested under its lease since it last read the flag. -/
structure Watch (R : Rig) where
  engine : Engine R
  missed : LeaseToken → Bool

namespace Watch

def init : Watch R := ⟨.init, fun _ => false⟩

/-- The cancel sets the flag of a run that `me` holds. -/
def requests (cfg : Config) (w : Watch R) (id : Uuid) (now : ℕ) (me : LeaseToken) : Bool :=
  (w.engine.db.runs id).any fun r =>
    r.lockedBy == some me && r.cancelAction cfg.leaseTakeover now == .request

def missedAfter (cfg : Config) (w : Watch R) : Action R → LeaseToken → Bool
  | .commit me _ =>
      if (w.engine.attempts me).any fun j => j.pc.readsFlag then Function.update w.missed me false
      else w.missed
  | .cancel id now => fun me => w.requests cfg id now me || w.missed me
  | _ => w.missed

def step (cfg : Config) (w : Watch R) (a : Action R) : Option (Watch R × List Event) :=
  (Engine.step cfg w.engine a).map fun r => (⟨r.1, w.missedAfter cfg a⟩, r.2)

/-- No lease holder that has missed a request commits another ending, and the
database stores the cancellations. -/
def heeds (cfg : Config) (w : Watch R) (a : Action R) : Bool :=
  (match w.engine.applies cfg a with
    | some (id, tx) => !tx.ends || (w.engine.db.runs id).all fun r =>
        !tx.token.any fun me => r.leasedBy me && w.missed me
    | none => true) &&
  match a with
  | .rejects me _ => (w.engine.attempts me).all fun j => (w.engine.db.runs j.run).all fun r =>
      !r.leasedBy me || !j.pc.cancels
  | _ => true

end Watch

abbrev WatchRun (cfg : Config) (C : Watch R → Action R → Prop) : List Event → Watch R → Prop :=
  StepRun.Run (Watch.step cfg) C Watch.init

section

variable {cfg : Config} {s s' : Engine R} {w w' w₁ : Watch R} {a : Action R}
variable {es log : List Event} {id : Uuid} {me : LeaseToken}

/-- Watching changes nothing: every run of the engine can be watched. -/
theorem Watch.of_engineRun (h : EngineRun cfg StepRun.Free log s) :
    ∃ missed, WatchRun cfg StepRun.Free log ⟨s, missed⟩ := by
  induction h with
  | start => exact ⟨_, .start⟩
  | @snoc log es s s' a _ _ hs ih =>
      obtain ⟨missed, hrun⟩ := ih
      exact ⟨_, .snoc hrun trivial (by rw [Watch.step, hs]; rfl)⟩

theorem Watch.step_spec (h : Watch.step cfg w a = some (w', es)) :
    Took cfg w.engine a w'.engine es ∧ w'.missed = w.missedAfter cfg a := by
  simp only [Watch.step, Option.map_eq_some_iff, Prod.mk.injEq] at h
  obtain ⟨⟨s', es'⟩, hs, rfl, rfl⟩ := h
  exact ⟨step_took hs, rfl⟩

/-- Only an attempt that reads the flag catches up with it. -/
theorem Watch.missed_keep (hreads : a.actor = some me →
    ∀ j, w.engine.attempts me = some j → j.pc.readsFlag = false)
    (h : w.missed me = true) : w.missedAfter cfg a me = true := by
  cases a with
  | commit v now =>
      simp only [missedAfter]
      split_ifs with hv
      · by_cases hme : me = v
        · subst hme
          obtain ⟨j, hj, hread⟩ := (Option.any_eq_true _ _).mp hv
          rw [hreads rfl j hj] at hread
          cases hread
        · rw [Function.update_of_ne hme]
          exact h
      · exact h
  | cancel id now => simp [missedAfter, h]
  | _ => exact h

/-- A cancel that leaves the lease in place makes a request that its holder misses. -/
theorem Watch.missed_of_cancel {now : ℕ} {r : RunRow Json} (hr : w.engine.db.runs id = some r)
    (hl : r.leasedBy me = true) (hl' : (r.cancelRun cfg.leaseTakeover now).leasedBy me = true) :
    w.missedAfter cfg (.cancel id now) me = true := by
  have hspec := r.cancelAction_spec cfg.leaseTakeover now
  obtain ⟨hme, hrun⟩ := RunRow.leasedBy_iff.mp hl
  have hrequest : r.cancelAction cfg.leaseTakeover now = .request := by
    cases ha : r.cancelAction cfg.leaseTakeover now with
    | request => rfl
    | cancelNow =>
        rw [RunRow.cancelRun_eq, ha] at hl'
        simp [RunRow.leasedBy] at hl'
    | noop =>
        rw [ha] at hspec
        rw [hrun] at hspec
        cases hspec
    | terminal =>
        rw [ha, hrun] at hspec
        simp at hspec
  simp [missedAfter, requests, hr, hme, hrequest]

/-! ## What a lease holder knows of the flag -/

/-- A holder of a flagged run writes the cancellation, is on its way out, or has
missed the request. -/
def Advance.Aware (missed : LeaseToken → Bool) (me : LeaseToken) (r : RunRow Json)
    (pc : Advance R) : Prop :=
  r.cancelRequested = true → pc.cancels = true ∨ pc.over = true ∨ missed me = true

structure Watch.Aware (w : Watch R) : Prop where
  holders : ∀ me j r, w.engine.attempts me = some j → w.engine.db.runs j.run = some r →
    r.leasedBy me = true → j.pc.Aware w.missed me r
  claims : w.engine.ClaimsLate
  fails : ∀ l ∈ w.engine.late, ∀ me code, l.tx = .failUnstorable me code → ∀ r,
    w.engine.db.runs l.run = some r → r.leasedBy me = true → r.cancelRequested = true →
    w.missed me = true

namespace Advance

variable {pc pc' : Advance R} {r r' : RunRow Json}

theorem aware_local {run : Uuid} (hc : w.heeds cfg a = true)
    (hl : Local w.engine me run pc a pc') (hj : w.engine.attempts me = some ⟨run, pc⟩)
    (hrow : w.engine.db.runs run = some r) (hleased : r.leasedBy me = true)
    (h : pc.Aware w.missed me r) : pc'.Aware (w.missedAfter cfg a) me r := by
  intro hflag
  cases hl with
  | readStatus => exact .inr (.inl rfl)
  | @readSeq b wr =>
      rcases h hflag with hcancels | hover | hmissed
      · exact .inl hcancels
      · cases hover
      · exact .inr (.inr hmissed)
  | @rejects pc pc' code hrej =>
      have hstored : pc.cancels = false := by
        have hrejects := hc
        simp only [Watch.heeds, Engine.applies, hj, hrow, hleased, Bool.true_and,
          Option.all_some, Bool.not_true, Bool.false_or, Bool.not_eq_true'] at hrejects
        exact hrejects
      rcases h hflag with hcancels | hover | hmissed
      · rw [hstored] at hcancels
        cases hcancels
      · exfalso
        cases pc with
        | driving b st =>
            cases st with
            | writing wr new => cases hover
            | _ => cases hrej
        | closing ending snap => cases hover
        | _ => cases hrej
      · exact .inr (.inr hmissed)
  | @input pc pc' i hi =>
      rcases h hflag with hcancels | hover | hmissed
      · cases hi <;> cases hcancels
      · cases hi <;> cases hover
      · exact .inr (.inr hmissed)

/-- An answer that carries the flag turns the attempt to the cancellation. -/
theorem aware_answers {missed : LeaseToken → Bool} (hans : Answers cfg pc (some r') pc') :
    pc'.Aware missed me r' := by
  intro hflag
  cases hans with
  | claimed => simp [claimed, hflag, cancels]
  | landed b wr rows =>
      cases wr with
      | persist run advanced next => simp [landed, hflag, cancels, Write.cancels]
      | suspend run callId question => exact .inr (.inl rfl)
      | finish run ending direct => exact .inr (.inl rfl)
  | beatCancelled => exact .inl rfl
  | beat b g hclear =>
      rw [hclear] at hflag
      cases hflag
  | abandoned b => exact .inr (.inl (retry_over b))
  | _ => exact .inr (.inl rfl)

/-- A terminal write of a holder that knows of no request is not applied. -/
theorem Aware.missed {missed : LeaseToken → Bool} {tx : Tx Json} (h : pc.Aware missed me r)
    (htx : pc.tx cfg me = some tx) (hends : tx.ends = true) (hflag : r.cancelRequested = true) :
    missed me = true := by
  rcases h hflag with hcancels | hover | hmissed
  · exfalso
    cases pc with
    | closing ending snap =>
        cases htx
        change (ending == .cancelled) = true at hcancels
        change (!(ending == .cancelled)) = true at hends
        rw [hcancels] at hends
        cases hends
    | driving b st =>
        cases st with
        | writing wr rows =>
            cases wr with
            | finish run ending direct =>
                cases htx
                change (ending == .cancelled) = true at hcancels
                change (!(ending == .cancelled)) = true at hends
                rw [hcancels] at hends
                cases hends
            | _ => cases hcancels
        | projecting wr => cases htx
        | _ => cases hcancels
    | _ => cases hcancels
  · obtain rfl := tx_of_over hover htx
    cases hends
  · exact hmissed

end Advance

/-- An attempt that is past its claim, and left none behind, does not claim. -/
theorem applies_noClaim (hnow : ∀ j, s.attempts me = some j → j.pc ≠ .claiming)
    (hlate : ∀ q ∈ s.late, ∀ takeover, q.tx ≠ .tryClaim me takeover) {tx : Tx Json}
    (happ : s.applies cfg a = some (id, tx)) (hclaim : tx.isClaim = true) :
    tx.token ≠ some me := by
  intro ht
  cases applies_spec happ with
  | @attempt v pc tx hj htx =>
      obtain rfl : v = me := Option.some.inj ((Advance.token_of_tx htx).symm.trans ht)
      exact hnow _ hj (Advance.claiming_of_isClaim htx hclaim)
  | @late q hq hid =>
      cases hqtx : q.tx with
      | tryClaim v takeover =>
          rw [hqtx] at ht
          cases ht
          exact hlate q hq takeover hqtx
      | _ => rw [hqtx] at hclaim; cases hclaim
  | answer => cases ht
  | cancel => cases ht

/-- A flag under a lease was there under the lease before the step, or the step is
the cancel that its holder misses; a claim of the holder is the exception. -/
theorem Watch.flag_before (hb : w.engine.Basic) (htook : Took cfg w.engine a s' es)
    {r' : RunRow Json} (hr' : s'.db.runs id = some r') (hl' : r'.leasedBy me = true)
    (hflag : r'.cancelRequested = true)
    (hnow : ∀ j, w.engine.attempts me = some j → j.pc ≠ .claiming)
    (hlate : ∀ q ∈ w.engine.late, ∀ takeover, q.tx ≠ .tryClaim me takeover) :
    (∃ r, w.engine.db.runs id = some r ∧ r.leasedBy me = true ∧ r.cancelRequested = true) ∨
      w.missedAfter cfg a me = true := by
  have hrow := htook.rowStep id
  generalize ho : w.engine.db.runs id = o at hrow
  rw [hr'] at hrow
  cases hrow with
  | same => exact .inl ⟨r', rfl, hl', hflag⟩
  | started => cases (RunRow.leasedBy_iff.mp hl').1
  | @updated tx r _ happ hu =>
      have hl : r.leasedBy me = true := by
        rcases Tx.update_lockedBy hu (RunRow.leasedBy_iff.mp hl').1 with h₀ | ⟨hc, ht⟩
        · exact RunRow.leasedBy_iff.mpr ⟨h₀, (hb.rows id r ho).leased (by simp [h₀])⟩
        · exact absurd ht (applies_noClaim hnow hlate happ hc)
      rcases Tx.update_flag hu with hsame | ⟨⟨takeover, rfl⟩, -, -⟩
      · exact .inl ⟨r, rfl, hl, by rw [← hsame]; exact hflag⟩
      · obtain ⟨now, rfl⟩ := applies_cancelRun hb happ
        cases happ
        cases hu
        exact .inr (Watch.missed_of_cancel ho hl hl')

namespace Watch.Aware

theorem init : (Watch.init : Watch R).Aware := by
  constructor <;> simp [Watch.init, Engine.init, Db.empty, Engine.ClaimsLate]

theorem fails_step (hb : w.engine.Basic) (hi : w.Aware)
    (htook : Took cfg w.engine a s' es) : ∀ l ∈ s'.late, ∀ me code,
      l.tx = .failUnstorable me code → ∀ r, s'.db.runs l.run = some r → r.leasedBy me = true →
      r.cancelRequested = true → w.missedAfter cfg a me = true := by
  intro l hl me code htx r' hr' hleased' hflag'
  rcases htook.late_mem hl with hold | ⟨v, j, hj, hrun, hjtx, -⟩
  · have hissued := (hb.late l hold).2 me (by rw [htx]; rfl)
    have hkeep : w.missed me = true → w.missedAfter cfg a me = true := by
      refine Watch.missed_keep fun _ j hj => ?_
      have hover := hissued.2 j hj
      cases hpc : j.pc with
      | driving b st => rw [hpc] at hover; cases st <;> first | rfl | cases hover
      | claiming => rw [hpc] at hover; cases hover
      | _ => rfl
    have hnow : ∀ j, w.engine.attempts me = some j → j.pc ≠ .claiming := by
      intro j hj hpc
      have hover := hissued.2 j hj
      rw [hpc] at hover
      cases hover
    have hlate : ∀ q ∈ w.engine.late, ∀ takeover, q.tx ≠ .tryClaim me takeover :=
      fun q hq takeover hqtx => (hi.claims q hq me takeover hqtx).fails l hold code htx
    rcases Watch.flag_before hb htook hr' hleased' hflag' hnow hlate with
      ⟨r, hr, hleased, hflag⟩ | hmissed
    · exact hkeep (hi.fails l hold me code htx r hr hleased hflag)
    · exact hmissed
  · rw [htx] at hjtx
    obtain rfl : v = me := by simpa [Tx.token] using (Advance.token_of_tx hjtx).symm
    have hreads : j.pc.readsFlag = false := by
      cases hpc : j.pc with
      | driving b st =>
          rw [hpc] at hjtx
          cases st with
          | writing wr rows => cases wr <;> cases hjtx
          | beating g => cases hjtx
          | _ => rfl
      | claiming => rw [hpc] at hjtx; cases hjtx
      | _ => rfl
    have hnow : ∀ k, w.engine.attempts v = some k → k.pc ≠ .claiming := by
      intro k hk hpc
      rw [hj] at hk
      cases hk
      rw [hpc] at hjtx
      cases hjtx
    have hlate : ∀ q ∈ w.engine.late, ∀ takeover, q.tx ≠ .tryClaim v takeover := by
      intro q hq takeover hqtx
      have hdone := (hi.claims q hq v takeover hqtx).attempt j hj
      cases Advance.tx_of_over (Advance.over_of_done hdone) hjtx
    rcases Watch.flag_before hb htook hr' hleased' hflag' hnow hlate with
      ⟨r, hr, hleased, hflag⟩ | hmissed
    · rw [hrun] at hr
      refine Watch.missed_keep (fun _ k hk => ?_)
        ((hi.holders v j r hj hr hleased).missed hjtx rfl hflag)
      rw [hj] at hk
      cases hk
      exact hreads
    · exact hmissed

/-- What a holder has not read yet is missed from then on. -/
theorem transfers (hc : w.heeds cfg a = true) :
    Engine.Transfers cfg w.engine a (fun me r _ pc => pc.Aware w.missed me r)
      fun me r _ pc => pc.Aware (w.missedAfter cfg a) me r where
  ended := fun me r rows pc hover _ => .inr (.inl hover)
  keep := by
    intro me r rows pc hactor hfit hflag
    exact (hfit hflag).imp_right fun h => h.imp_right (missed_keep fun he => absurd he hactor)
  flag := by
    rintro me run now r rows pc rfl hr hl hl' - -
    exact .inr (.inr (missed_of_cancel hr hl hl'))
  here := fun me run pc pc' r hl hj hrow hleased hfit =>
    Advance.aware_local hc hl hj hrow hleased hfit
  own := fun me run pc pc' tx r r' _ _ _ _ _ hans _ => Advance.aware_answers hans

theorem step (hb : w.engine.Basic) (hi : w.Aware) (hc : w.heeds cfg a = true)
    (h : Watch.step cfg w a = some (w', es)) : w'.Aware := by
  obtain ⟨htook, hmissed⟩ := Watch.step_spec h
  constructor
  case claims => exact hi.claims.step hb htook
  case fails => rw [hmissed]; exact fails_step hb hi htook
  case holders =>
    rw [hmissed]
    exact Engine.Holders.transfer (P := fun me r _ pc => pc.Aware w.missed me r)
      (Q := fun me r _ pc => pc.Aware (w.missedAfter cfg a) me r) hb hi.holders htook
      (transfers hc)

theorem of_run (h : WatchRun cfg (fun w a => w.heeds cfg a = true) log w) :
    w.engine.Basic ∧ w.Aware :=
  h.safe (I := fun w => w.engine.Basic ∧ w.Aware) ⟨.init, init⟩ fun _ _ _ _ hi hc hs =>
    ⟨hi.1.step (step_spec hs).1, hi.2.step hi.1 hc hs⟩

end Watch.Aware

/-- Nobody writes another ending over the flag. -/
theorem Watch.ends_unflagged (hb : w.engine.Basic) (hi : w.Aware) (hc : w.heeds cfg a = true)
    {tx : Tx Json} {r : RunRow Json} (happ : w.engine.applies cfg a = some (id, tx))
    (hr : w.engine.db.runs id = some r) (ht : tx.token = some me) (hl : r.leasedBy me = true)
    (hends : tx.ends = true) : r.cancelRequested = false := by
  by_contra hflag
  rw [Bool.not_eq_false] at hflag
  have hmissed : w.missed me = true := by
    cases applies_spec happ with
    | @attempt v pc tx hj htx =>
        obtain rfl : v = me := Option.some.inj ((Advance.token_of_tx htx).symm.trans ht)
        exact (hi.holders v _ r hj hr hl).missed htx hends hflag
    | @late l hmem hid =>
        have hlinger := (hb.late l hmem).1
        cases htx : l.tx with
        | failUnstorable v code =>
            rw [htx] at ht
            cases ht
            exact hi.fails l hmem me code htx r (hid ▸ hr) hl hflag
        | tryClaim v takeover => rw [htx] at hends; cases hends
        | releaseLease v => rw [htx] at hends; cases hends
        | heartbeat v => rw [htx] at hends; cases hends
        | _ => rw [htx] at hlinger; cases hlinger
    | answer => cases ht
    | cancel => cases ht
  simp [heeds, happ, hr, ht, hl, hends, hmissed] at hc

theorem Watch.cancelling_step (hb : w.engine.Basic) (hi : w.Aware) (hc : w.heeds cfg a = true)
    (h : Watch.step cfg w a = some (w', es))
    (hs : ∀ r, w.engine.db.runs id = some r → r.Cancelling) (hsome : w.engine.db.runs id ≠ none) :
    (∀ r, w'.engine.db.runs id = some r → r.Cancelling) ∧ w'.engine.db.runs id ≠ none := by
  have hrow := (step_spec h).1.rowStep id
  generalize ho : w.engine.db.runs id = o at hrow
  generalize ho' : w'.engine.db.runs id = o' at hrow
  cases hrow with
  | same => exact ⟨fun r hr => hs r (by rw [ho, hr]), ho ▸ hsome⟩
  | started => exact absurd ho hsome
  | updated happ hu =>
      refine ⟨?_, by simp⟩
      rintro r ⟨⟩
      exact Tx.update_cancelling (hs _ ho)
        (fun me ht hl he => ends_unflagged hb hi hc happ ho ht hl he) hu

theorem cancel_row {now : ℕ} {s₁ : Engine R} {r : RunRow Json}
    (hstep : Engine.step cfg s (.cancel id now) = some (s₁, es)) (hr : s.db.runs id = some r) :
    s₁.db.runs id = some (r.cancelRun cfg.leaseTakeover now) := by
  simp only [Engine.step, Engine.cancel, Option.map_eq_some_iff] at hstep
  obtain ⟨x, hx, hs₁⟩ := hstep
  obtain ⟨db, hdb, h₁, -⟩ := exec_eq hx
  rw [hs₁] at h₁
  obtain rfl : s₁ = s.setDb db := h₁
  rcases (Db.exec_at hdb).2 with ⟨-, -, hnone⟩ | ⟨r₀, r', -, hr₀, hu, hr', -⟩
  · simp [hr, Tx.update] at hnone
  · rw [hr] at hr₀
    cases hr₀
    cases hu
    exact hr'

/-- Once a cancel returned `Ok`, the run ends cancelled or not at all, as long as no
cancel is requested between a holder's last look at the flag and another ending. -/
theorem cancel_final {now : ℕ} {log' : List Event}
    (h : WatchRun cfg (fun w a => w.heeds cfg a = true) log w)
    (hok : cancelResult cfg now (w.engine.db.runs id) = .ok ())
    (hstep : Watch.step cfg w (.cancel id now) = some (w₁, es))
    (h' : StepRun.Run (Watch.step cfg) (fun w a => w.heeds cfg a = true) w₁ log' w') :
    ∀ r, w'.engine.db.runs id = some r → r.status ≠ .succeeded ∧ r.status ≠ .failed ∧
      (r.status.terminal = true → r.status = .cancelled) := by
  obtain ⟨r₀, hr₀⟩ : ∃ r₀, w.engine.db.runs id = some r₀ := by
    cases hr : w.engine.db.runs id with
    | none => rw [hr] at hok; cases hok
    | some r₀ => exact ⟨r₀, rfl⟩
  rw [hr₀] at hok
  obtain ⟨hb, hi⟩ := Watch.Aware.of_run h
  have hcancelled : w₁.engine.db.runs id = some (r₀.cancelRun cfg.leaseTakeover now) := by
    simp only [Watch.step, Option.map_eq_some_iff, Prod.mk.injEq] at hstep
    obtain ⟨⟨s₁, es₁⟩, hs, rfl, -⟩ := hstep
    exact cancel_row hs hr₀
  have hkept := h'.safe
    (I := fun t => t.engine.Basic ∧ t.Aware ∧
      (∀ r, t.engine.db.runs id = some r → r.Cancelling) ∧ t.engine.db.runs id ≠ none)
    ⟨hb.step (Watch.step_spec hstep).1, hi.step hb rfl hstep,
      by rw [hcancelled]; rintro r ⟨⟩; exact cancelResult_ok hok, by simp [hcancelled]⟩
    fun t a t' es ht hc hs => ⟨ht.1.step (Watch.step_spec hs).1, ht.2.1.step ht.1 hc hs,
      Watch.cancelling_step ht.1 ht.2.1 hc hs ht.2.2.1 ht.2.2.2⟩
  intro r hr
  rcases hkept.2.2.1 r hr with hc | ⟨hrun, -⟩
  · simp [hc]
  · simp [hrun, RunStatus.terminal]

end

/-- The owner was about to persist: it reads the flag and cancels the run. -/
theorem cancel_final_noticed : ∃ (log : List Event) (w w' : Watch Rig.scripted)
    (r : RunRow Json), WatchRun scriptedConfig (fun w a => w.heeds scriptedConfig a = true) log w ∧
      cancelResult scriptedConfig 202 (w.engine.db.runs 1) = .ok () ∧
      w'.engine.db.runs 1 = some r ∧ r.status = .cancelled ∧ r.status ≠ .succeeded ∧
      r.status ≠ .failed := by
  obtain ⟨log, w, hrun, hdone⟩ := StepRun.exists_run (Watch.step scriptedConfig)
    (fun w a => w.heeds scriptedConfig a) Watch.init (scriptedRun.take 26)
    (fun _ w => cancelResult scriptedConfig 202 (w.engine.db.runs 1) == .ok () &&
      (Watch.step scriptedConfig w (.cancel 1 202)).any fun q =>
        (StepRun.execute (Watch.step scriptedConfig) (fun w a => w.heeds scriptedConfig a)
          [.readSeq 9, .commit 9 203, .readSeq 9, .commit 9 204] q.1).any fun q' =>
            (q'.1.engine.db.runs 1).any fun r => r.status == .cancelled) (by decide)
  simp only [Bool.and_eq_true, beq_iff_eq, Option.any_eq_true] at hdone
  obtain ⟨hok, ⟨w₁, es⟩, hstep, ⟨w', log'⟩, hexec, r, hr, hs⟩ := hdone
  have h := cancel_final hrun hok hstep (StepRun.run_of_execute hexec) r hr
  exact ⟨log, w, w', r, hrun, hok, hr, hs, h.1, h.2.1⟩

/-- A cancel between the last persist and the terminal write is lost: it returns
`Ok`, and the run succeeds. -/
theorem cancel_not_final : ∃ (log log' es : List Event) (s s₁ s' : Engine Rig.scripted)
    (r : RunRow Json), EngineRun scriptedConfig StepRun.Free log s ∧
      cancelResult scriptedConfig 203 (s.db.runs 1) = .ok () ∧
      Engine.step scriptedConfig s (.cancel 1 203) = some (s₁, es) ∧
      StepRun.Run (Engine.step scriptedConfig) StepRun.Free s₁ log' s' ∧
      s'.db.runs 1 = some r ∧ r.status = .succeeded := by
  obtain ⟨log, s, hrun, hdone⟩ := StepRun.exists_free_run (Engine.step scriptedConfig)
    Engine.init scriptedRun.dropLast
    (fun _ s => cancelResult scriptedConfig 203 (s.db.runs 1) == .ok () &&
      (Engine.step scriptedConfig s (.cancel 1 203)).any fun q =>
        (StepRun.execute (Engine.step scriptedConfig) (fun _ _ => true) [.commit 9 204] q.1).any
          fun q' => (q'.1.db.runs 1).any fun r => r.status == .succeeded) (by decide)
  simp only [Bool.and_eq_true, beq_iff_eq, Option.any_eq_true] at hdone
  obtain ⟨hok, ⟨s₁, es⟩, hstep, ⟨s', log'⟩, hexec, r, hr, hs⟩ := hdone
  exact ⟨log, log', es, s, s₁, s', r, hrun, hok, hstep, (StepRun.run_of_execute hexec).free, hr, hs⟩

end Cja.Durable
