import Cja.Passkeys.Login

/-!
# One success for one challenge

A finish route reads the challenge when its session is extracted and clears the
column by a statement of its own at the end. Nothing ties the two together: two
finishes that read one challenge both succeed, and a finish clears a challenge
that replaced the one it had read. `InTime` is the condition on the last statement
under which neither happens.
-/
namespace Cja.Passkeys
open Jobs (Uuid)

variable {W : Webauthn} {log es : List (Event W)} {s s' : State W} {q : ℕ} {sid : Uuid}

/-- At most one finish request answers 200 for one stored challenge. -/
def SingleUse (log : List (Event W)) : Prop :=
  ∀ c q q', .succeeded q c ∈ log → .succeeded q' c ∈ log → q = q'

/-- A step removes the challenge `d` of a session only if another start request
stores its own there, or a finish that had read `d` answers 200. -/
def OwnRemoval (s s' : State W) (es : List (Event W)) : Prop :=
  ∀ sid d, s.db.challengeOf sid = some d → s'.db.challengeOf sid = some d ∨
    (∃ q c, q ≠ d.writer ∧ .stored q sid c ∈ es) ∨ ∃ q, .succeeded q d.writer ∈ es

/-- A clear statement that takes effect is answered, and the column still holds the
challenge that its request had read. -/
def InTime (s : State W) (a : Action W) : Prop :=
  ∀ q seed fresh o route sid read, a = .exec q seed fresh o →
    s.requests q = some ⟨route, .clearing sid read⟩ → o ≠ .rejected →
    o = .done ∧ (s.db.challengeOf sid).map (fun d => d.writer) = some read

abbrev InTimeRun (W : Webauthn) : List (Event W) → State W → Prop :=
  StepRun.Run step InTime State.init

def State.Returned (s : State W) (q : ℕ) : Prop :=
  ∃ route response, s.requests q = some ⟨route, .returned response⟩

/-- The writer of a challenge has returned, and no two sessions hold a challenge of
one writer. -/
structure Challenges (s : State W) : Prop where
  returned : ∀ sid d, s.db.challengeOf sid = some d → s.Returned d.writer
  once : ∀ sid sid' d d', s.db.challengeOf sid = some d → s.db.challengeOf sid' = some d' →
    d.writer = d'.writer → sid = sid'

/-- A challenge that was used is gone for good. -/
structure Spent (log : List (Event W)) (s : State W) : Prop where
  challenges : Challenges s
  returned : ∀ q c, .succeeded q c ∈ log → s.Returned c
  gone : ∀ q c, .succeeded q c ∈ log → ∀ sid d, s.db.challengeOf sid = some d → d.writer ≠ c
  single : SingleUse log

section Statements

variable {fresh : Uuid} {phase : Phase W} {db db' : Db W} {p : Progress W} {c : ℕ}

/-- Only the last statement of a finish records a success. -/
theorem Wrote.succeeded (h : Wrote q fresh db phase db' es) {q' : ℕ}
    (he : .succeeded q' c ∈ es) : ∃ sid, phase = .clearing sid c := by
  cases h with
  | nothing hq => obtain ⟨_, _, _, _, _, heq⟩ := hq.only _ he; cases heq
  | created _ hq => obtain ⟨_, _, _, _, _, heq⟩ := hq.only _ he; cases heq
  | stored => simp at he
  | began => cases he
  | insertedUser _ => cases he
  | insertedCredential _ => cases he
  | committed => simp at he
  | persisted => cases he
  | loggedIn => simp at he
  | cleared => simp at he
  | finished =>
      simp only [List.mem_cons, reduceCtorEq, Event.succeeded.injEq, List.not_mem_nil, or_false,
        false_or] at he
      exact ⟨_, by rw [he.2]⟩

/-- A request that stores a challenge returns with that statement. -/
theorem advance_storing {route : Route W} {seed : W.Seed} {o : Outcome} {challenge : W.Challenge}
    {v : W.Value} {reply : Reply W}
    (h : advance q route seed fresh o db (.storing sid challenge v reply) = some p) :
    ∃ response, p.2.1 = .returned response := by
  cases h
  cases o <;> exact ⟨_, rfl⟩

end Statements

theorem State.Returned.step {a : Action W} {c : ℕ} (hc : s.Returned c)
    (h : step s a = some (s', es)) : s'.Returned c := by
  obtain ⟨route, response, hr⟩ := hc
  refine ⟨route, response, ?_⟩
  obtain ⟨q, _, _, _, hnone, rfl, _⟩ | ⟨q, _, _, _, r, p, _, hq, hp, rfl, _⟩ |
    ⟨_, _, _, _, _, rfl, _⟩ := step_cases h
  · have hne : c ≠ q := by
      rintro rfl
      rw [hr] at hnone
      cases hnone
    exact (Function.update_of_ne hne ..).trans hr
  · have hne : c ≠ q := by
      rintro rfl
      rw [hr] at hq
      cases hq
      cases hp
    exact (Function.update_of_ne hne ..).trans hr
  · exact hr

/-- What a step does to the challenges of all sessions and to the successes. -/
theorem step_challenges {a : Action W} (h : step s a = some (s', es)) :
    ((∀ sid, s'.db.challengeOf sid = s.db.challengeOf sid) ∧ ∀ q c, .succeeded q c ∉ es) ∨
    (∃ q sid c v, ¬ s.Returned q ∧ s'.Returned q ∧ es = [.stored q sid c] ∧
      s'.db = s.db.setChallengeState sid ⟨v, q⟩) ∨
    (∃ q sid read, (InTime s a → .succeeded q read ∈ es ∧
        (s.db.challengeOf sid).map (fun d => d.writer) = some read) ∧
      s'.db = s.db.clearChallengeState sid ∧
      ∀ q' c, .succeeded q' c ∈ es → q' = q ∧ c = read) := by
  obtain ⟨_, _, _, _, _, rfl, rfl⟩ | ⟨q, seed, fresh, o, ⟨route, phase⟩, p, rfl, hr, hp, rfl, rfl⟩ |
    ⟨_, _, _, _, _, rfl, rfl⟩ := step_cases h
  · exact .inl ⟨fun _ => rfl, fun _ _ he => List.not_mem_nil he⟩
  · have hwrote := advance_wrote hp
    by_cases hclear : ∃ sid read, phase = .clearing sid read
    · obtain ⟨sid, read, rfl⟩ := hclear
      cases hp
      cases o with
      | done =>
          refine .inr (.inr ⟨q, sid, read, fun hin => ?_, rfl, ?_⟩)
          · exact ⟨List.mem_cons_of_mem _ (List.mem_singleton.2 rfl),
              (hin q seed fresh .done route sid read rfl hr (by decide)).2⟩
          · intro q' c he
            simpa [clearChallenge] using he
      | rejected => exact .inl ⟨fun _ => rfl, fun _ _ he => List.not_mem_nil he⟩
      | lost =>
          refine .inr (.inr ⟨q, sid, read, fun hin => ?_, rfl, ?_⟩)
          · cases (hin q seed fresh .lost route sid read rfl hr (by decide)).1
          · intro q' c he
            simp [clearChallenge] at he
    · have hnone : ∀ q' c, .succeeded q' c ∉ p.2.2 := by
        intro q' c he
        obtain ⟨sid, hphase⟩ := hwrote.succeeded he
        exact hclear ⟨sid, c, hphase⟩
      obtain hsame | ⟨sid, c, v, reply, hphase, hes, hdb⟩ | ⟨sid, read, hphase, _⟩ :=
        hwrote.challenges
      · exact .inl ⟨hsame, hnone⟩
      · have hphase : phase = .storing sid c v reply := hphase
        subst hphase
        obtain ⟨response, hresponse⟩ := advance_storing hp
        refine .inr (.inl ⟨q, sid, c, v, ?_, ⟨route, response, ?_⟩, hes, hdb⟩)
        · rintro ⟨_, _, hr'⟩
          rw [hr] at hr'
          cases hr'
        · rw [← hresponse]
          exact Function.update_self ..
      · exact absurd ⟨sid, read, hphase⟩ hclear
  · exact .inl ⟨fun _ => rfl, fun _ _ he => List.not_mem_nil he⟩

/-! ## Runs -/

theorem Spent.step {a : Action W} (hs : Spent log s) (hin : InTime s a)
    (h : step s a = some (s', es)) : Spent (log ++ es) s' := by
  have hreturned : ∀ c, s.Returned c → s'.Returned c := fun c hc => hc.step h
  obtain ⟨hsame, hnone⟩ | ⟨q, sid, c, v, hnew, hdone, rfl, hdb⟩ | ⟨q, sid, read, htime, hdb, honly⟩ :=
    step_challenges h
  · have hold : ∀ q c, .succeeded q c ∈ log ++ es → .succeeded q c ∈ log := by
      intro q c he
      obtain he | he := List.mem_append.1 he
      · exact he
      · exact absurd he (hnone q c)
    constructor
    · constructor
      · intro sid d hd
        exact hreturned _ (hs.challenges.returned sid d (hsame sid ▸ hd))
      · intro sid sid' d d' hd hd' heq
        exact hs.challenges.once sid sid' d d' (hsame sid ▸ hd) (hsame sid' ▸ hd') heq
    · exact fun q c he => hreturned c (hs.returned q c (hold q c he))
    · exact fun q c he sid d hd => hs.gone q c (hold q c he) sid d (hsame sid ▸ hd)
    · exact fun c q q' he he' => hs.single c q q' (hold q c he) (hold q' c he')
  · have hcolumn : ∀ other d, s'.db.challengeOf other = some d →
        s.db.challengeOf other = some d ∨ other = sid ∧ d = ⟨v, q⟩ := by
      intro other d hd
      rw [hdb] at hd
      obtain hsame | ⟨heq, hset⟩ := Db.challengeOf_setChallengeState s.db sid ⟨v, q⟩ other
      · exact .inl (hsame ▸ hd)
      · exact .inr ⟨heq, Option.some.inj (hd.symm.trans hset)⟩
    have hold : ∀ q' c', .succeeded q' c' ∈ log ++ [Event.stored q sid c] →
        .succeeded q' c' ∈ log := by
      intro q' c' he
      simpa using he
    constructor
    · constructor
      · intro other d hd
        obtain hd | ⟨_, rfl⟩ := hcolumn other d hd
        · exact hreturned _ (hs.challenges.returned other d hd)
        · exact hdone
      · intro other other' d d' hd hd' heq
        obtain hd | ⟨rfl, rfl⟩ := hcolumn other d hd
        · obtain hd' | ⟨rfl, rfl⟩ := hcolumn other' d' hd'
          · exact hs.challenges.once other other' d d' hd hd' heq
          · have hreturned := hs.challenges.returned other d hd
            rw [heq] at hreturned
            exact absurd hreturned hnew
        · obtain hd' | ⟨rfl, rfl⟩ := hcolumn other' d' hd'
          · have hreturned := hs.challenges.returned other' d' hd'
            rw [← heq] at hreturned
            exact absurd hreturned hnew
          · rfl
    · exact fun q' c' he => hreturned c' (hs.returned q' c' (hold q' c' he))
    · intro q' c' he other d hd
      obtain hd | ⟨_, rfl⟩ := hcolumn other d hd
      · exact hs.gone q' c' (hold q' c' he) other d hd
      · rintro rfl
        exact hnew (hs.returned q' q (hold q' q he))
    · exact fun c' q₁ q₂ he he' => hs.single c' q₁ q₂ (hold q₁ c' he) (hold q₂ c' he')
  · obtain ⟨hsucc, hheld⟩ := htime hin
    obtain ⟨d₀, hd₀, hwriter⟩ := Option.map_eq_some_iff.1 hheld
    have hcolumn : ∀ other d, s'.db.challengeOf other = some d →
        other ≠ sid ∧ s.db.challengeOf other = some d := by
      intro other d hd
      rw [hdb] at hd
      obtain hsame | ⟨_, hnone⟩ := Db.challengeOf_clearChallengeState s.db sid other
      · refine ⟨?_, hsame ▸ hd⟩
        rintro rfl
        rw [Db.challengeOf_clearChallengeState_self] at hd
        cases hd
      · cases hnone.symm.trans hd
    have hcases : ∀ q' c', .succeeded q' c' ∈ log ++ es →
        .succeeded q' c' ∈ log ∨ q' = q ∧ c' = read := by
      intro q' c' he
      obtain he | he := List.mem_append.1 he
      · exact .inl he
      · exact .inr (honly q' c' he)
    constructor
    · constructor
      · exact fun other d hd => hreturned _ (hs.challenges.returned other d (hcolumn other d hd).2)
      · exact fun other other' d d' hd hd' =>
          hs.challenges.once other other' d d' (hcolumn other d hd).2 (hcolumn other' d' hd').2
    · intro q' c' he
      obtain he | ⟨_, rfl⟩ := hcases q' c' he
      · exact hreturned c' (hs.returned q' c' he)
      · exact hreturned c' (hwriter ▸ hs.challenges.returned sid d₀ hd₀)
    · intro q' c' he other d hd
      obtain ⟨hne, hd⟩ := hcolumn other d hd
      obtain he | ⟨_, rfl⟩ := hcases q' c' he
      · exact hs.gone q' c' he other d hd
      · exact fun heq => hne (hs.challenges.once other sid d d₀ hd hd₀ (heq.trans hwriter.symm))
    · -- a success recorded before would have emptied the column for good
      intro c' q₁ q₂ he₁ he₂
      obtain he₁ | ⟨rfl, rfl⟩ := hcases q₁ c' he₁
      · obtain he₂ | ⟨rfl, rfl⟩ := hcases q₂ c' he₂
        · exact hs.single c' q₁ q₂ he₁ he₂
        · exact absurd hwriter (hs.gone q₁ c' he₁ sid d₀ hd₀)
      · obtain he₂ | ⟨rfl, _⟩ := hcases q₂ c' he₂
        · exact absurd hwriter (hs.gone q₂ c' he₂ sid d₀ hd₀)
        · rfl

theorem Spent.init : Spent [] (State.init : State W) := by
  constructor
  · constructor
    · intro sid d hd
      cases hd
    · intro sid sid' d d' hd
      cases hd
  · intro q c he
    cases he
  · intro q c he
    cases he
  · intro c q q' he
    cases he

theorem run_spent (h : InTimeRun W log s) : Spent log s :=
  h.invariant .init fun _ _ _ _ _ _ hs hin hstep => hs.step hin hstep

/-- Where every clear statement still finds the challenge its finish had read, one
challenge lets one finish succeed, and only that finish or a later start removes it. -/
theorem challenge_single_use (h : InTimeRun W log s) :
    SingleUse log ∧
      ∀ a s' es, InTime s a → step s a = some (s', es) → OwnRemoval s s' es := by
  have hspent := run_spent h
  refine ⟨hspent.single, fun a s' es hin hstep sid d hd => ?_⟩
  obtain ⟨hsame, _⟩ | ⟨q, other, c, v, hnew, _, rfl, hdb⟩ | ⟨q, other, read, htime, hdb, _⟩ :=
    step_challenges hstep
  · exact .inl ((hsame sid).trans hd)
  · obtain hsame | ⟨rfl, _⟩ := Db.challengeOf_setChallengeState s.db other ⟨v, q⟩ sid
    · exact .inl (by rw [hdb, hsame, hd])
    · refine .inr (.inl ⟨q, c, ?_, List.mem_singleton.2 rfl⟩)
      rintro rfl
      exact hnew (hspent.challenges.returned sid d hd)
  · obtain hsame | ⟨rfl, _⟩ := Db.challengeOf_clearChallengeState s.db other sid
    · exact .inl (by rw [hdb, hsame, hd])
    · obtain ⟨hsucc, hheld⟩ := htime hin
      rw [hd] at hheld
      obtain rfl : d.writer = read := Option.some.inj hheld
      exact .inr (.inr ⟨q, hsucc⟩)

/-! ## Runs that keep the condition, and runs that miss it -/

/-- After the registration, request 2 stores a discoverable challenge, which the
finishes 3 and 4 both read. -/
def challengeActions : List (Action Webauthn.scripted) :=
  registrationActions ++
    [.arrive 2 .discoverableStart (some 1), .exec 2 (11 : ℕ) 0 .done, .exec 2 (0 : ℕ) 0 .done,
      .arrive 3 (.discoverableFinish ((11, 7, 5) : ℕ × ℕ × ℕ)) (some 1), .exec 3 (0 : ℕ) 0 .done,
      .arrive 4 (.discoverableFinish ((11, 7, 5) : ℕ × ℕ × ℕ)) (some 1), .exec 4 (0 : ℕ) 0 .done]

/-- The statements of finish `q` from `find_by_credential_id` to `set_user_id`. -/
def finishActions (q : ℕ) : List (Action Webauthn.scripted) :=
  [.exec q (0 : ℕ) 0 .done, .exec q (0 : ℕ) 0 .done, .exec q (0 : ℕ) 0 .done]

def Event.isSuccess (q c : ℕ) : Event W → Bool
  | .succeeded q' c' => q' == q && c' == c
  | _ => false

theorem Event.eq_of_isSuccess {q c : ℕ} {e : Event W} (h : e.isSuccess q c = true) :
    e = .succeeded q c := by
  cases e with
  | succeeded q' c' =>
      simp only [isSuccess, Bool.and_eq_true, beq_iff_eq] at h
      rw [h.1, h.2]
  | _ => cases h

theorem mem_of_isSuccess {q c : ℕ} (h : log.any (Event.isSuccess q c) = true) :
    .succeeded q c ∈ log := by
  obtain ⟨e, he, hsuccess⟩ := List.any_eq_true.1 h
  exact Event.eq_of_isSuccess hsuccess ▸ he

/-- `InTime` as a test. -/
def inTime (s : State W) : Action W → Bool
  | .exec q _ _ o =>
      match s.requests q with
      | some ⟨_, .clearing sid read⟩ =>
          o == .rejected ||
            o == .done && (s.db.challengeOf sid).map (fun d => d.writer) == some read
      | _ => true
  | _ => true

theorem inTime_sound {a : Action W} (h : inTime s a = true) : InTime s a := by
  rintro q seed fresh o route sid read rfl hr hne
  simp only [inTime, hr, Bool.or_eq_true, Bool.and_eq_true, beq_iff_eq] at h
  obtain hrejected | hdone := h
  · exact absurd hrejected hne
  · exact hdone

/-- The finish 3 alone. -/
theorem challenge_single_use_scripted : ∃ log s, InTimeRun Webauthn.scripted log s ∧
    .succeeded 3 2 ∈ log ∧ SingleUse log := by
  obtain ⟨log, s, hrun, hp⟩ := StepRun.exists_run step inTime State.init
    (challengeActions ++ finishActions 3 ++ [.exec 3 (0 : ℕ) 0 .done])
    (fun log _ => log.any (Event.isSuccess 3 2)) (by decide)
  have hintime : InTimeRun Webauthn.scripted log s := hrun.mono fun _ _ => inTime_sound
  exact ⟨log, s, hintime, mem_of_isSuccess hp, (challenge_single_use hintime).1⟩

/-- Two finishes of one challenge both answer 200; and a finish clears the
challenge of request 5, which had replaced the one it read. -/
theorem not_challenge_single_use :
    (∃ log s, PasskeyRun Webauthn.scripted log s ∧ ¬ SingleUse log) ∧
    ∃ log s a s' es, PasskeyRun Webauthn.scripted log s ∧ step s a = some (s', es) ∧
      ¬ OwnRemoval s s' es := by
  constructor
  · obtain ⟨log, s, hrun, hp⟩ := StepRun.exists_free_run step State.init
      (challengeActions ++ finishActions 3 ++ finishActions 4 ++
        [.exec 3 (0 : ℕ) 0 .done, .exec 4 (0 : ℕ) 0 .done])
      (fun log _ => log.any (Event.isSuccess 3 2) && log.any (Event.isSuccess 4 2)) (by decide)
    rw [Bool.and_eq_true] at hp
    refine ⟨log, s, hrun, fun hsingle => ?_⟩
    cases hsingle 2 3 4 (mem_of_isSuccess hp.1) (mem_of_isSuccess hp.2)
  · obtain ⟨log, s, hrun, hp⟩ := StepRun.exists_free_run step State.init
      (challengeActions ++ finishActions 3 ++
        [.arrive 5 .discoverableStart (some 1), .exec 5 (12 : ℕ) 0 .done,
          .exec 5 (0 : ℕ) 0 .done])
      (fun _ s => (s.db.challengeOf 1).any (fun d => d.writer == 5) &&
        (step s (.exec 3 (0 : ℕ) 0 .done)).any fun r => (r.1.db.challengeOf 1).isNone &&
          !r.2.any (fun e => e matches .stored ..) && !r.2.any fun e => e matches .succeeded _ 5)
      (by decide)
    simp only [Bool.and_eq_true, Option.any_eq_true, beq_iff_eq, Option.isNone_iff_eq_none,
      Bool.not_eq_true', List.any_eq_false] at hp
    obtain ⟨⟨d, hd, hwriter⟩, ⟨s', es⟩, hstep, ⟨hnone, hstored⟩, hsucc⟩ := hp
    refine ⟨log, s, _, s', es, hrun, hstep, fun hown => ?_⟩
    obtain hsame | ⟨q, c, _, he⟩ | ⟨q, he⟩ := hown 1 d hd
    · cases hnone.symm.trans hsame
    · exact absurd rfl (hstored _ he)
    · rw [hwriter] at he
      exact absurd rfl (hsucc _ he)

end Cja.Passkeys
