import Cja.Jobs.Worker

/-!
# The heartbeat loop of a running job

The loop of `run_next_job` on a clock that every timer keeps to: each turn of the
`select!` takes the first of its branches, in the order of the source, at the first
moment one of them is ready. What the loop does not decide is a `Scenario`: when the
body returns, and when and how the database answers each heartbeat.
-/
namespace Cja.Jobs

/-! ## Heartbeats -/

/-- What the heartbeat's `UPDATE` comes to. -/
inductive BeatAnswer
  | refreshed
  | notOwned
  | failed
deriving Repr, DecidableEq

/-- One heartbeat sent to the database; without a moment it is never answered. -/
structure Attempt where
  answersAfter : Option ℕ
  answer : BeatAnswer
deriving Repr, DecidableEq

inductive HeartbeatResult
  | answered (answer : BeatAnswer)
  | elapsed
deriving Repr, DecidableEq

/-- `timeout(limit, update)`: how long it takes and its result. At the limit itself the
update is polled first. -/
def Attempt.timeout (limit : ℕ) (a : Attempt) : ℕ × HeartbeatResult :=
  match a.answersAfter with
  | some d => if d ≤ limit then (d, .answered a.answer) else (limit, .elapsed)
  | none => (limit, .elapsed)

theorem Attempt.timeout_le (limit : ℕ) (a : Attempt) : (a.timeout limit).1 ≤ limit := by
  unfold Attempt.timeout
  split
  · split_ifs with h
    · exact h
    · exact Nat.le_refl limit
  · exact Nat.le_refl limit

structure Scenario where
  attempts : ℕ → Attempt
  bodyReturnsAt : Option ℕ

def Scenario.bodyReturned (sc : Scenario) (now : ℕ) : Bool := sc.bodyReturnsAt.any (· ≤ now)

/-- A heartbeat that was sent, and when its future was done: its `UPDATE` was answered, or
its timeout elapsed and the future was dropped, with the `UPDATE` perhaps still on its way. -/
structure SentBeat where
  sentAt : ℕ
  settledAt : Option ℕ
deriving Repr, DecidableEq

def SentBeat.SettledBy (b : SentBeat) (now : ℕ) : Prop := ∃ t ∈ b.settledAt, t ≤ now

/-! ## The loop -/

inductive LoopEnd
  | bodyReturned
  | claimExceededDeadline
  | watchdogExpired
  | ownershipLost
deriving Repr, DecidableEq

/-- `heartbeat` holds the moment at which the heartbeat's future is ready, and its result;
`beats` is what was sent so far, the last one first. -/
structure HeartbeatLoop where
  now : ℕ
  tracker : LeaseTracker
  nextTick : ℕ
  heartbeat : Option (ℕ × HeartbeatResult)
  heartbeatSentAt : ℕ
  beats : List SentBeat
deriving Repr, DecidableEq

namespace HeartbeatLoop

/-- The moment of the branch that `heartbeat.is_some()` leaves open. -/
def readyAt (s : HeartbeatLoop) : ℕ :=
  match s.heartbeat with
  | some (ready, _) => ready
  | none => s.nextTick

/-- The first moment at which a branch is ready. -/
def wake (sc : Scenario) (s : HeartbeatLoop) : ℕ :=
  let timers := min s.tracker.deadline s.readyAt
  max s.now (match sc.bodyReturnsAt with
    | some t => min t timers
    | none => timers)

def settled (now : ℕ) : List SentBeat → List SentBeat
  | [] => []
  | b :: bs => { b with settledAt := some now } :: bs

/-- The result of the heartbeat's future, which is gone with it. -/
def settle (s : HeartbeatLoop) (now : ℕ) : HeartbeatResult → Except LoopEnd HeartbeatLoop
  | .answered .refreshed =>
      .ok { s with
        now := now, heartbeat := none, beats := settled now s.beats
        tracker := { s.tracker with lastRefreshSent := s.heartbeatSentAt } }
  | .answered .notOwned => .error .ownershipLost
  | .answered .failed | .elapsed =>
      .ok { s with now := now, heartbeat := none, beats := settled now s.beats }

/-- The tick: the next attempt is sent. -/
def send (sc : Scenario) (s : HeartbeatLoop) (sentAt : ℕ) : HeartbeatLoop :=
  let r := (sc.attempts s.beats.length).timeout (s.tracker.heartbeatInterval / 3)
  { s with
    now := sentAt
    nextTick := sentAt + s.tracker.heartbeatInterval
    heartbeat := some (sentAt + r.1, r.2)
    heartbeatSentAt := sentAt
    beats := ⟨sentAt, none⟩ :: s.beats }

/-- One turn of the loop. -/
def select (sc : Scenario) (s : HeartbeatLoop) : Except LoopEnd HeartbeatLoop :=
  let now := s.wake sc
  if sc.bodyReturned now then .error .bodyReturned
  else if s.tracker.deadline ≤ now then .error .watchdogExpired
  else match s.heartbeat with
    | some (_, result) => s.settle now result
    | none => .ok (s.send sc now)

def run (sc : Scenario) : ℕ → HeartbeatLoop → Except LoopEnd HeartbeatLoop
  | 0, s => .ok s
  | turns + 1, s =>
      match s.select sc with
      | .ok s' => s'.run sc turns
      | .error e => .error e

end HeartbeatLoop

def JobWorkerConfig.tracker (c : JobWorkerConfig) (lastRefreshSent : ℕ) : LeaseTracker :=
  ⟨lastRefreshSent, c.heartbeatInterval, c.reclaimWindow⟩

/-- `run_next_job` up to its loop, which it enters at `now`. -/
def JobWorkerConfig.enterLoop (c : JobWorkerConfig) (claimSentAt now : ℕ) :
    Except LoopEnd HeartbeatLoop :=
  if (c.tracker claimSentAt).deadline ≤ now then .error .claimExceededDeadline
  else .ok
    { now := now
      tracker := c.tracker claimSentAt
      nextTick := claimSentAt + c.heartbeatInterval
      heartbeat := none
      heartbeatSentAt := claimSentAt
      beats := [] }

/-- `run_next_job` for a number of turns of its loop. -/
def JobWorkerConfig.runNextJob (c : JobWorkerConfig) (sc : Scenario) (claimSentAt now turns : ℕ) :
    Except LoopEnd HeartbeatLoop :=
  match c.enterLoop claimSentAt now with
  | .ok s => s.run sc turns
  | .error e => .error e

/-! ## One heartbeat future at a time -/

namespace HeartbeatLoop

variable {sc : Scenario} {s s' : HeartbeatLoop} {turns : ℕ}

/-- There is one heartbeat future at a time: none was made before the ones before it were
done. -/
def OneFuture (s : HeartbeatLoop) : Prop :=
  s.beats.Pairwise fun later earlier => earlier.SettledBy later.sentAt

/-- With no future every heartbeat is settled, and with one all but the last. -/
structure Serial (s : HeartbeatLoop) : Prop where
  oneFuture : s.OneFuture
  earlier : ∀ b ∈ s.beats.tail, b.SettledBy s.now
  last : s.heartbeat = none → ∀ b ∈ s.beats, b.SettledBy s.now

theorem now_le_wake (sc : Scenario) (s : HeartbeatLoop) : s.now ≤ s.wake sc := Nat.le_max_left _ _

theorem settled_serial (h : s.Serial) {now : ℕ} (hnow : s.now ≤ now) :
    (settled now s.beats).Pairwise (fun later earlier => earlier.SettledBy later.sentAt) ∧
      ∀ b ∈ settled now s.beats, b.SettledBy now := by
  obtain ⟨hone, hearlier, -⟩ := h
  unfold OneFuture at hone
  cases hbeats : s.beats with
  | nil => simp [settled]
  | cons b bs =>
      rw [hbeats] at hone hearlier
      obtain ⟨hb, hbs⟩ := List.pairwise_cons.1 hone
      refine ⟨List.pairwise_cons.2 ⟨hb, hbs⟩, fun b' hb' => ?_⟩
      rcases List.mem_cons.1 hb' with rfl | hmem
      · exact ⟨now, rfl, Nat.le_refl now⟩
      · obtain ⟨t, ht, hle⟩ := hearlier b' hmem
        exact ⟨t, ht, hle.trans hnow⟩

theorem Serial.settle (h : s.Serial) {now : ℕ} (hnow : s.now ≤ now) {result : HeartbeatResult}
    (hs : s.settle now result = .ok s') : s'.Serial := by
  obtain ⟨hpair, hall⟩ := settled_serial h hnow
  have hserial : s'.beats = settled now s.beats ∧ s'.now = now := by
    rcases result with (_ | _ | _) | _ <;>
      simp only [HeartbeatLoop.settle, Except.ok.injEq, reduceCtorEq] at hs <;> subst hs <;>
      exact ⟨rfl, rfl⟩
  obtain ⟨hbeats, hnow'⟩ := hserial
  refine ⟨?_, fun b hb => ?_, fun _ b hb => ?_⟩
  · rw [OneFuture, hbeats]
    exact hpair
  · rw [hbeats] at hb
    rw [hnow']
    exact hall b (List.mem_of_mem_tail hb)
  · rw [hbeats] at hb
    rw [hnow']
    exact hall b hb

theorem Serial.send (h : s.Serial) (hidle : s.heartbeat = none) {now : ℕ} (hnow : s.now ≤ now) :
    (s.send sc now).Serial := by
  have hsettled : ∀ b ∈ s.beats, b.SettledBy now := fun b hb => by
    obtain ⟨t, ht, hle⟩ := h.last hidle b hb
    exact ⟨t, ht, hle.trans hnow⟩
  exact ⟨List.pairwise_cons.2 ⟨hsettled, h.oneFuture⟩, hsettled, nofun⟩

theorem Serial.select (h : s.Serial) (hs : s.select sc = .ok s') : s'.Serial := by
  unfold HeartbeatLoop.select at hs
  dsimp only at hs
  split_ifs at hs
  split at hs
  · exact h.settle (now_le_wake sc s) hs
  · next hidle =>
      cases hs
      exact h.send hidle (now_le_wake sc s)

theorem Serial.run (h : s.Serial) (hs : s.run sc turns = .ok s') : s'.Serial := by
  induction turns generalizing s with
  | zero =>
      cases hs
      exact h
  | succ turns ih =>
      simp only [HeartbeatLoop.run] at hs
      split at hs
      · next hselect => exact ih (h.select hselect) hs
      · cases hs

end HeartbeatLoop

/-! ## When the attempts are sent -/

section
variable (c : JobWorkerConfig) (sc : Scenario) (claimSentAt start : ℕ)

/-- The moment of the first attempt of a loop entered at `start`. -/
def firstBeat : ℕ := max start (claimSentAt + c.heartbeatInterval)

/-- What attempt `n` comes to within its timeout. -/
def Scenario.outcome (n : ℕ) : ℕ × HeartbeatResult :=
  (sc.attempts n).timeout (c.heartbeatInterval / 3)

def Scenario.Succeeds (n : ℕ) : Prop := (sc.outcome c n).2 = .answered .refreshed

instance (n : ℕ) : Decidable (sc.Succeeds c n) := inferInstanceAs (Decidable (_ = _))

/-- How many attempts in a row have failed after `n` of them, since the claim or the
last success. -/
def Scenario.missed : ℕ → ℕ
  | 0 => 0
  | n + 1 => if sc.Succeeds c n then 0 else Scenario.missed n + 1

/-- The send time of the last refresh after `n` attempts. -/
def Scenario.lastRefresh : ℕ → ℕ
  | 0 => claimSentAt
  | n + 1 =>
      if sc.Succeeds c n then firstBeat c claimSentAt start + n * c.heartbeatInterval
      else Scenario.lastRefresh n

end

section
variable {c : JobWorkerConfig} {sc : Scenario} {claimSentAt start : ℕ} {n : ℕ}

theorem Scenario.outcome_le (n : ℕ) : (sc.outcome c n).1 ≤ c.heartbeatInterval / 3 :=
  Attempt.timeout_le _ _

/-- Every failure since the last refresh is one interval. -/
theorem Scenario.lastRefresh_missed (c : JobWorkerConfig) (sc : Scenario)
    (claimSentAt start n : ℕ) :
    (sc.missed c n = n ∧ sc.lastRefresh c claimSentAt start n = claimSentAt) ∨
      sc.lastRefresh c claimSentAt start n + (sc.missed c n + 1) * c.heartbeatInterval =
        firstBeat c claimSentAt start + n * c.heartbeatInterval := by
  induction n with
  | zero => exact .inl ⟨rfl, rfl⟩
  | succ n ih =>
      simp only [missed, lastRefresh]
      split_ifs with hn
      · right
        ring
      · rcases ih with ⟨hmissed, hlast⟩ | hlast
        · exact .inl ⟨congrArg (· + 1) hmissed, hlast⟩
        · right
          linarith

/-- Where the loop stands once `n` attempts are settled. -/
inductive Standing (c : JobWorkerConfig) (sc : Scenario) (first n : ℕ) :
    ℕ → HeartbeatLoop → Prop
  | idle {s : HeartbeatLoop} (hnone : s.heartbeat = none) (hsent : s.beats.length = n)
      (htick : max s.now s.nextTick = first + n * c.heartbeatInterval) :
      Standing c sc first n (2 * n) s
  | inFlight {s : HeartbeatLoop}
      (hsome : s.heartbeat = some (s.now + (sc.outcome c n).1, (sc.outcome c n).2))
      (hsent : s.beats.length = n + 1) (hnow : s.now = first + n * c.heartbeatInterval)
      (hsentAt : s.heartbeatSentAt = s.now) (htick : s.nextTick = s.now + c.heartbeatInterval) :
      Standing c sc first n (2 * n + 1) s

/-- After so many turns: the attempts are one interval apart, however they come out, and
each takes two turns. -/
def OnTime (c : JobWorkerConfig) (sc : Scenario) (claimSentAt start turns : ℕ)
    (s : HeartbeatLoop) : Prop :=
  ∃ n, Standing c sc (firstBeat c claimSentAt start) n turns s ∧
    s.tracker = c.tracker (sc.lastRefresh c claimSentAt start n)

namespace HeartbeatLoop

variable {s s' : HeartbeatLoop} {turns : ℕ}

theorem settle_ok (s : HeartbeatLoop) (now : ℕ) {result : HeartbeatResult}
    (h : result ≠ .answered .notOwned) : s.settle now result =
      .ok { s with
        now := now, heartbeat := none, beats := settled now s.beats
        tracker := if result = .answered .refreshed
          then { s.tracker with lastRefreshSent := s.heartbeatSentAt } else s.tracker } := by
  rcases result with (_ | _ | _) | _
  · rfl
  · exact absurd rfl h
  · rfl
  · rfl

theorem length_settled (now : ℕ) (beats : List SentBeat) :
    (settled now beats).length = beats.length := by
  cases beats <;> rfl

/-- When the open branch is taken if neither the body nor the watchdog comes first. -/
def ready (s : HeartbeatLoop) : ℕ := max s.now s.readyAt

/-- What one turn can do. -/
theorem select_cases (sc : Scenario) (s : HeartbeatLoop) :
    (s.select sc = .error .bodyReturned ∧ sc.bodyReturnsAt ≠ none) ∨
    (s.select sc = .error .watchdogExpired ∧ s.tracker.deadline ≤ s.ready) ∨
    (s.ready < s.tracker.deadline ∧ sc.bodyReturned s.ready = false ∧
      s.select sc = match s.heartbeat with
        | some (_, result) => s.settle s.ready result
        | none => .ok (s.send sc s.ready)) := by
  have hle : s.wake sc ≤ s.ready := by
    unfold wake ready
    cases sc.bodyReturnsAt <;> dsimp only <;> omega
  unfold HeartbeatLoop.select
  dsimp only
  by_cases hbody : sc.bodyReturned (s.wake sc) = true
  · rw [if_pos hbody]
    refine .inl ⟨rfl, fun hnone => ?_⟩
    simp [Scenario.bodyReturned, hnone] at hbody
  rw [if_neg hbody]
  by_cases hdeadline : s.tracker.deadline ≤ s.wake sc
  · rw [if_pos hdeadline]
    exact .inr (.inl ⟨rfl, hdeadline.trans hle⟩)
  rw [if_neg hdeadline]
  -- neither the body nor the deadline is reached, so the open branch has woken the loop
  have hwake : s.wake sc = s.ready := by
    revert hbody hdeadline
    unfold wake ready Scenario.bodyReturned
    cases sc.bodyReturnsAt <;> simp only [Option.any_none, Option.any_some, decide_eq_true_eq] <;>
      omega
  rw [hwake] at hbody hdeadline ⊢
  exact .inr (.inr ⟨not_le.1 hdeadline, Bool.eq_false_iff.2 hbody, rfl⟩)

/-- What every turn keeps, every run keeps; what ends a turn ends the run. -/
theorem run_keeps (sc : Scenario) (turns : ℕ) {I : ℕ → HeartbeatLoop → Prop} {Q : LoopEnd → Prop}
    (hselect : ∀ turn s, I turn s → (∃ s', s.select sc = .ok s' ∧ I (turn + 1) s') ∨
      ∃ e, s.select sc = .error e ∧ Q e) {turn : ℕ} (h : I turn s) :
    (∃ s', s.run sc turns = .ok s' ∧ I (turn + turns) s') ∨
      ∃ e, s.run sc turns = .error e ∧ Q e := by
  induction turns generalizing turn s with
  | zero => exact .inl ⟨s, rfl, h⟩
  | succ turns ih =>
      rcases hselect turn s h with ⟨s₁, hs₁, h₁⟩ | ⟨e, he, hq⟩
      · simp only [run, hs₁]
        rcases ih h₁ with ⟨s', hs', h'⟩ | hend
        · refine .inl ⟨s', hs', ?_⟩
          rw [Nat.add_right_comm] at h'
          exact h'
        · exact .inr hend
      · simp only [run, he]
        exact .inr ⟨e, rfl, hq⟩

end HeartbeatLoop

section
variable {s : HeartbeatLoop} {turn : ℕ}

/-- An attempt is settled before the next tick, so the ticks keep their pace. -/
theorem OnTime.select (hI : 0 < c.heartbeatInterval) (h : OnTime c sc claimSentAt start turn s)
    (howned : ∀ n, (sc.outcome c n).2 ≠ .answered .notOwned) :
    (s.select sc = .error .bodyReturned ∧ sc.bodyReturnsAt ≠ none) ∨
    (s.select sc = .error .watchdogExpired ∧ s.tracker.deadline ≤ s.ready) ∨
    ∃ s', s.select sc = .ok s' ∧ OnTime c sc claimSentAt start (turn + 1) s' ∧
      s'.now = s.ready ∧ s.ready < s.tracker.deadline ∧ sc.bodyReturned s.ready = false ∧
      (s'.tracker = s.tracker ∨ ∃ n, sc.Succeeds c n ∧
        s.ready = firstBeat c claimSentAt start + n * c.heartbeatInterval + (sc.outcome c n).1) := by
  obtain ⟨n, hstanding, htracker⟩ := h
  rcases s.select_cases sc with hbody | hwatch | ⟨hdeadline, hbody, hselect⟩
  · exact .inl hbody
  · exact .inr (.inl hwatch)
  refine .inr (.inr ?_)
  cases hstanding with
  | idle hnone hsent htick =>
      have hready : s.ready = firstBeat c claimSentAt start + n * c.heartbeatInterval := by
        rw [← htick, HeartbeatLoop.ready, HeartbeatLoop.readyAt, hnone]
      refine ⟨s.send sc s.ready, by rw [hselect, hnone], ⟨n, .inFlight ?_ ?_ hready rfl ?_, htracker⟩,
        rfl, hdeadline, hbody, .inl rfl⟩
      · simp only [HeartbeatLoop.send, hsent, htracker, JobWorkerConfig.tracker, Scenario.outcome]
      · simp only [HeartbeatLoop.send, List.length_cons, hsent]
      · simp only [HeartbeatLoop.send, htracker, JobWorkerConfig.tracker]
  | inFlight hsome hsent hnow hsentAt htick =>
      have hready : s.ready = s.now + (sc.outcome c n).1 := by
        simp only [HeartbeatLoop.ready, HeartbeatLoop.readyAt, hsome]
        omega
      have hlatency : (sc.outcome c n).1 ≤ c.heartbeatInterval / 3 := Scenario.outcome_le n
      have htick' : max s.ready s.nextTick =
          firstBeat c claimSentAt start + (n + 1) * c.heartbeatInterval := by
        rw [htick, hready, hnow, Nat.succ_mul]
        omega
      rw [hsome] at hselect
      refine ⟨_, hselect.trans (s.settle_ok s.ready (howned n)), ⟨n + 1, .idle rfl ?_ htick', ?_⟩,
        rfl, hdeadline, hbody, ?_⟩
      · exact (HeartbeatLoop.length_settled s.ready s.beats).trans hsent
      · simp only [Scenario.lastRefresh, ← hnow, ← hsentAt, htracker, Scenario.Succeeds]
        split_ifs <;> rfl
      · by_cases hsuccess : sc.Succeeds c n
        · exact .inr ⟨n, hsuccess, by rw [hready, hnow]⟩
        · exact .inl (if_neg hsuccess)

end

/-! ## Tolerance -/

/-- Every heartbeat is a success or a failure within its timeout, and at most `k - 2` in
a row are failures after the claim or after a success. -/
structure Scenario.Tolerable (c : JobWorkerConfig) (k : ℕ) (sc : Scenario) : Prop where
  owned : ∀ n, (sc.outcome c n).2 ≠ .answered .notOwned
  missed : ∀ n, sc.missed c n ≤ k - 2

/-- The loop is entered so soon after the claim was sent that attempt `k - 1`, if it is
the first to succeed, is settled before the lease runs out. -/
def JobWorkerConfig.AnsweredInTime (c : JobWorkerConfig) (k claimSentAt start : ℕ) : Prop :=
  start + (k - 2) * c.heartbeatInterval + c.heartbeatInterval / 3 < (c.tracker claimSentAt).deadline

section
variable {k : ℕ}

theorem k_intervals (hk : 3 ≤ k) (I : ℕ) : (k - 2) * I + 2 * I = k * I := by
  rw [← Nat.add_mul, Nat.sub_add_cancel (by omega)]

/-- A claim that is answered within one interval is answered in time. -/
theorem JobWorkerConfig.answeredInTime_of_le (hI : 0 < c.heartbeatInterval) (hk : 3 ≤ k)
    (hwindow : k * c.heartbeatInterval ≤ c.reclaimWindow)
    (hstart : start ≤ claimSentAt + c.heartbeatInterval) : c.AnsweredInTime k claimSentAt start := by
  have hintervals := k_intervals hk c.heartbeatInterval
  simp only [AnsweredInTime, LeaseTracker.deadline, tracker]
  omega

theorem JobWorkerConfig.AnsweredInTime.first (hI : 0 < c.heartbeatInterval) (hk : 3 ≤ k)
    (hwindow : k * c.heartbeatInterval ≤ c.reclaimWindow)
    (h : c.AnsweredInTime k claimSentAt start) :
    c.AnsweredInTime k claimSentAt (firstBeat c claimSentAt start) := by
  rcases max_choice start (claimSentAt + c.heartbeatInterval) with hmax | hmax
  · rwa [firstBeat, hmax]
  · rw [firstBeat, hmax]
    exact answeredInTime_of_le hI hk hwindow (Nat.le_refl _)

/-- Whenever an attempt is sent or settled, the lease has not run out. -/
theorem Scenario.Tolerable.margin (h : sc.Tolerable c k) (hI : 0 < c.heartbeatInterval)
    (hk : 3 ≤ k) (hwindow : k * c.heartbeatInterval ≤ c.reclaimWindow)
    (hanswer : c.AnsweredInTime k claimSentAt start) (n : ℕ) :
    firstBeat c claimSentAt start + n * c.heartbeatInterval + c.heartbeatInterval / 3 <
      (c.tracker (sc.lastRefresh c claimSentAt start n)).deadline := by
  have hmissed : sc.missed c n * c.heartbeatInterval ≤ (k - 2) * c.heartbeatInterval :=
    Nat.mul_le_mul_right _ (h.missed n)
  rcases sc.lastRefresh_missed c claimSentAt start n with
    ⟨hall, hlast⟩ | hlast
  · have hfirst := hanswer.first hI hk hwindow
    rw [hall] at hmissed
    rw [hlast]
    simp only [JobWorkerConfig.AnsweredInTime] at hfirst
    omega
  · have hintervals := k_intervals hk c.heartbeatInterval
    rw [Nat.succ_mul] at hlast
    simp only [LeaseTracker.deadline, JobWorkerConfig.tracker]
    omega

theorem OnTime.ready_le (h : OnTime c sc claimSentAt start turn s) :
    ∃ n, s.tracker = c.tracker (sc.lastRefresh c claimSentAt start n) ∧
      s.ready ≤ firstBeat c claimSentAt start + n * c.heartbeatInterval + c.heartbeatInterval / 3 := by
  obtain ⟨n, hstanding, htracker⟩ := h
  refine ⟨n, htracker, ?_⟩
  cases hstanding with
  | idle hnone hsent htick =>
      rw [← htick, HeartbeatLoop.ready, HeartbeatLoop.readyAt, hnone]
      exact Nat.le_add_right _ _
  | inFlight hsome hsent hnow hsentAt htick =>
      have hlatency : (sc.outcome c n).1 ≤ c.heartbeatInterval / 3 := Scenario.outcome_le n
      simp only [HeartbeatLoop.ready, HeartbeatLoop.readyAt, hsome]
      omega

/-- The loop runs on, or its body has returned. -/
theorem Scenario.Tolerable.run (h : sc.Tolerable c k) (hI : 0 < c.heartbeatInterval)
    (hk : 3 ≤ k) (hwindow : k * c.heartbeatInterval ≤ c.reclaimWindow)
    (hanswer : c.AnsweredInTime k claimSentAt start) (hs : OnTime c sc claimSentAt start 0 s)
    (turns : ℕ) :
    (∃ s', s.run sc turns = .ok s' ∧ OnTime c sc claimSentAt start turns s' ∧
      (0 < turns → sc.bodyReturned s'.now = false)) ∨ s.run sc turns = .error .bodyReturned := by
  have hrun := HeartbeatLoop.run_keeps sc turns
    (I := fun turn s => OnTime c sc claimSentAt start turn s ∧
      (0 < turn → sc.bodyReturned s.now = false)) (Q := (· = .bodyReturned))
    (fun turn s ⟨hs, _⟩ => ?_) ⟨hs, fun hpos => absurd hpos (Nat.lt_irrefl 0)⟩
  · simpa only [Nat.zero_add, exists_eq_right] using hrun
  · rcases hs.select hI h.owned with ⟨hbody, -⟩ | ⟨-, hdeadline⟩ | ⟨s', hs', htime, hnow, -, hbody, -⟩
    · exact .inr ⟨_, hbody, rfl⟩
    · obtain ⟨n, htracker, hready⟩ := hs.ready_le
      have hmargin := h.margin hI hk hwindow hanswer n
      rw [htracker] at hdeadline
      omega
    · exact .inl ⟨s', hs', htime, fun _ => hnow ▸ hbody⟩

/-- Time has passed by one interval for every second turn. -/
theorem OnTime.turn_le (h : OnTime c sc claimSentAt start turn s) (hI : 0 < c.heartbeatInterval)
    {n : ℕ} (hn : turn = 2 * n + 1) : n ≤ s.now := by
  obtain ⟨n', hstanding, -⟩ := h
  have hle : n ≤ n * c.heartbeatInterval := Nat.le_mul_of_pos_right n hI
  cases hstanding with
  | idle => omega
  | inFlight hsome hsent hnow =>
      obtain rfl : n' = n := by omega
      omega

theorem JobWorkerConfig.enterLoop_ok (sc : Scenario) {c : JobWorkerConfig} {claimSentAt start : ℕ}
    {s : HeartbeatLoop} (hs : c.enterLoop claimSentAt start = .ok s) :
    s.beats = [] ∧ s.tracker = c.tracker claimSentAt ∧ OnTime c sc claimSentAt start 0 s := by
  unfold enterLoop at hs
  split_ifs at hs
  cases hs
  refine ⟨rfl, rfl, 0, .idle rfl rfl ?_, rfl⟩
  simp [firstBeat]

/-- The loop of a job whose claim was answered in time runs on, or its body has returned. -/
theorem Scenario.Tolerable.runNextJob (h : sc.Tolerable c k) (hI : 0 < c.heartbeatInterval)
    (hk : 3 ≤ k) (hwindow : k * c.heartbeatInterval ≤ c.reclaimWindow)
    (hanswer : c.AnsweredInTime k claimSentAt start) (turns : ℕ) :
    (∃ s, c.runNextJob sc claimSentAt start turns = .ok s ∧
      OnTime c sc claimSentAt start turns s ∧ (0 < turns → sc.bodyReturned s.now = false)) ∨
    c.runNextJob sc claimSentAt start turns = .error .bodyReturned := by
  have hentered : ¬ (c.tracker claimSentAt).deadline ≤ start := by
    simp only [JobWorkerConfig.AnsweredInTime] at hanswer
    omega
  unfold JobWorkerConfig.runNextJob
  cases henter : c.enterLoop claimSentAt start with
  | error e =>
      unfold JobWorkerConfig.enterLoop at henter
      rw [if_neg hentered] at henter
      cases henter
  | ok s =>
      exact h.run hI hk hwindow hanswer (JobWorkerConfig.enterLoop_ok sc henter).2.2 turns

end

/-! ## The boundary -/

/-- Nothing refreshes the lease as long as no success comes before it runs out. -/
theorem OnTime.fires (hs : OnTime c sc claimSentAt start 0 s) (hI : 0 < c.heartbeatInterval)
    (htracker : s.tracker = c.tracker claimSentAt) (hbody : sc.bodyReturnsAt = none)
    (howned : ∀ n, (sc.outcome c n).2 ≠ .answered .notOwned)
    (hlate : ∀ n, sc.Succeeds c n → (c.tracker claimSentAt).deadline ≤
      firstBeat c claimSentAt start + n * c.heartbeatInterval + (sc.outcome c n).1) :
    ∃ turns, s.run sc turns = .error .watchdogExpired := by
  -- the run cannot get past the deadline of a tracker that stays the claim's
  let turns := 2 * (c.tracker claimSentAt).deadline + 1
  have hrun := HeartbeatLoop.run_keeps sc turns
    (I := fun turn s => OnTime c sc claimSentAt start turn s ∧
      s.tracker = c.tracker claimSentAt ∧ (0 < turn → s.now < (c.tracker claimSentAt).deadline))
    (Q := (· = .watchdogExpired)) (fun turn s ⟨hs, htracker, _⟩ => ?_)
    ⟨hs, htracker, fun hpos => absurd hpos (Nat.lt_irrefl 0)⟩
  · rcases hrun with ⟨s', -, htime, -, hnow⟩ | ⟨e, he, rfl⟩
    · have hpast := htime.turn_le hI (Nat.zero_add turns)
      have hnow := hnow (by omega)
      omega
    · exact ⟨turns, he⟩
  · rcases hs.select hI howned with
      ⟨-, hreturns⟩ | ⟨hwatch, -⟩ | ⟨s', hs', htime, hnow, hdeadline, -, hrefresh⟩
    · exact absurd hbody hreturns
    · exact .inr ⟨_, hwatch, rfl⟩
    · rw [htracker] at hdeadline
      refine .inl ⟨s', hs', htime, ?_, fun _ => hnow ▸ hdeadline⟩
      rcases hrefresh with hkept | ⟨n, hsuccess, hready⟩
      · rw [hkept, htracker]
      · have hlate := hlate n hsuccess
        omega

/-- The watchdog stops a job whose claim was answered too late or that is not refreshed
in time. -/
theorem JobWorkerConfig.stopped (c : JobWorkerConfig) (hI : 0 < c.heartbeatInterval)
    (hbody : sc.bodyReturnsAt = none) (howned : ∀ n, (sc.outcome c n).2 ≠ .answered .notOwned)
    (hlate : ∀ n, sc.Succeeds c n → (c.tracker claimSentAt).deadline ≤
      firstBeat c claimSentAt start + n * c.heartbeatInterval + (sc.outcome c n).1) :
    ∃ turns e, c.runNextJob sc claimSentAt start turns = .error e ∧ e ≠ .bodyReturned := by
  unfold runNextJob
  cases henter : c.enterLoop claimSentAt start with
  | error e =>
      refine ⟨0, e, rfl, ?_⟩
      rintro rfl
      unfold enterLoop at henter
      split_ifs at henter
      cases henter
  | ok s =>
      obtain ⟨-, htracker, htime⟩ := enterLoop_ok sc henter
      obtain ⟨turns, hturns⟩ := htime.fires hI htracker hbody howned hlate
      exact ⟨turns, _, hturns, nofun⟩

/-- With a window of less than `k` and a half intervals, `k - 1` failures after the claim
are one too many, whatever comes after them. -/
theorem JobWorkerConfig.stopped_at_boundary {c : JobWorkerConfig} {k : ℕ}
    (hI : 0 < c.heartbeatInterval) (hk : 3 ≤ k)
    (hwindow : c.reclaimWindow ≤ k * c.heartbeatInterval + c.heartbeatInterval / 2)
    (hbody : sc.bodyReturnsAt = none) (howned : ∀ n, (sc.outcome c n).2 ≠ .answered .notOwned)
    (hfail : ∀ n < k - 1, ¬ sc.Succeeds c n) :
    ∃ turns e, c.runNextJob sc claimSentAt start turns = .error e ∧ e ≠ .bodyReturned := by
  refine c.stopped hI hbody howned fun n hsuccess => ?_
  have hle : k - 1 ≤ n := not_lt.1 fun hlt => hfail n hlt hsuccess
  have hn : (k - 2 + 1) * c.heartbeatInterval ≤ n * c.heartbeatInterval :=
    Nat.mul_le_mul_right _ (by omega)
  have hintervals := k_intervals hk c.heartbeatInterval
  have hfirst : claimSentAt + c.heartbeatInterval ≤ firstBeat c claimSentAt start :=
    Nat.le_max_right _ _
  rw [Nat.succ_mul] at hn
  simp only [LeaseTracker.deadline, tracker]
  omega

/-- `k - 2` failures, then one success after another, each at the very timeout. -/
def Scenario.slow (c : JobWorkerConfig) (k : ℕ) (bodyReturnsAt : Option ℕ) : Scenario where
  attempts n := if n < k - 2 then ⟨some 0, .failed⟩ else ⟨some (c.heartbeatInterval / 3), .refreshed⟩
  bodyReturnsAt := bodyReturnsAt

theorem Scenario.slow_outcome (c : JobWorkerConfig) (k : ℕ) (body : Option ℕ) (n : ℕ) :
    (Scenario.slow c k body).outcome c n =
      if n < k - 2 then (0, .answered .failed)
      else (c.heartbeatInterval / 3, .answered .refreshed) := by
  by_cases hn : n < k - 2
  · simp [outcome, slow, Attempt.timeout, hn]
  · simp [outcome, slow, Attempt.timeout, hn]

theorem Scenario.missed_le (c : JobWorkerConfig) (sc : Scenario) (n : ℕ) : sc.missed c n ≤ n := by
  induction n with
  | zero => exact Nat.le_refl 0
  | succ n ih =>
      simp only [missed]
      split_ifs <;> omega

theorem Scenario.slow_tolerable (c : JobWorkerConfig) (k : ℕ) (body : Option ℕ) :
    (Scenario.slow c k body).Tolerable c k where
  owned n := by
    rw [slow_outcome]
    split_ifs <;> simp
  missed n := by
    cases n with
    | zero => exact Nat.zero_le _
    | succ n =>
        have hle := Scenario.missed_le c (Scenario.slow c k body) n
        by_cases hn : n < k - 2
        · simp only [Scenario.missed, Succeeds, slow_outcome, hn]
          split_ifs <;> omega
        · simp [Scenario.missed, Succeeds, slow_outcome, hn]

/-- Only a claim that is answered in time leaves room for all of these failures. -/
theorem JobWorkerConfig.answeredInTime_of_spared {c : JobWorkerConfig} {k : ℕ}
    (hI : 0 < c.heartbeatInterval)
    (h : ∀ turns e, c.runNextJob (Scenario.slow c k none) claimSentAt start turns = .error e →
      e = .bodyReturned) : c.AnsweredInTime k claimSentAt start := by
  by_contra hanswer
  have hlate : ∀ n, (Scenario.slow c k none).Succeeds c n → (c.tracker claimSentAt).deadline ≤
      firstBeat c claimSentAt start + n * c.heartbeatInterval +
        ((Scenario.slow c k none).outcome c n).1 := by
    intro n hsuccess
    simp only [Scenario.Succeeds, Scenario.slow_outcome] at hsuccess ⊢
    split_ifs at hsuccess ⊢ with hn
    · cases hsuccess
    · have hn : (k - 2) * c.heartbeatInterval ≤ n * c.heartbeatInterval :=
        Nat.mul_le_mul_right _ (not_lt.1 hn)
      have hfirst : start ≤ firstBeat c claimSentAt start := Nat.le_max_left _ _
      simp only [AnsweredInTime, not_lt] at hanswer
      dsimp only
      omega
  obtain ⟨turns, e, he, hne⟩ := c.stopped hI rfl (Scenario.slow_tolerable c k none).owned hlate
  exact hne (h turns e he)

end

/-! ## The claim of a lease -/

/-- With a window of `k` intervals, the job is left to run through any heartbeats of which
at most `k - 2` in a row fail exactly if its claim was answered in time; its body then
gets to its end; and there is never more than one heartbeat future. -/
theorem heartbeat_tolerance {c : JobWorkerConfig} {window k : ℕ}
    (hvalid : c.validate = .ok window) (hk : 3 ≤ k)
    (hwindow : k * c.heartbeatInterval ≤ c.reclaimWindow) (claimSentAt start : ℕ) :
    (c.AnsweredInTime k claimSentAt start ↔ ∀ sc : Scenario, sc.Tolerable c k → ∀ turns e,
      c.runNextJob sc claimSentAt start turns = .error e → e = .bodyReturned) ∧
    (c.AnsweredInTime k claimSentAt start → ∀ sc : Scenario, sc.Tolerable c k → ∀ t,
      sc.bodyReturnsAt = some t →
        ∃ turns, c.runNextJob sc claimSentAt start turns = .error .bodyReturned) ∧
    ∀ sc turns s, c.runNextJob sc claimSentAt start turns = .ok s → s.OneFuture := by
  have hI := (JobWorkerConfig.validate_ok hvalid).1
  refine ⟨⟨fun hanswer sc hsc turns e he => ?_, fun h => ?_⟩, fun hanswer sc hsc t ht => ?_,
    fun sc turns s hs => ?_⟩
  · rcases hsc.runNextJob hI hk hwindow hanswer turns with ⟨s, hs, -⟩ | hreturned
    · rw [hs] at he
      cases he
    · rw [hreturned] at he
      cases he
      rfl
  · exact JobWorkerConfig.answeredInTime_of_spared hI (h _ (Scenario.slow_tolerable c k none))
  · refine ⟨2 * t + 1, ?_⟩
    rcases hsc.runNextJob hI hk hwindow hanswer (2 * t + 1) with ⟨s, -, htime, hbody⟩ | hreturned
    · -- by then an interval for each nanosecond of the body has passed
      have hpast := htime.turn_le hI rfl
      have hbody := hbody (Nat.succ_pos _)
      simp only [Scenario.bodyReturned, ht, Option.any_some, decide_eq_false_iff_not] at hbody
      exact absurd hpast hbody
    · exact hreturned
  · unfold JobWorkerConfig.runNextJob at hs
    split at hs
    · next s₀ henter =>
        obtain ⟨hbeats, -⟩ := JobWorkerConfig.enterLoop_ok sc henter
        have hserial : s₀.Serial :=
          ⟨by simp [HeartbeatLoop.OneFuture, hbeats], by simp [hbeats], by simp [hbeats]⟩
        exact (hserial.run hs).oneFuture
    · cases hs

/-- Five intervals of 800 ms tolerate three failures of a job that runs for 13 s. -/
theorem heartbeat_tolerance_five : ∃ turns,
    (JobWorkerConfig.mk 800000000 4000000000).runNextJob
      (Scenario.slow ⟨800000000, 4000000000⟩ 5 (some 13000000000)) 0 5000000 turns =
        .error .bodyReturned := by
  have hvalid : JobWorkerConfig.validate ⟨800000000, 4000000000⟩ = .ok 4000000 := rfl
  have hanswer : JobWorkerConfig.AnsweredInTime ⟨800000000, 4000000000⟩ 5 0 5000000 := by
    unfold JobWorkerConfig.AnsweredInTime
    decide
  exact (heartbeat_tolerance hvalid (by decide) (by decide) 0 5000000).2.1 hanswer _
    (Scenario.slow_tolerable _ 5 _) 13000000000 rfl

/-- Every heartbeat is answered after 100 ms. -/
def promptBeats : Scenario := ⟨fun _ => ⟨some 100000000, .refreshed⟩, none⟩

/-- A claim that is answered 1.95 s after it was sent leaves no time for a heartbeat. -/
theorem late_claim_stopped :
    (JobWorkerConfig.mk 800000000 2400000000).validate = .ok 2400000 ∧
    3 * 800000000 ≤ 2400000000 ∧ promptBeats.Tolerable ⟨800000000, 2400000000⟩ 3 ∧
    (JobWorkerConfig.mk 800000000 2400000000).runNextJob promptBeats 0 1950000000 2 =
      .error .watchdogExpired := by
  have houtcome : ∀ n, promptBeats.outcome ⟨800000000, 2400000000⟩ n =
      (100000000, .answered .refreshed) := fun _ => rfl
  refine ⟨rfl, by decide, ⟨fun n => ?_, fun n => ?_⟩, rfl⟩
  · rw [houtcome]
    decide
  · cases n with
    | zero => decide
    | succ n => simp [Scenario.missed, Scenario.Succeeds, houtcome]

end Cja.Jobs
