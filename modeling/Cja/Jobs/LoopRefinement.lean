import Cja.Jobs.Heartbeat
import Cja.Jobs.Steps

/-!
# The heartbeat loop in the queue

A run of the loop is a run of the queue in which only its worker and the clock take
steps, as long as each heartbeat's answer is the one that the database gives it. So what
is proved of the loop is about the worker of the queue.
-/
namespace Cja.Jobs

open StepRun

variable {P : Type} {cfg : OwnerToken → Settings} {s : State P} {w : OwnerToken}
variable {job : JobFromDB P} {L L' : HeartbeatLoop} {sc : Scenario}

/-- An answer that the database gives where the worker owns the row or not. -/
def HeartbeatResult.Agrees (owned : Bool) : HeartbeatResult → Prop
  | .answered .refreshed => owned = true
  | .answered .notOwned => owned = false
  | .answered .failed | .elapsed => True

/-- The worker is in the loop on its job. The database takes a heartbeat in flight only at
the moment of its answer. -/
structure HeartbeatLoop.At (L : HeartbeatLoop) (s : State P) (w : OwnerToken) (job : JobFromDB P) :
    Prop where
  now : s.now = L.now
  phase : (s.workers w).phase = .running job L.tracker L.nextTick
    (L.heartbeat.map fun _ => ⟨L.heartbeatSentAt, none⟩)
  sentAt : L.heartbeatSentAt ≤ L.now
  agrees : ∀ beat ∈ L.heartbeat, beat.2.Agrees (s.owns w job.jobId)

/-- How the worker leaves the loop. -/
def LoopEnd.Left (job : JobFromDB P) (wk : Worker P) : LoopEnd → Prop
  | .bodyReturned => ∃ error, wk.phase = .returned job error
  | .watchdogExpired | .claimExceededDeadline => wk.phase = .idle ∧ job.jobId ∈ wk.abandoned
  | .ownershipLost => wk.phase = .idle

theorem owns_heartbeatRow (s : State P) (w : OwnerToken) (j : Uuid) (now : ℕ) :
    (s.setDb (heartbeatRow w j now s.db).1).owns w j = s.owns w j := by
  have hlook : (heartbeatRow w j now s.db).1.jobs.lookup j = _ :=
    KeyedTable.lookup_update s.db.jobs (JobRow.ownedBy j w) (JobRow.refreshed now)
      (JobRow.refreshed_jobId now) j
  simp only [State.owns, State.setDb, hlook]
  cases s.db.jobs.lookup j with
  | none => rfl
  | some r =>
      simp only [Option.map_some, Option.any_some]
      split_ifs <;> rfl

theorem heartbeatRow_answer (s : State P) (w : OwnerToken) (j : Uuid) (now : ℕ) :
    ((heartbeatRow w j now s.db).2 == 1) = s.owns w j := by
  simp only [heartbeatRow, affected_owned, State.owns]
  split_ifs with howned
  · simp [howned]
  · simp [Bool.eq_false_iff.2 howned]

theorem free_step {log log' : List Event} {s₀ s' : State P} {a : Action P}
    (h : Run (step cfg) Free s₀ log s) (hs : step cfg s a = some (s', log')) :
    Run (step cfg) Free s₀ (log ++ log') s' := .snoc h trivial hs

/-- The clock runs until a branch is ready. -/
theorem HeartbeatLoop.At.wait (h : L.At s w job) {t : ℕ} (ht : L.now ≤ t) :
    Run (step cfg) Free s ([] ++ []) { s with now := t } := by
  have hstep : step cfg s (.tick (t - L.now)) = some ({ s with now := t }, []) := by
    simp only [step, h.now, Nat.add_sub_cancel' ht]
  exact free_step .start hstep

/-- What the worker's steps in one turn lead to. -/
def Leads (cfg : OwnerToken → Settings) (s : State P) (w : OwnerToken) (job : JobFromDB P) :
    Except LoopEnd HeartbeatLoop → Prop
  | .ok L' => ∃ log s', Run (step cfg) Free s log s' ∧ L'.At s' w job ∧
      s'.owns w job.jobId = s.owns w job.jobId
  | .error e => ∃ log s', Run (step cfg) Free s log s' ∧ e.Left job (s'.workers w)

theorem Leads.trans {s₁ : State P} {log : List Event} {r : Except LoopEnd HeartbeatLoop}
    (hrun : Run (step cfg) Free s log s₁) (howns : s₁.owns w job.jobId = s.owns w job.jobId)
    (h : Leads cfg s₁ w job r) : Leads cfg s w job r := by
  cases r with
  | ok L' =>
      obtain ⟨log', s', hrun', hat, howns'⟩ := h
      exact ⟨_, s', hrun.trans hrun', hat, howns'.trans howns⟩
  | error e =>
      obtain ⟨log', s', hrun', hleft⟩ := h
      exact ⟨_, s', hrun.trans hrun', hleft⟩

namespace HeartbeatLoop.At

theorem ready_le (L : HeartbeatLoop) : L.now ≤ L.ready := Nat.le_max_left _ _

theorem returns (h : L.At s w job) : Leads cfg s w job (.error .bodyReturned) := by
  have hstep : step cfg s (.bodyReturns w none) =
      some (s.setWorker w ((s.workers w).leave (.returned job none)),
        [.returned w job.jobId true (s.owns w job.jobId)]) := by
    simp only [step, State.bodyReturns, h.phase, Option.isNone_none]
  refine ⟨_, _, free_step .start hstep, none, ?_⟩
  rw [State.setWorker_self, Worker.leave_phase]

theorem expires (h : L.At s w job) (hdeadline : L.tracker.deadline ≤ L.ready) :
    Leads cfg s w job (.error .watchdogExpired) := by
  let s₁ : State P := { s with now := L.ready }
  have hstep : step cfg s₁ (.watchdog w) =
      some (s₁.setWorker w (((s.workers w).leave .idle).abandon job.jobId),
        [.abandoned w job.jobId]) := by
    simp only [step, State.watchdog, s₁, h.phase, if_pos hdeadline]
  refine ⟨_, _, free_step (h.wait (ready_le L)) hstep, ?_, ?_⟩
  · rw [State.setWorker_self]
    rfl
  · rw [State.setWorker_self]
    exact List.mem_cons_self

theorem sends (h : L.At s w job) (hidle : L.heartbeat = none)
    (hagrees : ((sc.attempts L.beats.length).timeout
      (L.tracker.heartbeatInterval / 3)).2.Agrees (s.owns w job.jobId)) :
    Leads cfg s w job (.ok (L.send sc L.ready)) := by
  let s₁ : State P := { s with now := L.ready }
  have hphase : (s.workers w).phase = .running job L.tracker L.nextTick none := by
    rw [h.phase, hidle]
    rfl
  have htick : L.nextTick ≤ L.ready := by
    simp only [HeartbeatLoop.ready, HeartbeatLoop.readyAt, hidle]
    exact Nat.le_max_right _ _
  have hstep : step cfg s₁ (.sendBeat w) =
      some (s₁.setPhase w (.running job L.tracker (L.ready + L.tracker.heartbeatInterval)
        (some ⟨L.ready, none⟩)), []) := by
    simp only [step, State.sendBeat, s₁, hphase, if_pos htick]
  refine ⟨_, _, free_step (h.wait (ready_le L)) hstep, ⟨rfl, ?_, Nat.le_refl _, ?_⟩, rfl⟩
  · rw [State.setPhase_eq, State.setWorker_self]
    rfl
  · rintro beat hbeat
    cases hbeat
    exact hagrees

/-- The database takes the heartbeat, and the worker its answer. -/
theorem answered (cfg : OwnerToken → Settings) (h : L.At s w job) {ready : ℕ} {result : HeartbeatResult}
    (hsome : L.heartbeat = some (ready, result)) :
    ∃ log s₂, Run (step cfg) Free s log s₂ ∧ s₂.now = L.ready ∧
      s₂.owns w job.jobId = s.owns w job.jobId ∧
      (s₂.workers w).phase = .running job L.tracker L.nextTick
        (some ⟨L.heartbeatSentAt, some (s.owns w job.jobId)⟩) := by
  let s₁ : State P := { s with now := L.ready }
  have hphase : (s.workers w).phase =
      .running job L.tracker L.nextTick (some ⟨L.heartbeatSentAt, none⟩) := by
    rw [h.phase, hsome]
    rfl
  have hstamp : stampable L.heartbeatSentAt (L.ready / 1000) L.ready = true := by
    have hle : L.heartbeatSentAt / 1000 ≤ L.ready / 1000 :=
      Nat.div_le_div_right (h.sentAt.trans (ready_le L))
    simp [stampable, hle]
  have hstep : step cfg s₁ (.applyBeat w (L.ready / 1000)) =
      some ((s₁.setPhase w (.running job L.tracker L.nextTick
          (some ⟨L.heartbeatSentAt, some (s.owns w job.jobId)⟩))).setDb
        (heartbeatRow w job.jobId (L.ready / 1000) s.db).1, []) := by
    have hanswer := heartbeatRow_answer s w job.jobId (L.ready / 1000)
    simp only [step, State.applyBeat, s₁, hphase, hstamp, if_pos, hanswer]
  refine ⟨_, _, free_step (h.wait (ready_le L)) hstep, rfl, ?_, ?_⟩
  · exact owns_heartbeatRow s₁ w job.jobId _
  · rw [State.setDb_workers, State.setPhase_eq, State.setWorker_self]

theorem settles (h : L.At s w job) {ready : ℕ} {result : HeartbeatResult}
    (hsome : L.heartbeat = some (ready, result)) :
    Leads cfg s w job (L.settle L.ready result) := by
  have hagrees : result.Agrees (s.owns w job.jobId) := h.agrees (ready, result) hsome
  have hsentAt : L.heartbeatSentAt ≤ L.ready := h.sentAt.trans (ready_le L)
  have hnone {s' : State P} : ∀ beat ∈ (none : Option (ℕ × HeartbeatResult)),
      beat.2.Agrees (s'.owns w job.jobId) :=
    fun beat hbeat => absurd hbeat (Option.not_mem_none beat)
  have hlost : Leads cfg s w job (.ok { L with
      now := L.ready, heartbeat := none, beats := settled L.ready L.beats }) := by
    let s₁ : State P := { s with now := L.ready }
    have hphase : (s.workers w).phase =
        .running job L.tracker L.nextTick (some ⟨L.heartbeatSentAt, none⟩) := by
      rw [h.phase, hsome]
      rfl
    have hstep : step cfg s₁ (.loseBeat w) =
        some (s₁.setWorker w ((s.workers w).leave (.running job L.tracker L.nextTick none)), []) := by
      simp only [step, State.loseBeat, s₁, hphase]
    refine ⟨_, _, free_step (h.wait (ready_le L)) hstep, ⟨rfl, ?_, hsentAt, hnone⟩, rfl⟩
    rw [State.setWorker_self, Worker.leave_phase]
    rfl
  rcases result with (_ | _ | _) | _
  · obtain ⟨log, s₂, hrun, hnow, howns, hphase⟩ := h.answered cfg hsome
    rw [show s.owns w job.jobId = true from hagrees] at hphase
    have hstep : step cfg s₂ (.receiveBeat w) =
        some (s₂.setPhase w (.running job { L.tracker with lastRefreshSent := L.heartbeatSentAt }
          L.nextTick none), []) := by
      simp only [step, State.receiveBeat, hphase]
    refine ⟨_, _, free_step hrun hstep, ⟨hnow, ?_, hsentAt, hnone⟩, howns⟩
    rw [State.setPhase_eq, State.setWorker_self]
    rfl
  · obtain ⟨log, s₂, hrun, hnow, howns, hphase⟩ := h.answered cfg hsome
    rw [show s.owns w job.jobId = false from hagrees] at hphase
    have hstep : step cfg s₂ (.receiveBeat w) = some (s₂.setPhase w .idle, []) := by
      simp only [step, State.receiveBeat, hphase]
    refine ⟨_, _, free_step hrun hstep, ?_⟩
    rw [State.setPhase_eq, State.setWorker_self]
    rfl
  · exact hlost
  · exact hlost

/-- A turn of the loop is a run of the queue. -/
theorem select (h : L.At s w job)
    (hagrees : ∀ n, ((sc.attempts n).timeout
      (L.tracker.heartbeatInterval / 3)).2.Agrees (s.owns w job.jobId)) :
    Leads cfg s w job (L.select sc) := by
  rcases L.select_cases sc with ⟨hbody, -⟩ | ⟨hwatch, hdeadline⟩ | ⟨-, -, hselect⟩
  · rw [hbody]
    exact h.returns
  · rw [hwatch]
    exact h.expires hdeadline
  · rw [hselect]
    split
    · next hsome => exact h.settles hsome
    · next hidle => exact h.sends hidle (hagrees _)

end HeartbeatLoop.At

/-- Turns leave the intervals of the tracker alone. -/
theorem HeartbeatLoop.select_interval (hs : L.select sc = .ok L') :
    L'.tracker.heartbeatInterval = L.tracker.heartbeatInterval := by
  rcases L.select_cases sc with ⟨hbody, -⟩ | ⟨hwatch, -⟩ | ⟨-, -, hselect⟩
  · rw [hbody] at hs
    cases hs
  · rw [hwatch] at hs
    cases hs
  · rw [hselect] at hs
    split at hs
    · next result hsome =>
        rcases result with (_ | _ | _) | _ <;> cases hs <;> rfl
    · cases hs
      rfl

/-- A run of the loop is a run of the queue. -/
theorem HeartbeatLoop.At.run (h : L.At s w job)
    (hagrees : ∀ n, ((sc.attempts n).timeout
      (L.tracker.heartbeatInterval / 3)).2.Agrees (s.owns w job.jobId)) (turns : ℕ) :
    Leads cfg s w job (L.run sc turns) := by
  induction turns generalizing L s with
  | zero => exact ⟨[], s, .start, h, rfl⟩
  | succ turns ih =>
      have hturn : Leads cfg s w job (L.select sc) := h.select hagrees
      simp only [HeartbeatLoop.run]
      split
      · next L₁ hselect =>
          rw [hselect] at hturn
          obtain ⟨log, s₁, hrun, hat, howns⟩ := hturn
          refine Leads.trans hrun howns (ih hat fun n => ?_)
          rw [howns, HeartbeatLoop.select_interval hselect]
          exact hagrees n
      · next e hselect =>
          rw [hselect] at hturn
          exact hturn

/-- `run_next_job` on a claim that arrived is a run of the queue. -/
theorem runNextJob_leads {c : ClaimedJob P} (hp : (s.workers w).phase = .fetched (some c))
    (hlim : ¬ (c.previousLockedBy.isSome ∧ (cfg w).maxRetries ≤ c.previousErrorCount))
    (hsent : c.claimSentAt ≤ s.now)
    (hagrees : ∀ n, (sc.outcome (cfg w).config n).2.Agrees (s.owns w c.job.jobId)) (turns : ℕ) :
    Leads cfg s w c.job ((cfg w).config.runNextJob sc c.claimSentAt s.now turns) := by
  have htracker : c.tracker (cfg w) = (cfg w).config.tracker c.claimSentAt := rfl
  unfold JobWorkerConfig.runNextJob JobWorkerConfig.enterLoop
  rw [← htracker]
  by_cases hlate : (c.tracker (cfg w)).deadline ≤ s.now
  · rw [if_pos hlate]
    have hstep : step cfg s (.receiveClaim w) =
        some (s.setWorker w { ((s.workers w).reclaim c.job.jobId).abandon c.job.jobId with
          phase := .idle }, [.abandoned w c.job.jobId]) := by
      simp only [step, State.receiveClaim, hp, if_neg hlim, if_pos hlate]
    refine ⟨_, _, free_step .start hstep, ?_, ?_⟩
    · rw [State.setWorker_self]
    · rw [State.setWorker_self]
      exact List.mem_cons_self
  · rw [if_neg hlate]
    let s₁ : State P := s.setWorker w { (s.workers w).reclaim c.job.jobId with
      phase := .running c.job (c.tracker (cfg w))
        (c.claimSentAt + (cfg w).config.heartbeatInterval) none }
    have hstep : step cfg s (.receiveClaim w) =
        some (s₁, [.dispatched w c.job.jobId c.job.errorCount]) := by
      simp only [step, State.receiveClaim, hp, if_neg hlim, if_neg hlate, s₁]
    refine Leads.trans (free_step .start hstep) rfl
      (HeartbeatLoop.At.run ⟨rfl, ?_, hsent, fun _ hbeat => by cases hbeat⟩ hagrees turns)
    rw [State.setWorker_self]
    rfl

/-- So the queue's worker keeps a job through every tolerable run of heartbeats. -/
theorem job_kept {c : ClaimedJob P} {k : ℕ} (hp : (s.workers w).phase = .fetched (some c))
    (hlim : ¬ (c.previousLockedBy.isSome ∧ (cfg w).maxRetries ≤ c.previousErrorCount))
    (hsent : c.claimSentAt ≤ s.now) (hk : 3 ≤ k)
    (hwindow : k * (cfg w).config.heartbeatInterval ≤ (cfg w).config.reclaimWindow)
    (hanswer : (cfg w).config.AnsweredInTime k c.claimSentAt s.now)
    (hsc : sc.Tolerable (cfg w).config k)
    (hagrees : ∀ n, (sc.outcome (cfg w).config n).2.Agrees (s.owns w c.job.jobId)) (turns : ℕ) :
    ∃ log s', Run (step cfg) Free s log s' ∧
      ((∃ tracker nextTick beat, (s'.workers w).phase = .running c.job tracker nextTick beat) ∨
        ∃ error, (s'.workers w).phase = .returned c.job error) := by
  have hI : 0 < (cfg w).config.heartbeatInterval := (JobWorkerConfig.validate_ok (cfg w).valid).1
  have hleads := runNextJob_leads hp hlim hsent hagrees turns
  rcases hsc.runNextJob hI hk hwindow hanswer turns with ⟨L, hL, -⟩ | hreturned
  · rw [hL] at hleads
    obtain ⟨log, s', hrun, hat, -⟩ := hleads
    exact ⟨log, s', hrun, .inl ⟨_, _, _, hat.phase⟩⟩
  · rw [hreturned] at hleads
    obtain ⟨log, s', hrun, hleft⟩ := hleads
    exact ⟨log, s', hrun, .inr hleft⟩

end Cja.Jobs
