import Cja.Jobs.Simulation

/-!
# Conservation of jobs

Every inserted job has exactly one fate: one row in `jobs`, one row in
`dead_letter_jobs`, or a body that returned `Ok` under its owner's lease.
-/
namespace Cja.Jobs

variable {P : Type}

inductive Fate
  | queued
  | deadLettered
  | completed
deriving Repr, DecidableEq

/-- How many rows of `jobs` carry the id. -/
def Db.jobRows (db : Db P) (j : Uuid) : ℕ := db.jobs.rows.countP fun r => r.jobId = j

def Fate.Holds (j : Uuid) (db : Db P) (log : List Event) : Fate → Prop
  | .queued => db.jobRows j = 1 ∧ (db.deadOf j).length = 0
  | .deadLettered => db.jobRows j = 0 ∧ (db.deadOf j).length = 1
  | .completed => db.jobRows j = 0 ∧ (db.deadOf j).length = 0 ∧
      ∃ w, Event.returned w j true true ∈ log

theorem Db.jobRows_eq (db : Db P) (j : Uuid) :
    db.jobRows j = if (db.jobs.lookup j).isSome then 1 else 0 :=
  KeyedTable.count_key db.jobs j

/-- An `Ok` that the life has recorded: under the lease now held, or in the past. -/
def Life.sawOk : Life → Bool
  | leased l => l.okOwned
  | completed _ => true
  | _ => false

theorem Life.sawOk_of_mark {w : OwnerToken} {f : Lease → Lease} {L : Life}
    (hok : (L.mark w f).sawOk = true) (hf : ∀ l, (f l).okOwned = l.okOwned) :
    L.sawOk = true := by
  cases L with
  | leased l =>
      simp only [mark] at hok
      split at hok
      · simpa [sawOk, hf] using hok
      · exact hok
  | _ => exact hok

/-- The life sees an `Ok` only from a worker that holds the lease. -/
theorem Life.sawOk_moved {j : Uuid} {L L' : Life} {e : Event} (h : Moved j L e L')
    (hok : L'.sawOk = true) : L.sawOk = true ∨ ∃ w, e = .returned w j true true := by
  cases h with
  | other => exact .inl hok
  | inserted => cases hok
  | claimed => cases hok
  | dispatched => exact .inl (sawOk_of_mark hok fun _ => rfl)
  | @returned w ok =>
      cases L with
      | leased l =>
          by_cases hw : l.owner = w
          · simp only [mark, hw, if_true, sawOk, Bool.or_eq_true] at hok
            rcases hok with hok | rfl
            · exact .inl hok
            · exact .inr ⟨w, by simp [heldBy, hw]⟩
          · simp only [mark, hw, if_false] at hok
            exact .inl hok
      | _ => exact .inl hok
  | abandoned => exact .inl (sawOk_of_mark hok fun _ => rfl)
  | failed => cases hok
  | released => cases hok
  | deadLettered => cases hok
  | deleted h ha hl => subst h; exact .inl hl

/-- An event leaves a life absent only if it found it so. -/
theorem Life.ne_absent_of_moved {j : Uuid} {L L' : Life} {e : Event} (h : Moved j L e L')
    (hL : L ≠ absent) : L' ≠ absent := by
  cases h with
  | other => exact hL
  | dispatched => cases L <;> simp_all [mark]; split <;> simp
  | returned => cases L <;> simp_all [mark]; split <;> simp
  | abandoned => cases L <;> simp_all [mark]; split <;> simp
  | _ => simp

theorem Life.ne_absent_of_inserted {j : Uuid} {L L' : Life} {es : List Event}
    (h : replay j L es = some L') (hj : .inserted j ∈ es) : L' ≠ absent := by
  obtain ⟨es₁, es₂, rfl⟩ := List.append_of_mem hj
  obtain ⟨M, -, hM⟩ := StepRun.replay_append_some h
  simp only [StepRun.replay, Option.bind_eq_some_iff] at hM
  obtain ⟨M', hM', hr⟩ := hM
  refine replay_induction (I := fun N => N ≠ absent)
    (fun _ _ _ _ hN hm => ne_absent_of_moved hm hN) ?_ hr
  cases step_moved hM' with
  | other hne => exact absurd rfl hne
  | inserted => simp

/-- The tables and the log show which fate a life is at. -/
theorem Life.Shows.fate {j : Uuid} {db : Db P} {L : Life} {log : List Event}
    (h : L.Shows j db) (hlog : Life.replay j .absent log = some L) (hne : L ≠ .absent) :
    ∃! f : Fate, f.Holds j db log := by
  have hqueued : ∀ {owner : Option OwnerToken} {c : ℕ}, db.Queued j owner c →
      db.jobRows j = 1 ∧ (db.deadOf j).length = 0 := by
    rintro owner c ⟨hd, r, hr, -, -⟩
    exact ⟨by simp [db.jobRows_eq, hr], by simp [hd]⟩
  have hone : ∀ {f : Fate}, f.Holds j db log →
      ∀ {g : Fate}, g.Holds j db log → g = f := by
    intro f hf g hg
    cases f <;> cases g <;> first | rfl | (simp only [Fate.Holds] at hf hg; omega)
  have hex : ∃ f : Fate, f.Holds j db log := by
    cases L with
    | absent => exact absurd rfl hne
    | ready c last => exact ⟨.queued, hqueued h⟩
    | leased l => exact ⟨.queued, hqueued h⟩
    | dead n =>
        obtain ⟨hnone, d, hd, -⟩ := h
        exact ⟨.deadLettered, by simp [db.jobRows_eq, hnone], by simp [hd]⟩
    | completed n =>
        obtain ⟨e, he, w, rfl⟩ := Life.replay_origin (I := fun L => L.sawOk = true)
          (fun _ _ _ hm hok => Life.sawOk_moved hm hok) (by simp [Life.sawOk]) hlog rfl
        exact ⟨.completed, by simp [db.jobRows_eq, h.1], by simp [h.2], w, he⟩
  obtain ⟨f, hf⟩ := hex
  exact ⟨f, hf, fun g hg => hone hf hg⟩

/-- No job is lost, dead-lettered twice, or both queued and dead-lettered, in
any run of any number of workers. -/
theorem job_conservation {cfg : OwnerToken → Settings} {log : List Event} {s : State P} {j : Uuid}
    (h : QueueRun cfg StepRun.Free log s) (hj : .inserted j ∈ log) :
    ∃! f : Fate, f.Holds j s.db log := by
  obtain ⟨L, hlog, hsim⟩ := Sim.of_run j h
  exact hsim.tables.fate hlog (Life.ne_absent_of_inserted hlog hj)

/-- One job, claimed, run to `Ok` and deleted. -/
theorem job_conservation_completed : ∃ (log : List Event) (s : State Unit),
    QueueRun (fun _ => .default 0 (by decide)) StepRun.Free log s ∧ .inserted 7 ∈ log ∧
      ∃! f : Fate, f.Holds 7 s.db log := by
  obtain ⟨log, s, hrun, hmem⟩ := StepRun.exists_free_run
    (step (P := Unit) fun _ => .default 0 (by decide)) .init
    [.enqueue ⟨7, "Job", (), none, "", 0⟩, .sendClaim 1, .applyClaim 1 0 [], .receiveClaim 1,
      .bodyReturns 1 none, .finish 1 0 true]
    (fun log _ => log.contains (.inserted 7)) (by decide)
  have hj : Event.inserted 7 ∈ log := by simpa using hmem
  exact ⟨log, s, hrun, hj, job_conservation hrun hj⟩

end Cja.Jobs
