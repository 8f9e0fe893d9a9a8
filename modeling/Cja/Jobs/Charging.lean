import Cja.Jobs.Conservation
import Cja.Lib.Judged

/-!
# Exact charging

Every claim ends in one way: in a failed body, in a release by the drain, or in
expiry, which the next claim finds. The first and the last are charged, once.
-/
namespace Cja.Jobs

variable {P : Type}

/-- How a claim ended that another claim follows. -/
inductive Ending
  | failed
  | released
  | expired
deriving Repr, DecidableEq

def Ending.charge : Ending → ℕ
  | .failed | .expired => 1
  | .released => 0

/-- `mid` are the events between the claim of `w` and the next claim, which
found the owner `next` in place. -/
def Ending.Holds (w : OwnerToken) (j : Uuid) (mid : List Event) (next : Option OwnerToken) :
    Ending → Prop
  | .failed => .failed w j ∈ mid
  | .released => .released w j ∈ mid
  | .expired => next = some w

def Event.isClaimOf (j : Uuid) : Event → Bool
  | .claimed _ k _ _ => k == j
  | _ => false

theorem Event.isClaimOf_of_ne {j : Uuid} {e : Event} (h : e.job ≠ j) : e.isClaimOf j = false := by
  cases e <;> first | rfl | simpa [Event.isClaimOf, Event.job] using h

namespace Life

/-- The life after a claim of `w` at count `n` and the events `es`, none of
which is a claim. -/
inductive Since (j : Uuid) (w : OwnerToken) (n : ℕ) (es : List Event) : Life → Prop
  | held {l : Lease} (ho : l.owner = w) (hc : l.count = n) (hf : .failed w j ∉ es)
      (hr : .released w j ∉ es) (ha : .abandoned w j ∈ es → l.abandoned = true)
      (hz : chargesOf j es = 0) : Since j w n es (leased l)
  | failed (hf : .failed w j ∈ es) (hr : .released w j ∉ es) (ha : .abandoned w j ∉ es)
      (hz : chargesOf j es = 1) : Since j w n es (ready (n + 1) (some w))
  | released (hf : .failed w j ∉ es) (hr : .released w j ∈ es) (ha : .abandoned w j ∉ es)
      (hz : chargesOf j es = 0) : Since j w n es (ready n (some w))
  | dead {c : ℕ} (hz : chargesOf j es ≤ 1) : Since j w n es (dead c)
  | completed {c : ℕ} (hz : chargesOf j es ≤ 1) : Since j w n es (completed c)

variable {j : Uuid} {w : OwnerToken} {n : ℕ} {es : List Event} {L L' : Life} {e : Event}

/-- An event that leaves the lease in place. -/
theorem Since.mark (h : Since j w n es L) {v : OwnerToken} {f : Lease → Lease}
    (hg : L.gone v = false) (hf : ∀ l, (f l).owner = l.owner ∧ (f l).count = l.count)
    (hfail : e ≠ .failed w j) (hrel : e ≠ .released w j) (hz : charge j e = 0)
    (ha : ∀ l, l.abandoned = true → (f l).abandoned = true)
    (hab : e = .abandoned w j → v = w ∧ ∀ l, (f l).abandoned = true) :
    Since j w n (es ++ [e]) (L.mark v f) := by
  cases h with
  | @held l ho hc hf' hr ha' hz' =>
      simp only [Life.mark]
      split
      · case isTrue hv =>
          refine .held ((hf l).1.trans ho) ((hf l).2.trans hc) (by simp [hf', Ne.symm hfail])
            (by simp [hr, Ne.symm hrel]) (fun hm => ?_) (by simp [hz', hz])
          rcases List.mem_append.mp hm with hm | hm
          · exact ha l (ha' hm)
          · exact (hab (List.mem_singleton.mp hm).symm).2 l
      · case isFalse hv =>
          refine .held ho hc (by simp [hf', Ne.symm hfail]) (by simp [hr, Ne.symm hrel])
            (fun hm => ?_) (by simp [hz', hz])
          rcases List.mem_append.mp hm with hm | hm
          · exact ha' hm
          · exact absurd (ho.trans (hab (List.mem_singleton.mp hm).symm).1.symm) hv
  | failed hf' hr ha' hz' =>
      have hv : v ≠ w := by rintro rfl; simp [gone] at hg
      refine .failed (by simp [hf']) (by simp [hr, Ne.symm hrel]) (fun hm => ?_) (by simp [hz', hz])
      rcases List.mem_append.mp hm with hm | hm
      · exact ha' hm
      · exact hv (hab (List.mem_singleton.mp hm).symm).1
  | released hf' hr ha' hz' =>
      have hv : v ≠ w := by rintro rfl; simp [gone] at hg
      refine .released (by simp [hf', Ne.symm hfail]) (by simp [hr]) (fun hm => ?_)
        (by simp [hz', hz])
      rcases List.mem_append.mp hm with hm | hm
      · exact ha' hm
      · exact hv (hab (List.mem_singleton.mp hm).symm).1
  | dead hz' => exact .dead (by simpa [hz] using hz')
  | completed hz' => exact .completed (by simpa [hz] using hz')

/-- An event of another job. -/
theorem Since.other (h : Since j w n es L) (hj : e.job ≠ j) : Since j w n (es ++ [e]) L := by
  have hne : ∀ {e' : Event}, e'.job = j → e' ≠ e := by
    rintro e' he rfl
    exact hj he
  have hmem : ∀ {e' : Event}, e'.job = j → (e' ∈ es ++ [e] ↔ e' ∈ es) := by
    intro e' he
    simp [hne he]
  have hz : chargesOf j (es ++ [e]) = chargesOf j es := by simp [charge_of_ne hj]
  cases h with
  | held ho hc hf hr ha hz' =>
      exact .held ho hc (by rwa [hmem rfl]) (by rwa [hmem rfl]) (by rwa [hmem rfl]) (hz.trans hz')
  | failed hf hr ha hz' =>
      exact .failed (by rwa [hmem rfl]) (by rwa [hmem rfl]) (by rwa [hmem rfl]) (hz.trans hz')
  | released hf hr ha hz' =>
      exact .released (by rwa [hmem rfl]) (by rwa [hmem rfl]) (by rwa [hmem rfl]) (hz.trans hz')
  | dead hz' => exact .dead (hz ▸ hz')
  | completed hz' => exact .completed (hz ▸ hz')

theorem Since.step (h : Since j w n es L) (hs : Moved j L e L') (hno : e.isClaimOf j = false) :
    Since j w n (es ++ [e]) L' := by
  cases hs with
  | other hj => exact h.other hj
  | inserted hL => subst hL; cases h
  | claimed => simp [Event.isClaimOf] at hno
  | dispatched hg => exact h.mark hg (fun _ => ⟨rfl, rfl⟩) nofun nofun rfl (fun _ => id) nofun
  | returned hg => exact h.mark hg (fun _ => ⟨rfl, rfl⟩) nofun nofun rfl (fun _ => id) nofun
  | abandoned hg =>
      refine h.mark hg (fun _ => ⟨rfl, rfl⟩) nofun nofun rfl (fun _ _ => rfl) fun he => ?_
      cases he
      exact ⟨rfl, fun _ => rfl⟩
  | @failed l hL hab =>
      subst hL
      cases h with
      | held ho hc hf hr ha hz =>
          subst ho hc
          have hna : .abandoned l.owner j ∉ es := fun hm => by simp [ha hm] at hab
          exact .failed (by simp) (by simp [hr]) (by simp [hna]) (by simp [hz, charge])
  | @released l hL hab =>
      subst hL
      cases h with
      | held ho hc hf hr ha hz =>
          subst ho hc
          have hna : .abandoned l.owner j ∉ es := fun hm => by simp [ha hm] at hab
          exact .released (by simp [hf]) (by simp) (by simp [hna]) (by simp [hz, charge])
  | @deadLettered l failedBody hL =>
      subst hL
      cases h with
      | held ho hc hf hr ha hz => exact .dead (by cases failedBody <;> simp [hz, charge])
  | deleted hL =>
      subst hL
      cases h with
      | held ho hc hf hr ha hz => exact .completed (by simp [hz, charge])

theorem since_replay (h : replay j (leased { owner := w, count := n }) es = some L)
    (hno : ∀ e ∈ es, e.isClaimOf j = false) : Since j w n es L := by
  induction es using List.reverseRecOn generalizing L with
  | nil =>
      simp only [replay, StepRun.replay, Option.some.injEq] at h
      subst h
      exact .held rfl rfl (by simp) (by simp) (by simp) rfl
  | append_singleton es e ih =>
      obtain ⟨M, hM, hs⟩ := StepRun.replay_append_some h
      rw [StepRun.replay_singleton] at hs
      exact (ih hM fun e' he => hno e' (by simp [he])).step (step_moved hs) (hno e (by simp))

/-- The claim that follows shows how the one before it ended. -/
theorem Since.ending (h : Since j w n es L) {v : OwnerToken} {next : Option OwnerToken} {m : ℕ}
    (hs : Moved j L (.claimed v j next m) L') :
    ∃ ending : Ending, (∀ f : Ending, f.Holds w j es next ↔ f = ending) ∧
      m = n + ending.charge ∧
      chargesOf j (es ++ [.claimed v j next m]) = ending.charge ∧
      (.abandoned w j ∈ es → ending = .expired) := by
  cases hs with
  | other hj => exact absurd rfl hj
  | claimed hm hprev hlive =>
      cases h with
      | @held l ho hc hf hr ha hz =>
          have hnext : next = some w := (hprev w).mpr ⟨l, rfl, ho⟩
          refine ⟨.expired, fun f => ?_, ?_, ?_, fun _ => rfl⟩
          · cases f <;> simp [Ending.Holds, hf, hr, hnext]
          · simp [hm, hnext, count, hc, Ending.charge]
          · simp [hz, charge, hnext, Ending.charge]
      | failed hf hr ha hz =>
          have hnext : next = none := by
            cases next with
            | none => rfl
            | some p => obtain ⟨l, hl, -⟩ := (hprev p).mp rfl; cases hl
          refine ⟨.failed, fun f => ?_, ?_, ?_, fun hm => absurd hm ha⟩
          · cases f <;> simp [Ending.Holds, hf, hr, hnext]
          · simp [hm, hnext, count, Ending.charge]
          · simp [hz, charge, hnext, Ending.charge]
      | released hf hr ha hz =>
          have hnext : next = none := by
            cases next with
            | none => rfl
            | some p => obtain ⟨l, hl, -⟩ := (hprev p).mp rfl; cases hl
          refine ⟨.released, fun f => ?_, ?_, ?_, fun hm => absurd hm ha⟩
          · cases f <;> simp [Ending.Holds, hf, hr, hnext]
          · simp [hm, hnext, count, Ending.charge]
          · simp [hz, charge, hnext, Ending.charge]
      | dead => simp at hlive
      | completed => simp at hlive

theorem Since.charges_le (h : Since j w n es L) : chargesOf j es ≤ 1 := by
  cases h <;> omega

end Life

/-! ## A charge for a body follows its error -/

variable {cfg : OwnerToken → Settings} {s s' : State P} {a : Action P} {log es : List Event}
  {w : OwnerToken} {j : Uuid}

/-- The events of a statement that claims nothing. -/
theorem apply_events {st : Statement P} {cfg : Settings} {now : ℕ} {skip : List Uuid}
    {db db' : Db P} (hst : st.isClaim = false) (h : st.apply cfg w now skip db = some (db', es)) :
    es = [] ∨ (∃ job, st = .delete job ∧ es = [.deleted w job.jobId]) ∨
      (∃ job message, st = .fail job message ∧ es = [.failed w job.jobId]) ∨
      ∃ job n message failedBody, st = .deadLetter job n message failedBody ∧
        es = [.deadLettered w job.jobId n failedBody] := by
  cases st with
  | claim sentAt => cases hst
  | delete job =>
      cases h
      split_ifs
      · exact .inr (.inl ⟨job, rfl, rfl⟩)
      · exact .inl rfl
  | fail job message =>
      simp only [Statement.apply, Option.map_eq_some_iff, Prod.mk.injEq] at h
      obtain ⟨r, -, -, rfl⟩ := h
      split_ifs
      · exact .inr (.inr (.inl ⟨job, message, rfl, rfl⟩))
      · exact .inl rfl
  | deadLetter job n message failedBody =>
      simp only [Statement.apply, Option.map_eq_some_iff, Prod.mk.injEq] at h
      obtain ⟨r, -, -, rfl⟩ := h
      split_ifs
      · exact .inr (.inr (.inr ⟨job, n, message, failedBody, rfl, rfl⟩))
      · exact .inl rfl

/-- Applying the statement charges `j` for a body that failed. -/
def Statement.charges (j : Uuid) : Statement P → Bool
  | .fail job _ => job.jobId == j
  | .deadLetter job _ _ failedBody => failedBody && job.jobId == j
  | _ => false

/-- A charge of `j` is in flight at the worker. -/
def Worker.Owes (j : Uuid) (wk : Worker P) : Prop :=
  (∃ job message, wk.phase = .failing job message ∧ job.jobId = j) ∨
    ∃ st, wk.dropped = some st ∧ st.charges j = true

theorem Phase.failing_of_charges {cfg : Settings} {phase : Phase P} {st : Statement P}
    (h : phase.statement cfg = some st) (hc : st.charges j = true) :
    ∃ job message, phase = .failing job message ∧ job.jobId = j := by
  cases phase with
  | failing job message =>
      refine ⟨job, message, rfl, ?_⟩
      simp only [Phase.statement] at h
      split_ifs at h <;> cases h <;> simpa [Statement.charges] using hc
  | fetching sentAt => cases h; cases hc
  | expiring c => cases h; cases hc
  | succeeded job => cases h; cases hc
  | _ => cases h

/-- A charge comes to be in flight when a body returns an error. -/
theorem Took.owes (h : Took cfg s a s' es) (ho : (s'.workers w).Owes j) :
    (s.workers w).Owes j ∨ ∃ owned, es = [.returned w j false owned] := by
  by_cases hw : a.worker = some w
  swap
  · rw [h.workers_other hw] at ho
    exact .inl ho
  -- a worker that moves on without failing owes what it had dropped
  have hkeep : ∀ {wk : Worker P}, wk.Owes j → (∀ job message, wk.phase ≠ .failing job message) →
      wk.dropped = (s.workers w).dropped → (s.workers w).Owes j := by
    intro wk ho hne hd
    rcases ho with ⟨job, message, hp, -⟩ | ⟨st, hst, hc⟩
    · exact absurd hp (hne job message)
    · exact .inr ⟨st, hd ▸ hst, hc⟩
  have hexit : ∀ {phase : Phase P}, (∀ job message, phase ≠ .failing job message) →
      ((s.setWorker w { (s.workers w).leave phase with
        dropped := (s.workers w).inFlight (cfg w) }).workers w).Owes j → (s.workers w).Owes j := by
    intro phase hne ho
    rw [State.setWorker_self] at ho
    rcases ho with ⟨job, message, hp, -⟩ | ⟨st, hst, hc⟩
    · exact absurd hp (hne job message)
    · rcases Option.or_eq_some_iff.1 hst with hst | ⟨-, hst⟩
      · exact .inl (Phase.failing_of_charges hst hc)
      · exact .inr ⟨st, hst, hc⟩
  cases h with
  | tick => cases hw
  | enqueue => cases hw
  | @bodyReturns v error job tracker nextTick beat hp =>
      cases hw
      rw [State.setWorker_self] at ho
      rcases ho with ⟨job', message, hp', hid⟩ | ⟨st, hst, hc⟩
      · right
        cases error with
        | none => cases hp'
        | some m =>
            cases hp'
            exact ⟨_, by rw [hid]; rfl⟩
      · exact .inl (.inr ⟨st, hst, hc⟩)
  | shutdown hp => cases hw; exact .inl (hexit (by simp) ho)
  | die hp => cases hw; exact .inl (hexit (by simp) ho)
  | applyDropped hst ht hdb =>
      cases hw
      rw [State.setDb_workers, State.setWorker_self] at ho
      rcases ho with hf | ⟨st, hst', -⟩
      · exact .inl (.inl hf)
      · cases hst'
  | applyDroppedBeat hb ht hdb =>
      cases hw
      rw [State.setDb_workers, State.setWorker_self] at ho
      exact .inl ho
  | _ =>
      cases hw
      simp only [State.setDb_workers, State.setPhase_eq, State.setWorker_self] at ho
      exact .inl (hkeep ho (by simp [Worker.leave, Worker.abandon]) rfl)

/-- Only a worker that is asking for a job, or is out of its loop, gets a claim. -/
theorem Took.claimed_clear (h : Took cfg s a s' es) (hlate : ∀ w, (s.workers w).DroppedLate)
    {p : Option OwnerToken} {n : ℕ} {k : Uuid} (he : .claimed w j p n ∈ es) :
    ¬(s'.workers w).Owes k := by
  have hown : ∀ {v : OwnerToken} {row : Option (ClaimedRow P)},
      .claimed w j p n ∈ claimEvents v row → v = w := by
    intro v row hmem
    cases row with
    | none => cases hmem
    | some c => exact (Event.claimed.inj (List.mem_singleton.1 hmem)).1.symm
  have happly : ∀ {v : OwnerToken} {st : Statement P} {now : ℕ} {skip : List Uuid} {db db' : Db P},
      st.isClaim = false → st.apply (cfg v) v now skip db = some (db', es) → False := by
    intro v st now skip db db' hst hdb
    rcases apply_events hst hdb with rfl | ⟨_, -, rfl⟩ | ⟨_, _, -, rfl⟩ | ⟨_, _, _, _, -, rfl⟩ <;>
      simp at he
  cases h with
  | @applyClaim v now sentAt skip db row hp ht hdb =>
      obtain rfl := hown he
      rw [State.setDb_workers, State.setPhase_eq, State.setWorker_self]
      rintro (⟨job, message, hf, -⟩ | ⟨st, hst, -⟩)
      · cases hf
      · rw [show (s.workers v).dropped = none from hlate v (by rw [hp]; rfl)] at hst
        cases hst
  | finish hp ht hst hdb => exact (happly (Phase.statement_not_claim hp hst) hdb).elim
  | cleanup hp => simp [releasedEvents] at he
  | @applyDropped v now skip st db es hst ht hdb =>
      cases hclaim : st.isClaim with
      | false => exact (happly hclaim hdb).elim
      | true =>
          cases st with
          | claim sentAt =>
              cases hdb
              obtain rfl := hown he
              rw [State.setDb_workers, State.setWorker_self]
              rintro (⟨job, message, hf, -⟩ | ⟨st, hst', -⟩)
              · -- a worker that fails a job is in its loop and has dropped nothing
                rw [hlate v (by rw [show (s.workers v).phase = _ from hf]; rfl)] at hst
                cases hst
              · cases hst'
          | _ => cases hclaim
  | _ => simp at he

/-- The failure of a job is recorded by a worker that owed it. -/
theorem Took.failed_owes (h : Took cfg s a s' es) (he : .failed w j ∈ es) :
    es = [.failed w j] ∧ (s.workers w).Owes j := by
  have happly : ∀ {v : OwnerToken} {st : Statement P} {now : ℕ} {skip : List Uuid} {db db' : Db P},
      st.apply (cfg v) v now skip db = some (db', es) →
      es = [.failed w j] ∧ v = w ∧ st.charges j = true := by
    intro v st now skip db db' hdb
    cases hclaim : st.isClaim with
    | false =>
        rcases apply_events hclaim hdb with
          rfl | ⟨_, -, rfl⟩ | ⟨job, message, rfl, rfl⟩ | ⟨_, _, _, _, -, rfl⟩ <;>
          simp only [List.mem_singleton, Event.failed.injEq, reduceCtorEq, List.not_mem_nil] at he
        obtain ⟨rfl, rfl⟩ := he
        exact ⟨rfl, rfl, by simp [Statement.charges]⟩
    | true =>
        cases st with
        | claim sentAt =>
            cases hdb
            generalize (claimRow _ _ _ _ _).2 = row at he
            cases row <;> simp [claimEvents] at he
        | _ => cases hclaim
  cases h with
  | finish hp ht hst hdb =>
      obtain ⟨rfl, rfl, hc⟩ := happly hdb
      exact ⟨rfl, .inl (Phase.failing_of_charges hst hc)⟩
  | @applyDropped v now skip st db es hst ht hdb =>
      obtain ⟨rfl, rfl, hc⟩ := happly hdb
      exact ⟨rfl, .inr ⟨st, hst, hc⟩⟩
  | @applyClaim v now sentAt skip db row hp ht hdb => cases row <;> simp [claimEvents] at he
  | cleanup hp => simp [releasedEvents] at he
  | _ => simp at he

/-- Whether `w` has seen a body of `j` return an error since it last claimed `j`. -/
def Event.erring (w : OwnerToken) (j : Uuid) (seen : Bool) : Event → Bool
  | .claimed v k _ _ => if v = w ∧ k = j then false else seen
  | .returned v k ok _ => if v = w ∧ k = j then seen || !ok else seen
  | _ => seen

def erred (w : OwnerToken) (j : Uuid) (log : List Event) : Bool := log.foldl (Event.erring w j) false

theorem erred_append (w : OwnerToken) (j : Uuid) (log es : List Event) :
    erred w j (log ++ es) = es.foldl (Event.erring w j) (erred w j log) := List.foldl_append

theorem erred_snoc (w : OwnerToken) (j : Uuid) (log : List Event) (e : Event) :
    erred w j (log ++ [e]) = e.erring w j (erred w j log) := by
  rw [erred_append, List.foldl_cons, List.foldl_nil]

/-- An error is forgotten by a claim only. -/
theorem erred_mono (h : erred w j log = true) (hno : ∀ p n, .claimed w j p n ∉ es) :
    erred w j (log ++ es) = true := by
  induction es using List.reverseRecOn with
  | nil => rwa [List.append_nil]
  | append_singleton es e ih =>
      have hseen := ih fun p n hmem => hno p n (List.mem_append_left _ hmem)
      rw [← List.append_assoc, erred_snoc, hseen]
      cases e with
      | claimed v k p n =>
          simp only [Event.erring]
          split_ifs with hvk
          · obtain ⟨rfl, rfl⟩ := hvk
            exact absurd (List.mem_append_right _ (List.mem_singleton_self _)) (hno p n)
          · rfl
      | returned v k ok owned => simp [Event.erring]
      | _ => rfl

/-- The error that was seen since a claim stands behind it. -/
theorem erred_since {p : Option OwnerToken} {n : ℕ}
    (h : erred w j (log ++ .claimed w j p n :: es) = true) : ∃ owned, .returned w j false owned ∈ es := by
  induction es using List.reverseRecOn with
  | nil =>
      rw [erred_snoc] at h
      simp [Event.erring] at h
  | append_singleton es e ih =>
      rw [← List.cons_append, ← List.append_assoc, erred_snoc] at h
      by_cases hseen : erred w j (log ++ .claimed w j p n :: es) = true
      · obtain ⟨owned, hmem⟩ := ih hseen
        exact ⟨owned, List.mem_append_left _ hmem⟩
      · rw [Bool.not_eq_true] at hseen
        rw [hseen] at h
        cases e with
        | returned v k ok owned =>
            simp only [Event.erring] at h
            split_ifs at h with hvk
            · obtain ⟨rfl, rfl⟩ := hvk
              simp only [Bool.false_or, Bool.not_eq_true'] at h
              subst h
              exact ⟨owned, List.mem_append_right _ (List.mem_singleton_self _)⟩
        | claimed v k p' n' =>
            simp only [Event.erring] at h
            split_ifs at h
        | _ => cases h

/-- Every charge that is owed or was made for a body follows the body's error. -/
structure Erring (log : List Event) (s : State P) : Prop where
  owes : ∀ w j, (s.workers w).Owes j → erred w j log = true
  failures : Judged (fun before e => ∀ w j, e = .failed w j → erred w j before = true) log

theorem Erring.init : Erring [] (State.init : State P) := by
  refine ⟨?_, .nil⟩
  rintro w j (⟨job, message, hp, -⟩ | ⟨st, hst, -⟩)
  · cases hp
  · cases hst

theorem Erring.step (hi : Erring log s) (hlate : ∀ w, (s.workers w).DroppedLate)
    (h : Took cfg s a s' es) : Erring (log ++ es) s' := by
  refine ⟨fun w j ho => ?_, ?_⟩
  · rcases h.owes ho with hold | ⟨owned, rfl⟩
    · exact erred_mono (hi.owes w j hold) fun p n hmem => h.claimed_clear hlate hmem ho
    · rw [erred_snoc]
      simp [Event.erring]
  · by_cases hfailed : ∃ w j, .failed w j ∈ es
    · obtain ⟨w, j, hmem⟩ := hfailed
      obtain ⟨rfl, ho⟩ := h.failed_owes hmem
      refine hi.failures.snoc fun v k he => ?_
      cases he
      exact hi.owes w j ho
    · refine Judged.append hi.failures fun e he before v k heq => ?_
      exact absurd ⟨v, k, heq ▸ he⟩ hfailed

theorem Erring.of_run {C : State P → Action P → Prop} (h : QueueRun cfg C log s) : Erring log s := by
  refine h.invariant .init fun log s a s' es hrun hi _ hs => ?_
  obtain ⟨L, -, hsim⟩ := Sim.of_run 0 hrun
  exact hi.step hsim.late (step_took hs)

/-- What a run charged job `j`. Between two consecutive claims there is exactly
one ending, which fixes the difference of the counts and all charges up to the
second claim, and a failure follows the error of the claim's own body; a claim that
none follows is charged at most once; the dead letter carries the initial count and
every charge. -/
structure ChargedExactly (j : Uuid) (log : List Event) (db : Db P) : Prop where
  consecutive : ∀ l₁ mid l₃ w v p next n m,
    log = l₁ ++ .claimed w j p n :: (mid ++ .claimed v j next m :: l₃) →
    (∀ e ∈ mid, e.isClaimOf j = false) →
    ∃ ending : Ending, (∀ f : Ending, f.Holds w j mid next ↔ f = ending) ∧
      m = n + ending.charge ∧
      Life.chargesOf j (mid ++ [.claimed v j next m]) = ending.charge ∧
      (.abandoned w j ∈ mid → ending = .expired) ∧
      (ending = .failed → ∃ owned, .returned w j false owned ∈ mid)
  latest : ∀ l₁ rest w p n, log = l₁ ++ .claimed w j p n :: rest →
    (∀ e ∈ rest, e.isClaimOf j = false) → Life.chargesOf j rest ≤ 1
  deadLetter : ∀ d ∈ db.deadOf j, d.errorCount = initialErrorCount + Life.chargesOf j log

theorem Life.replay_claimed {j : Uuid} {w : OwnerToken} {p : Option OwnerToken} {n : ℕ}
    {es : List Event} {L L' : Life} (h : Life.replay j L (.claimed w j p n :: es) = some L') :
    Life.replay j (.leased { owner := w, count := n }) es = some L' := by
  simp only [Life.replay, StepRun.replay, Option.bind_eq_some_iff] at h
  obtain ⟨M, hM, hr⟩ := h
  cases step_moved hM with
  | other hj => exact absurd rfl hj
  | claimed => exact hr

/-- The row or the dead letter of a job carries the count of its life. -/
theorem Life.Shows.counts {j : Uuid} {db : Db P} {L : Life} (h : L.Shows j db) :
    (∀ r, db.jobs.lookup j = some r → r.errorCount = L.count) ∧
      ∀ d ∈ db.deadOf j, d.errorCount = L.count := by
  have hqueued : ∀ {owner : Option OwnerToken} {count : ℕ}, db.Queued j owner count →
      (∀ r, db.jobs.lookup j = some r → r.errorCount = count) ∧
        ∀ d ∈ db.deadOf j, d.errorCount = count := by
    rintro owner count ⟨hdead, r', hr', -, hcount⟩
    refine ⟨fun r hr => ?_, fun d hd => ?_⟩
    · rw [hr'] at hr
      cases hr
      exact hcount
    · rw [hdead] at hd
      cases hd
  have hnone : ∀ {L : Life}, db.jobs.lookup j = none → ∀ r, db.jobs.lookup j = some r →
      r.errorCount = L.count := by
    intro L hno r hr
    rw [hno] at hr
    cases hr
  cases L with
  | dead c =>
      obtain ⟨hno, d', hd', hc⟩ := h
      refine ⟨hnone hno, fun d hd => ?_⟩
      rw [hd', List.mem_singleton] at hd
      rw [hd, hc]
      rfl
  | ready c last => exact hqueued h
  | leased l => exact hqueued h
  | absent =>
      refine ⟨hnone h.1, fun d hd => ?_⟩
      rw [h.2] at hd
      cases hd
  | completed c =>
      refine ⟨hnone h.1, fun d hd => ?_⟩
      rw [h.2] at hd
      cases hd

/-- Exact charging, in every run of any number of workers. -/
theorem exact_charging (h : QueueRun cfg StepRun.Free log s) (j : Uuid) : ChargedExactly j log s.db := by
  obtain ⟨L, hlog, hsim⟩ := Sim.of_run j h
  refine ⟨fun l₁ mid l₃ w v p next n m he hno => ?_, fun l₁ rest w p n he hno => ?_,
    fun d hd => ?_⟩
  · subst he
    obtain ⟨M, -, hM⟩ := StepRun.replay_append_some hlog
    obtain ⟨N, hN, hrest⟩ := StepRun.replay_append_some (Life.replay_claimed hM)
    simp only [StepRun.replay, Option.bind_eq_some_iff] at hrest
    obtain ⟨N', hN', -⟩ := hrest
    obtain ⟨ending, hholds, hm, hcharge, habandoned⟩ :=
      (Life.since_replay hN hno).ending (Life.step_moved hN')
    refine ⟨ending, hholds, hm, hcharge, habandoned, fun hfailed => ?_⟩
    have hmem : .failed w j ∈ mid := (hholds .failed).mpr hfailed.symm
    obtain ⟨before, after, rfl⟩ := List.append_of_mem hmem
    have herr := (Erring.of_run h).failures (l₁ ++ .claimed w j p n :: before) (.failed w j)
      (after ++ .claimed v j next m :: l₃) (by simp) w j rfl
    obtain ⟨owned, hreturned⟩ := erred_since herr
    exact ⟨owned, List.mem_append_left _ hreturned⟩
  · subst he
    obtain ⟨M, -, hM⟩ := StepRun.replay_append_some hlog
    exact (Life.since_replay (Life.replay_claimed hM) hno).charges_le
  · exact (hsim.tables.counts.2 d hd).trans (Life.replay_count hlog)

/-- A failed body, and the claim after its backoff. -/
theorem exact_charging_failed : ∃ (log : List Event) (s : State Unit),
    QueueRun (fun _ => .default 3 (by decide)) StepRun.Free log s ∧
      .failed 1 7 ∈ log ∧ .claimed 1 7 none 1 ∈ log ∧ ChargedExactly 7 log s.db := by
  obtain ⟨log, s, hrun, hmem⟩ := StepRun.exists_free_run
    (step (P := Unit) fun _ => .default 3 (by decide)) .init
    [.enqueue ⟨7, "Job", (), none, "", 0⟩, .sendClaim 1, .applyClaim 1 0 [], .receiveClaim 1,
      .bodyReturns 1 (some "Err"), .finish 1 0 true, .tick 3000000000, .sendClaim 1,
      .applyClaim 1 3000000 []]
    (fun log _ => log.contains (.failed 1 7) && log.contains (.claimed 1 7 none 1))
    (by decide)
  simp only [Bool.and_eq_true, List.contains_iff_mem] at hmem
  exact ⟨log, s, hrun, hmem.1, hmem.2, exact_charging hrun 7⟩

end Cja.Jobs
