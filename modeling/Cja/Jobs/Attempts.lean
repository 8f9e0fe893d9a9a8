import Cja.Jobs.Owners

/-!
# The attempt bound

With `max_retries = N` a job's body is dispatched at most `N + 1` times, since
every dispatch has a count of its own and no count above `N` is dispatched. The
second half needs that the release at shutdown never unlocks a row whose count
is above `N`: such a row is on its way to the dead letters, and the next claim
of an unlocked row does not look at its count.
-/
namespace Cja.Jobs

variable {P : Type}

/-- The counts at which the body of `j` was dispatched. -/
def dispatchesOf (j : Uuid) (log : List Event) : List ℕ :=
  log.filterMap fun e => match e with
    | .dispatched _ k n => if k = j then some n else none
    | _ => none

@[simp] theorem dispatchesOf_append (j : Uuid) (es fs : List Event) :
    dispatchesOf j (es ++ fs) = dispatchesOf j es ++ dispatchesOf j fs :=
  List.filterMap_append

/-- No body of `j` was dropped by a graceful drain: no claim was released after its body
had been dispatched. -/
structure Undrained (j : Uuid) (log : List Event) : Prop where
  undrained : ∀ l₁ mid l₂ w p n, log = l₁ ++ .claimed w j p n :: (mid ++ .released w j :: l₂) →
    (∀ e ∈ mid, e.isClaimOf j = false) → ∀ m, .dispatched w j m ∉ mid

/-- Every body of `j` that ended did so in a returned error or a panic whose
finalization was applied, or in a lost lease: it was not drained, and no body
returned `Ok` under its lease. -/
structure FailsOrLosesLease (j : Uuid) (log : List Event) : Prop extends Undrained j log where
  noOk : ∀ w, .returned w j true true ∉ log

/-- A release at shutdown that is applied unlocks no row above the retry limit. -/
def State.releasesWithin (N : ℕ) (s : State P) : Action P → Bool
  | .cleanup w applied _ => !applied ||
      s.db.jobs.rows.all fun r => !r.releasable w (s.workers w).abandoned || r.errorCount ≤ N
  | _ => true

/-! ## The tally of dispatches -/

/-- Counts that are known lie below this. -/
def Life.floor : Life → ℕ
  | absent => 0
  | ready c _ => c
  | leased l => l.count + 1
  | dead c => c + 1
  | completed c => c + 1

/-- The dispatched counts `D` of one job, with the counts `pend w` of claims
that worker `w` has not looked at yet. -/
structure Tally (N : ℕ) (D : List ℕ) (pend : OwnerToken → ℕ → Prop) (L : Life) : Prop where
  nodup : D.Nodup
  le : ∀ n ∈ D, n ≤ N
  ready_le : ∀ c last, L = .ready c last → c ≤ N
  below : ∀ n ∈ D, n < L.floor
  pend_below : ∀ w n, pend w n → n < L.floor
  pend_fresh : ∀ w n, pend w n → n ∉ D
  pend_inj : ∀ w v n, pend w n → pend v n → w = v
  top : ∀ l, L = .leased l → l.count ∈ D → l.dispatched = true
  top_pend : ∀ l w, L = .leased l → pend w l.count → w = l.owner

namespace Tally

variable {N : ℕ} {D : List ℕ} {pend pend' : OwnerToken → ℕ → Prop} {L : Life} {w : OwnerToken}

theorem init : Tally N [] (fun _ _ => False) .absent := by
  constructor <;> simp

theorem forget (h : Tally N D pend L) (hp : ∀ w n, pend' w n → pend w n) : Tally N D pend' L where
  nodup := h.nodup
  le := h.le
  ready_le := h.ready_le
  below := h.below
  pend_below w n hn := h.pend_below w n (hp w n hn)
  pend_fresh w n hn := h.pend_fresh w n (hp w n hn)
  pend_inj w v n hw hv := h.pend_inj w v n (hp w n hw) (hp v n hv)
  top := h.top
  top_pend l w hl hw := h.top_pend l w hl (hp w _ hw)

theorem inserted (h : Tally N D pend .absent) : Tally N D pend (.ready initialErrorCount none) where
  nodup := h.nodup
  le := h.le
  ready_le c last hc := by cases hc; exact Nat.zero_le N
  below n hn := absurd (h.below n hn) (Nat.not_lt_zero n)
  pend_below w n hn := absurd (h.pend_below w n hn) (Nat.not_lt_zero n)
  pend_fresh := h.pend_fresh
  pend_inj := h.pend_inj
  top := nofun
  top_pend := nofun

theorem mark (h : Tally N D pend L) {f : Lease → Lease}
    (hf : ∀ l, (f l).count = l.count ∧ (f l).owner = l.owner ∧
      (l.dispatched = true → (f l).dispatched = true)) : Tally N D pend (L.mark w f) := by
  cases L with
  | leased l =>
      simp only [Life.mark]
      split
      · obtain ⟨hc, ho, hd⟩ := hf l
        refine ⟨h.nodup, h.le, by simp, fun n hn => ?_, fun v n hn => ?_, h.pend_fresh, h.pend_inj,
          fun l' hl' hmem => ?_, fun l' v hl' hv => ?_⟩
        · simpa [Life.floor, hc] using h.below n hn
        · simpa [Life.floor, hc] using h.pend_below v n hn
        · cases hl'
          exact hd (h.top l rfl (hc ▸ hmem))
        · cases hl'
          exact (h.top_pend l v rfl (hc ▸ hv)).trans ho.symm
      · exact h
  | _ => exact h

/-- The worker starts the body of the claim it looked at. -/
theorem dispatch {n : ℕ} (h : Tally N D pend L) (hn : n ≤ N) (hw : pend w n)
    (hp : ∀ v m, pend' v m → pend v m ∧ v ≠ w) :
    Tally N (D ++ [n]) pend' (L.mark w fun l => { l with dispatched := true }) := by
  have hm := h.mark (w := w) (f := fun l => { l with dispatched := true })
    fun _ => ⟨rfl, rfl, fun _ => rfl⟩
  refine ⟨?_, ?_, hm.ready_le, ?_, fun v m hv => hm.pend_below v m (hp v m hv).1, ?_,
    fun v u m hv hu => h.pend_inj v u m (hp v m hv).1 (hp u m hu).1, ?_,
    fun l v hl hv => hm.top_pend l v hl (hp v _ hv).1⟩
  · rw [List.nodup_append]
    refine ⟨h.nodup, by simp, ?_⟩
    rintro a ha b hb rfl
    rw [List.mem_singleton] at hb
    exact h.pend_fresh w n hw (hb ▸ ha)
  · intro m hm'
    rcases List.mem_append.mp hm' with hm' | hm'
    · exact h.le m hm'
    · rw [List.mem_singleton] at hm'
      omega
  · intro m hm'
    rcases List.mem_append.mp hm' with hm' | hm'
    · exact hm.below m hm'
    · rw [List.mem_singleton] at hm'
      exact hm' ▸ hm.pend_below w n hw
  · intro v m hv hmem
    obtain ⟨hv, hne⟩ := hp v m hv
    rcases List.mem_append.mp hmem with hm' | hm'
    · exact h.pend_fresh v m hv hm'
    · rw [List.mem_singleton] at hm'
      subst hm'
      exact hne (h.pend_inj v w m hv hw)
  · intro l hl hmem
    rcases List.mem_append.mp hmem with hm' | hm'
    · exact hm.top l hl hm'
    · rw [List.mem_singleton] at hm'
      have ho := hm.top_pend l w hl (hm' ▸ hw)
      cases L with
      | leased l₀ =>
          simp only [Life.mark] at hl
          split_ifs at hl with hw'
          · cases hl; rfl
          · cases hl; exact absurd ho.symm hw'
      | _ => cases hl

/-- A claim starts a lease above every count known so far. -/
theorem claim {n : ℕ} (h : Tally N D pend L)
    (hn : (∃ last, L = .ready n last) ∨ ∃ l, L = .leased l ∧ n = l.count + 1)
    (hp : ∀ v m, pend' v m → pend v m ∨ v = w ∧ m = n) :
    Tally N D pend' (.leased { owner := w, count := n }) := by
  have hfloor : L.floor = n := by
    rcases hn with ⟨last, rfl⟩ | ⟨l, rfl, rfl⟩ <;> rfl
  refine ⟨h.nodup, h.le, nofun, fun m hm => ?_, fun v m hv => ?_, fun v m hv hm => ?_,
    fun v u m hv hu => ?_, fun l hl hm => ?_, fun l v hl hv => ?_⟩
  · have := h.below m hm
    simp only [Life.floor]
    omega
  · rcases hp v m hv with hv | ⟨-, rfl⟩
    · have := h.pend_below v m hv
      simp only [Life.floor]
      omega
    · exact Nat.lt_succ_self _
  · rcases hp v m hv with hv | ⟨-, rfl⟩
    · exact h.pend_fresh v m hv hm
    · have := h.below m hm
      omega
  · rcases hp v m hv with hv | ⟨rfl, rfl⟩ <;> rcases hp u m hu with hu | ⟨rfl, hm⟩
    · exact h.pend_inj v u m hv hu
    · have := h.pend_below v m hv
      omega
    · have := h.pend_below u m hu
      omega
    · rfl
  · cases hl
    have := h.below n hm
    omega
  · cases hl
    rcases hp v n hv with hv | ⟨rfl, -⟩
    · have := h.pend_below v n hv
      omega
    · rfl

/-- The lease ends in readiness: with a charge, or without one if its body was
never dispatched and its claim is out of sight. -/
theorem ready {l : Lease} {c : ℕ} {last : Option OwnerToken} (h : Tally N D pend (.leased l))
    (hc : c ≤ N) (hcount : c = l.count + 1 ∨
      c = l.count ∧ l.dispatched = false ∧ ∀ n, ¬pend l.owner n) :
    Tally N D pend (.ready c last) := by
  refine ⟨h.nodup, h.le, fun c' last' he => by cases he; exact hc, fun n hn => ?_,
    fun v n hv => ?_, h.pend_fresh, h.pend_inj, nofun, nofun⟩
  · have hlt : n < l.count + 1 := h.below n hn
    rcases hcount with rfl | ⟨rfl, hd, -⟩
    · exact hlt
    · refine Nat.lt_of_le_of_ne (Nat.le_of_lt_succ hlt) ?_
      rintro rfl
      rw [h.top l rfl hn] at hd
      cases hd
  · have hlt : n < l.count + 1 := h.pend_below v n hv
    rcases hcount with rfl | ⟨rfl, -, hnone⟩
    · exact hlt
    · refine Nat.lt_of_le_of_ne (Nat.le_of_lt_succ hlt) ?_
      rintro rfl
      exact hnone _ (h.top_pend l v rfl hv ▸ hv)

/-- The job ends. -/
theorem ended {l : Lease} {L' : Life} (h : Tally N D pend (.leased l))
    (hL : (∃ c, L' = .dead c ∧ l.count ≤ c) ∨ L' = .completed l.count) : Tally N D pend L' := by
  have hfloor : (Life.leased l).floor ≤ L'.floor := by
    rcases hL with ⟨c, rfl, hc⟩ | rfl
    · exact Nat.succ_le_succ hc
    · exact Nat.le_refl _
  refine ⟨h.nodup, h.le, ?_, fun n hn => Nat.lt_of_lt_of_le (h.below n hn) hfloor,
    fun v n hv => Nat.lt_of_lt_of_le (h.pend_below v n hv) hfloor, h.pend_fresh, h.pend_inj, ?_, ?_⟩
  all_goals rcases hL with ⟨c, rfl, -⟩ | rfl <;> nofun

/-- Distinct counts up to `N`. -/
theorem length_le (h : Tally N D pend L) : D.length ≤ N + 1 := by
  have hsub : D ⊆ List.range (N + 1) := fun n hn => by
    rw [List.mem_range]
    exact Nat.lt_succ_of_le (h.le n hn)
  simpa using (h.nodup.subperm hsub).length_le

end Tally

/-! ## The tally along a run -/

/-- Worker `w` was answered a claim of `j` at count `n` and has not looked at it. -/
def Worker.Pending (j : Uuid) (wk : Worker P) (n : ℕ) : Prop :=
  ∃ c, wk.phase = .fetched (some c) ∧ c.job.jobId = j ∧ c.job.errorCount = n

/-- What a worker with `max_retries = N` remembers of the claims of `j` it made. -/
structure Worker.Remembers (N : ℕ) (j : Uuid) (wk : Worker P) : Prop where
  unlocked : ∀ c, wk.phase = .fetched (some c) → c.job.jobId = j → c.previousLockedBy = none →
    c.job.errorCount ≤ N
  expired : ∀ c, wk.phase = .fetched (some c) → c.previousLockedBy.isSome = true →
    c.job.errorCount = c.previousErrorCount + 1
  fail : ∀ job message, wk.dropped = some (.fail job message) → job.errorCount < N

/-- The claim that holds the lease, in the log. -/
theorem Life.lease_origin {j : Uuid} {log : List Event} {l : Lease}
    (h : Life.replay j .absent log = some (.leased l)) :
    ∃ l₁ mid p n, log = l₁ ++ .claimed l.owner j p n :: mid ∧
      (∀ e ∈ mid, e.isClaimOf j = false) ∧
      (l.dispatched = true → ∃ n, .dispatched l.owner j n ∈ mid) := by
  induction log using List.reverseRecOn generalizing l with
  | nil => cases h
  | append_singleton es e ih =>
      obtain ⟨M, hM, hs⟩ := StepRun.replay_append_some h
      rw [StepRun.replay_singleton] at hs
      have hext : ∀ {l₀ : Lease}, M = .leased l₀ → l.owner = l₀.owner → e.isClaimOf j = false →
          (l.dispatched = true → l₀.dispatched = true ∨ ∃ n, e = .dispatched l.owner j n) →
          ∃ l₁ mid p n, es ++ [e] = l₁ ++ .claimed l.owner j p n :: mid ∧
            (∀ e ∈ mid, e.isClaimOf j = false) ∧
            (l.dispatched = true → ∃ n, .dispatched l.owner j n ∈ mid) := by
        rintro l₀ rfl ho he hd
        obtain ⟨l₁, mid, p, n, rfl, hno, hdisp⟩ := ih hM
        refine ⟨l₁, mid ++ [e], p, n, by simp [ho], fun e' he' => ?_, fun hl => ?_⟩
        · rcases List.mem_append.mp he' with he' | he'
          · exact hno e' he'
          · rw [List.mem_singleton] at he'
            exact he' ▸ he
        · rcases hd hl with hl₀ | ⟨m, rfl⟩
          · obtain ⟨m, hm⟩ := hdisp hl₀
            exact ⟨m, by simp [ho, hm]⟩
          · exact ⟨m, by simp⟩
      generalize hL : Life.leased l = L' at hs
      cases step_moved hs with
      | other hj => exact hext hL.symm rfl (Event.isClaimOf_of_ne hj) .inl
      | claimed => cases hL; exact ⟨es, [], _, _, rfl, by simp, nofun⟩
      | dispatched =>
          obtain ⟨l₀, hM', rfl | ⟨rfl, rfl⟩⟩ := mark_eq_leased hL.symm
          · exact hext hM' rfl rfl .inl
          · exact hext hM' rfl rfl fun _ => .inr ⟨_, rfl⟩
      | returned =>
          obtain ⟨l₀, hM', rfl | ⟨rfl, rfl⟩⟩ := mark_eq_leased hL.symm
          · exact hext hM' rfl rfl .inl
          · exact hext hM' rfl rfl .inl
      | abandoned =>
          obtain ⟨l₀, hM', rfl | ⟨rfl, rfl⟩⟩ := mark_eq_leased hL.symm
          · exact hext hM' rfl rfl .inl
          · exact hext hM' rfl rfl .inl
      | _ => cases hL

/-- A release in the log is of a lease whose body was never dispatched. -/
theorem Undrained.undispatched {j : Uuid} {log es fs : List Event} {l : Lease}
    (h : Undrained j (log ++ (es ++ .released l.owner j :: fs)))
    (hlog : Life.replay j .absent log = some (.leased l)) (hes : ∀ e ∈ es, e.job ≠ j) :
    l.dispatched = false := by
  obtain ⟨l₁, mid, p, n, rfl, hno, hdisp⟩ := Life.lease_origin hlog
  by_contra hd
  obtain ⟨m, hm⟩ := hdisp (by simpa using hd)
  refine h.undrained l₁ (mid ++ es) fs l.owner p n (by simp) (fun e he => ?_) m
    (List.mem_append_left _ hm)
  rcases List.mem_append.mp he with he | he
  · exact hno e he
  · exact Event.isClaimOf_of_ne (hes e he)

/-- Workers that dispatched the body released nothing. -/
theorem Undrained.of_disjoint {j : Uuid} {log : List Event}
    (h : ∀ w, .released w j ∈ log → ∀ m, .dispatched w j m ∉ log) : Undrained j log where
  undrained l₁ mid l₂ w p n he _ m hm := h w (by simp [he]) m (by simp [he, hm])

theorem Undrained.of_append {j : Uuid} {log es : List Event}
    (h : Undrained j (log ++ es)) : Undrained j log where
  undrained l₁ mid l₂ w p n he := by
    subst he
    exact h.undrained l₁ mid (l₂ ++ es) w p n (by simp)

/-- Claims that are looked at, or never seen, only leave the tally. -/
theorem Took.pending {cfg : OwnerToken → Settings} {s s' : State P} {a : Action P}
    {es : List Event} (h : Took cfg s a s' es) {j : Uuid} {v : OwnerToken} {n : ℕ}
    (hp : (s'.workers v).Pending j n) :
    (s.workers v).Pending j n ∨ a.isApplyClaim = true := by
  by_cases hv : a.worker = some v
  swap
  · rw [h.workers_other hv] at hp
    exact .inl hp
  obtain ⟨c, hc, hj, hn⟩ := hp
  cases h with
  | tick => cases hv
  | enqueue => cases hv
  | applyClaim => cases hv; exact .inr rfl
  | bodyReturns hp =>
      cases hv
      rename_i error _ _ _ _
      rw [State.setWorker_self] at hc
      cases error <;> cases hc
  | applyDropped hst ht hdb =>
      cases hv
      rw [State.setDb_workers, State.setWorker_self] at hc
      exact .inl ⟨c, hc, hj, hn⟩
  | applyDroppedBeat hb ht hdb =>
      cases hv
      rw [State.setDb_workers, State.setWorker_self] at hc
      exact .inl ⟨c, hc, hj, hn⟩
  | _ =>
      cases hv
      simp [State.setPhase_eq, Worker.leave, Worker.abandon] at hc

def Event.isDispatch : Event → Bool
  | .dispatched .. => true
  | _ => false

theorem dispatchesOf_of_not {j : Uuid} {e : Event} (h : e.isDispatch = false) :
    dispatchesOf j [e] = [] := by
  cases e with
  | dispatched w k n => cases h
  | _ => rfl

/-- Any event but a claim or a dispatch. -/
theorem Tally.event {N : ℕ} {D : List ℕ} {pend : OwnerToken → ℕ → Prop} {j : Uuid} {L L' : Life}
    {e : Event} (h : Tally N D pend L) (hs : Life.step j L e = some L')
    (hclaim : e.isClaimOf j = false) (hdisp : e.isDispatch = false)
    (hfail : ∀ l, L = .leased l → e = .failed l.owner j → l.count < N)
    (hrel : ∀ l, L = .leased l → e = .released l.owner j →
      l.count ≤ N ∧ l.dispatched = false ∧ ∀ n, ¬pend l.owner n) :
    Tally N D pend L' := by
  cases Life.step_moved hs with
  | other => exact h
  | inserted hL => subst hL; exact h.inserted
  | claimed => simp [Event.isClaimOf] at hclaim
  | dispatched => cases hdisp
  | returned => exact h.mark fun _ => ⟨rfl, rfl, id⟩
  | abandoned => exact h.mark fun _ => ⟨rfl, rfl, id⟩
  | failed hL => subst hL; exact h.ready (hfail _ rfl rfl) (.inl rfl)
  | released hL =>
      subst hL
      obtain ⟨hc, hd, hp⟩ := hrel _ rfl rfl
      exact h.ready hc (.inr ⟨rfl, hd, hp⟩)
  | deadLettered hL => subst hL; exact h.ended (.inl ⟨_, rfl, Nat.le_add_right _ _⟩)
  | deleted hL => subst hL; exact h.ended (.inr rfl)

/-- A statement that ends or requeues a lease. -/
theorem Tally.applied {N : ℕ} {D : List ℕ} {pend : OwnerToken → ℕ → Prop} {j : Uuid} {L L' : Life}
    {cfg : Settings} {w : OwnerToken} {now : ℕ} {skip : List Uuid} {st : Statement P}
    {db db' : Db P} {es : List Event} (h : Tally N D pend L)
    (hdb : st.apply cfg w now skip db = some (db', es)) (hclaim : st.isClaim = false)
    (hr : Life.replay j L es = some L')
    (hfail : ∀ l job message, L = .leased l → l.owner = w → st = .fail job message →
      job.jobId = j → l.count < N) :
    Tally N D pend L' ∧ dispatchesOf j es = [] := by
  have hone : ∀ e, es = [] ∨ es = [e] → e.isClaimOf j = false → e.isDispatch = false →
      (∀ l, L = .leased l → e = .failed l.owner j → l.count < N) →
      (∀ v, e ≠ .released v j) → Tally N D pend L' ∧ dispatchesOf j es = [] := by
    rintro e (rfl | rfl) he hd hf hrel
    · cases hr
      exact ⟨h, rfl⟩
    · rw [Life.replay, StepRun.replay_singleton] at hr
      exact ⟨h.event hr he hd hf fun l _ hl => absurd hl (hrel _), dispatchesOf_of_not hd⟩
  cases st with
  | claim sentAt => cases hclaim
  | delete job =>
      simp only [Statement.apply, Option.some.injEq, Prod.mk.injEq] at hdb
      obtain ⟨-, rfl⟩ := hdb
      exact hone (.deleted w job.jobId) (by split <;> simp) rfl rfl (by simp) (by simp)
  | fail job message =>
      simp only [Statement.apply, Option.map_eq_some_iff, Prod.mk.injEq] at hdb
      obtain ⟨r, -, -, rfl⟩ := hdb
      refine hone (.failed w job.jobId) (by split <;> simp) rfl rfl (fun l hl he => ?_) (by simp)
      simp only [Event.failed.injEq] at he
      exact hfail l job message hl he.1.symm rfl he.2
  | deadLetter job count message failedBody =>
      simp only [Statement.apply, Option.map_eq_some_iff, Prod.mk.injEq] at hdb
      obtain ⟨r, -, -, rfl⟩ := hdb
      exact hone (.deadLettered w job.jobId count failedBody) (by split <;> simp) rfl rfl (by simp)
        (by simp)

/-- A claim applied, answered (`pend'` may then hold it) or not. -/
theorem Tally.claimed {N : ℕ} {D : List ℕ} {pend pend' : OwnerToken → ℕ → Prop} {j : Uuid}
    {L L' : Life} {w : OwnerToken} {row : Option (ClaimedRow P)} (h : Tally N D pend L)
    (hr : Life.replay j L (claimEvents w row) = some L')
    (hp : ∀ v m, pend' v m → pend v m ∨
      v = w ∧ ∃ c, row = some c ∧ c.job.jobId = j ∧ c.job.errorCount = m) :
    Tally N D pend' L' ∧ dispatchesOf j (claimEvents w row) = [] := by
  cases row with
  | none =>
      cases hr
      refine ⟨h.forget fun v m hv => ?_, rfl⟩
      rcases hp v m hv with hv | ⟨-, c, hc, -⟩
      · exact hv
      · cases hc
  | some c =>
      refine ⟨?_, rfl⟩
      rw [claimEvents, Life.replay, StepRun.replay_singleton] at hr
      generalize he : Event.claimed w c.job.jobId c.previousLockedBy c.job.errorCount = e at hr
      cases Life.step_moved hr with
      | other hj =>
          subst he
          refine h.forget fun v m hv => ?_
          rcases hp v m hv with hv | ⟨-, c', hc', hid, -⟩
          · exact hv
          · cases hc'
            exact absurd hid hj
      | claimed hn hprev hlive =>
          cases he
          refine h.claim ?_ fun v m hv => ?_
          · rcases hlive with ⟨k, last, rfl⟩ | ⟨l, rfl⟩
            · left
              cases hprev' : c.previousLockedBy with
              | none => exact ⟨last, by rw [hn, hprev']; rfl⟩
              | some p => obtain ⟨l, hl, -⟩ := (hprev p).mp hprev'; cases hl
            · right
              have := (hprev l.owner).mpr ⟨l, rfl, rfl⟩
              exact ⟨l, rfl, by rw [hn, this]; rfl⟩
          · rcases hp v m hv with hv | ⟨rfl, c', hc', -, rfl⟩
            · exact .inl hv
            · cases hc'
              exact .inr ⟨rfl, rfl⟩
      | _ => cases he

/-- A claim of an unlocked row returns a count within the limit; a claim of a
locked one adds the charge. -/
theorem claimRow_remembers {N : ℕ} {j : Uuid} {w : OwnerToken} {window now : ℕ}
    {skip : List Uuid} {db db' : Db P} {c : ClaimedRow P} {L : Life} (hL : L.Shows j db)
    (hle : ∀ k last, L = .ready k last → k ≤ N)
    (h : claimRow w window now skip db = (db', some c)) :
    (c.job.jobId = j → c.previousLockedBy = none → c.job.errorCount ≤ N) ∧
      (c.previousLockedBy.isSome = true → c.job.errorCount = c.previousErrorCount + 1) := by
  rcases claimRow_spec h with ⟨-, hn⟩ | ⟨r, hr, -, hc, -⟩
  · cases hn
  cases hc
  constructor
  · rintro hid hprev
    have hprev : r.lockedBy = none := hprev
    have hid : r.jobId = j := hid
    obtain ⟨-, ⟨last, rfl, -⟩ | ⟨l, rfl, ho, -⟩⟩ := hL.of_lookup (hid ▸ hr)
    · simpa [JobRow.claimedBy, JobRow.toJob, hprev] using hle _ last rfl
    · rw [hprev] at ho
      cases ho
  · intro hprev
    cases ho : r.lockedBy with
    | none => simp [ho] at hprev
    | some p => simp [JobRow.claimedBy, JobRow.toJob, ho]

theorem Phase.statement_fail {cfg : Settings} {phase : Phase P} {job : JobFromDB P}
    {message : String} (h : phase.statement cfg = some (.fail job message)) :
    job.errorCount < cfg.maxRetries := by
  cases phase with
  | failing job' message' =>
      simp only [Phase.statement] at h
      split_ifs at h with hlim
      · cases h
      · cases h
        exact Nat.lt_of_not_le hlim
  | _ => simp [Phase.statement] at h

theorem Took.remembers {cfg : OwnerToken → Settings} {s s' : State P} {a : Action P}
    {es : List Event} {N : ℕ} {j : Uuid} {L : Life} (h : Took cfg s a s' es)
    (hmax : ∀ w, (cfg w).maxRetries = N) (hL : L.Shows j s.db)
    (hle : ∀ k last, L = .ready k last → k ≤ N) (hR : ∀ w, (s.workers w).Remembers N j)
    (w : OwnerToken) : (s'.workers w).Remembers N j := by
  by_cases hw : a.worker = some w
  swap
  · rw [h.workers_other hw]
    exact hR w
  have hkeep : ∀ {wk : Worker P}, (∀ row, wk.phase ≠ .fetched row) →
      wk.dropped = (s.workers w).dropped → wk.Remembers N j := fun hne hd =>
    ⟨fun c hc => absurd hc (hne _), fun c hc => absurd hc (hne _),
      fun job m hm => (hR w).fail job m (hd ▸ hm)⟩
  have hexit : ∀ phase, (∀ row, phase ≠ .fetched row) →
      ({ (s.workers w).leave phase with
        dropped := (s.workers w).inFlight (cfg w) } : Worker P).Remembers N j := by
    refine fun phase hne => ⟨fun c hc => absurd hc (hne _), fun c hc => absurd hc (hne _),
      fun job m hm => ?_⟩
    rcases Option.or_eq_some_iff.mp hm with hst | ⟨-, hd⟩
    · exact hmax w ▸ Phase.statement_fail hst
    · exact (hR w).fail job m hd
  cases h with
  | tick => cases hw
  | enqueue => cases hw
  | @applyClaim v now sentAt skip db row hp ht hdb =>
      cases hw
      rw [State.setDb_workers, State.setPhase_eq, State.setWorker_self]
      cases row with
      | none => exact ⟨nofun, nofun, (hR w).fail⟩
      | some c =>
          have hspec := claimRow_remembers hL hle hdb
          refine ⟨fun c' hc => ?_, fun c' hc => ?_, (hR w).fail⟩
          · cases hc
            exact hspec.1
          · cases hc
            exact hspec.2
  | bodyReturns hp =>
      cases hw
      rename_i error _ _ _ _
      rw [State.setWorker_self]
      exact hkeep (by cases error <;> nofun) rfl
  | shutdown hp => cases hw; rw [State.setWorker_self]; exact hexit _ nofun
  | die hp => cases hw; rw [State.setWorker_self]; exact hexit _ nofun
  | applyDropped hst ht hdb =>
      cases hw
      rw [State.setDb_workers, State.setWorker_self]
      exact ⟨(hR w).unlocked, (hR w).expired, nofun⟩
  | applyDroppedBeat hb ht hdb =>
      cases hw
      rw [State.setDb_workers, State.setWorker_self]
      exact ⟨(hR w).unlocked, (hR w).expired, (hR w).fail⟩
  | _ =>
      cases hw
      simp only [State.setDb_workers, State.setPhase_eq, State.setWorker_self]
      exact hkeep nofun rfl

/-- The tally and what the workers remember, one step on. -/
theorem Tally.step {cfg : OwnerToken → Settings} {s s' : State P} {a : Action P} {N : ℕ}
    {j : Uuid} {log es : List Event} {L L' : Life}
    (h : Tally N (dispatchesOf j log) (fun w => (s.workers w).Pending j) L)
    (hsim : Sim j s L) (hlog : Life.replay j .absent log = some L)
    (hR : ∀ w, (s.workers w).Remembers N j) (hmax : ∀ w, (cfg w).maxRetries = N)
    (hC : s.releasesWithin N a = true) (hend : Undrained j (log ++ es))
    (hs : Took cfg s a s' es) (hr : Life.replay j L es = some L') :
    Tally N (dispatchesOf j (log ++ es)) (fun w => (s'.workers w).Pending j) L' := by
  have hpend : a.isApplyClaim = false → ∀ v n, (s'.workers v).Pending j n →
      (s.workers v).Pending j n := fun hne v n hp =>
    (hs.pending hp).resolve_right (by simp [hne])
  have hforget : ∀ {D : List ℕ} {M : Life}, a.isApplyClaim = false →
      Tally N D (fun w => (s.workers w).Pending j) M →
      Tally N D (fun w => (s'.workers w).Pending j) M :=
    fun hne hT => hT.forget (hpend hne)
  have hnil : es = [] → a.isApplyClaim = false →
      Tally N (dispatchesOf j (log ++ es)) (fun w => (s'.workers w).Pending j) L' := by
    rintro rfl hne
    cases hr
    rw [List.append_nil]
    exact hforget hne h
  rw [dispatchesOf_append]
  cases hs with
  | enqueue hn hdb =>
      rw [Life.replay, StepRun.replay_singleton] at hr
      refine hforget rfl ?_
      rw [dispatchesOf_of_not (e := .inserted _) rfl, List.append_nil]
      exact h.event hr rfl rfl (by simp) (by simp)
  | @applyClaim w now sentAt skip db row hp ht hdb =>
      have hp : ∀ v m, (((s.setPhase w (.fetched (row.map fun c =>
          (⟨c, sentAt⟩ : ClaimedJob P)))).setDb db).workers v).Pending j m →
          (s.workers v).Pending j m ∨
            v = w ∧ ∃ c, row = some c ∧ c.job.jobId = j ∧ c.job.errorCount = m := by
        intro v m hv
        rw [State.setDb_workers, State.setPhase_eq] at hv
        by_cases hvw : v = w
        · subst hvw
          rw [State.setWorker_self] at hv
          obtain ⟨c, hc, hid, hn⟩ := hv
          cases row with
          | none => cases hc
          | some c' => cases hc; exact .inr ⟨rfl, c', rfl, hid, hn⟩
        · rw [State.setWorker_other _ _ hvw] at hv
          exact .inl hv
      obtain ⟨hT, hd⟩ := h.claimed hr hp
      rw [hd, List.append_nil]
      exact hT
  | receiveLate hp hlim hlate =>
      rw [Life.replay, StepRun.replay_singleton] at hr
      rw [dispatchesOf_of_not (e := .abandoned ..) rfl, List.append_nil]
      exact hforget rfl (h.event hr rfl rfl (by simp) (by simp))
  | @dispatch w c hp hlim hintime =>
      rw [Life.replay, StepRun.replay_singleton] at hr
      generalize he : Event.dispatched w c.job.jobId c.job.errorCount = e at hr ⊢
      cases Life.step_moved hr with
      | other hj =>
          subst he
          have hne : c.job.jobId ≠ j := hj
          simpa [dispatchesOf, hne] using hforget rfl h
      | dispatched hg =>
          cases he
          have hn : c.job.errorCount ≤ N := by
            cases hprev : c.previousLockedBy with
            | none => exact (hR w).unlocked c hp rfl hprev
            | some p =>
                have := hlim (by simp [hprev])
                rw [(hR w).expired c hp (by simp [hprev])]
                rw [hmax w] at this
                omega
          have hdisp : dispatchesOf c.job.jobId
              [.dispatched w c.job.jobId c.job.errorCount] = [c.job.errorCount] := by
            simp [dispatchesOf]
          rw [hdisp]
          refine h.dispatch hn ⟨c, hp, rfl, rfl⟩ fun v m hv => ⟨hpend rfl v m hv, ?_⟩
          rintro rfl
          rw [State.setWorker_self] at hv
          obtain ⟨c', hc', -⟩ := hv
          cases hc'
      | _ => cases he
  | bodyReturns hp =>
      rw [Life.replay, StepRun.replay_singleton] at hr
      rw [dispatchesOf_of_not (e := .returned ..) rfl, List.append_nil]
      exact hforget rfl (h.event hr rfl rfl (by simp) (by simp))
  | watchdog hp ht =>
      rw [Life.replay, StepRun.replay_singleton] at hr
      rw [dispatchesOf_of_not (e := .abandoned ..) rfl, List.append_nil]
      exact hforget rfl (h.event hr rfl rfl (by simp) (by simp))
  | @finish w now st db es hp ht hst hdb =>
      have hclaim : st.isClaim = false := Phase.statement_not_claim hp hst
      obtain ⟨hT, hd⟩ := h.applied hdb hclaim hr fun l job message hl hw he hid => by
        subst he
        obtain ⟨-, hc⟩ := hsim.statement_fits hst hl hw hid
        rw [← hc, ← hmax w]
        exact Phase.statement_fail hst
      rw [hd, List.append_nil]
      exact hforget rfl hT
  | @cleanup w answered hp =>
      have hD : dispatchesOf j (releasedEvents w (s.workers w).abandoned s.db) = [] := by
        simp [dispatchesOf, releasedEvents, List.filterMap_map]
      rw [hD, List.append_nil]
      refine hforget rfl ?_
      have hr' := hr
      rw [← Life.replay_filter, releasedEvents_filter] at hr'
      cases hq : (s.db.jobs.lookup j).filter (JobRow.releasable w (s.workers w).abandoned) with
      | none =>
          rw [hq] at hr'
          cases hr'
          exact h
      | some r =>
          rw [hq, Option.toList_some, List.map_cons, List.map_nil, Life.replay,
            StepRun.replay_singleton] at hr'
          obtain ⟨hlook, hrel⟩ := Option.filter_eq_some_iff.mp hq
          have hid := KeyedTable.key_of_lookup hlook
          refine h.event hr' rfl rfl (by simp) fun l hl he => ?_
          simp only [Event.released.injEq] at he
          obtain ⟨rfl, hid⟩ := he
          subst hl
          have hmem : Event.released l.owner j ∈
              releasedEvents l.owner (s.workers l.owner).abandoned s.db :=
            List.mem_map.mpr ⟨r, List.mem_filter.mpr ⟨KeyedTable.mem_of_lookup hlook, hrel⟩,
              by rw [hid]⟩
          refine ⟨?_, ?_, fun n => ?_⟩
          · have hle := List.all_eq_true.mp hC r (KeyedTable.mem_of_lookup hlook)
            rw [hrel] at hle
            obtain ⟨-, ⟨last, hl, -⟩ | ⟨l', hl, -, hc⟩⟩ := hsim.tables.of_lookup hlook
            · cases hl
            · cases hl
              simpa [hc] using hle
          · obtain ⟨pre, post, he, hnot⟩ := List.eq_append_cons_of_mem hmem
            rw [he] at hend
            refine hend.undispatched hlog fun e hpre hej => hnot ?_
            have hin : e ∈ releasedEvents l.owner (s.workers l.owner).abandoned s.db :=
              he ▸ List.mem_append_left _ hpre
            obtain ⟨q, -, rfl⟩ := List.mem_map.mp hin
            have hqj : q.jobId = j := hej
            rwa [hqj] at hpre
          · rintro ⟨c, hph, -⟩
            rw [hp] at hph
            cases hph
  | @applyDropped w now skip st db es hst ht hdb =>
      cases hclaim : st.isClaim with
      | true =>
          cases st with
          | claim sentAt =>
              cases hdb
              obtain ⟨hT, hd⟩ := h.claimed hr fun v m hv => .inl hv
              rw [hd, List.append_nil]
              exact hforget rfl hT
          | _ => cases hclaim
      | false =>
          obtain ⟨hT, hd⟩ := h.applied hdb hclaim hr fun l job message hl hw he hid => by
            subst he hw
            obtain ⟨-, hc⟩ := (hsim.owner l hl).dropped _ hst hid
            rw [← hc]
            exact (hR l.owner).fail job message hst
          rw [hd, List.append_nil]
          exact hforget rfl hT
  | _ => rw [← dispatchesOf_append]; exact hnil rfl rfl

/-- In every run whose releases unlock no row above the limit, a job none of
whose bodies is drained is dispatched at most `N + 1` times. -/
theorem attempts_le {cfg : OwnerToken → Settings} {N : ℕ} {log : List Event} {s : State P}
    {j : Uuid} (hmax : ∀ w, (cfg w).maxRetries = N)
    (h : QueueRun cfg (fun s a => s.releasesWithin N a) log s) (hend : Undrained j log) :
    (dispatchesOf j log).length ≤ N + 1 := by
  have hinv : Undrained j log → ∃ L, Life.replay j .absent log = some L ∧ Sim j s L ∧
      Tally N (dispatchesOf j log) (fun w => (s.workers w).Pending j) L ∧
      ∀ w, (s.workers w).Remembers N j := by
    refine h.invariant (I := fun log s => Undrained j log → ∃ L,
      Life.replay j .absent log = some L ∧ Sim j s L ∧
      Tally N (dispatchesOf j log) (fun w => (s.workers w).Pending j) L ∧
      ∀ w, (s.workers w).Remembers N j) (fun _ => ?_) fun log s a s' es _ hI hC hs hend => ?_
    · refine ⟨.absent, rfl, Sim.init, ?_, fun w => ⟨nofun, nofun, nofun⟩⟩
      exact Tally.init.forget fun w n ⟨c, hc, _⟩ => by cases hc
    · obtain ⟨L, hlog, hsim, hT, hR⟩ := hI hend.of_append
      obtain ⟨L', hr, hsim'⟩ := hsim.step hs
      exact ⟨L', StepRun.replay_trans hlog hr, hsim',
        hT.step hsim hlog hR hmax hC hend (step_took hs) hr,
        (step_took hs).remembers hmax hsim.tables hT.ready_le hR⟩
  obtain ⟨L, -, -, hT, -⟩ := hinv hend
  exact hT.length_le

/-- One retry: the body fails, waits and runs again. -/
theorem attempts_le_retried : ∃ (log : List Event) (s : State Unit),
    QueueRun (fun _ => .default 1 (by decide)) (fun s a => s.releasesWithin 1 a) log s ∧
      FailsOrLosesLease 7 log ∧ (dispatchesOf 7 log).length ≤ 1 + 1 := by
  obtain ⟨log, s, hrun, hlog⟩ := StepRun.exists_run
    (step (P := Unit) fun _ => .default 1 (by decide)) (State.releasesWithin 1) .init
    [.enqueue ⟨7, "Job", (), none, "", 0⟩, .sendClaim 1, .applyClaim 1 0 [], .receiveClaim 1,
      .bodyReturns 1 (some "Err"), .finish 1 0 true, .tick 3000000000, .sendClaim 1,
      .applyClaim 1 3000000 [], .receiveClaim 1]
    (fun log _ => log == [.inserted 7, .claimed 1 7 none 0, .dispatched 1 7 0,
      .returned 1 7 false true, .failed 1 7, .claimed 1 7 none 1, .dispatched 1 7 1]) (by decide)
  have hend : FailsOrLosesLease 7 log := by
    rw [eq_of_beq hlog]
    exact ⟨.of_disjoint (by simp), by simp⟩
  exact ⟨log, s, hrun, hend, attempts_le (fun _ => rfl) hrun hend.toUndrained⟩

/-- No retries allowed, and yet two dispatches. The second worker finds the
expired lease and charges it; a shutdown between the claim and the dead-letter
transaction releases the row, and the third worker runs the body again. -/
theorem attempts_exceed : ¬ ∀ (cfg : OwnerToken → Settings) (N : ℕ) (log : List Event)
    (s : State Unit) (j : Uuid), (∀ w, (cfg w).maxRetries = N) →
      QueueRun cfg StepRun.Free log s → FailsOrLosesLease j log →
      (dispatchesOf j log).length ≤ N + 1 := by
  intro hall
  obtain ⟨log, s, hrun, hlog⟩ := StepRun.exists_free_run
    (step (P := Unit) fun _ => .default 0 (by decide)) .init
    [.enqueue ⟨7, "Job", (), none, "", 0⟩, .sendClaim 1, .applyClaim 1 0 [], .receiveClaim 1,
      .die 1, .tick 121000000000, .sendClaim 2, .applyClaim 2 121000000 [], .receiveClaim 2,
      .shutdown 2, .cleanup 2 true true, .sendClaim 3, .applyClaim 3 121000000 [],
      .receiveClaim 3]
    (fun log _ => log == [.inserted 7, .claimed 1 7 none 0, .dispatched 1 7 0,
      .claimed 2 7 (some 1) 1, .released 2 7, .claimed 3 7 none 1, .dispatched 3 7 1]) (by decide)
  have hend : FailsOrLosesLease 7 log := by
    rw [eq_of_beq hlog]
    exact ⟨.of_disjoint (by simp +contextual), by simp⟩
  have hle := hall _ 0 log s 7 (fun _ => rfl) hrun hend
  rw [eq_of_beq hlog] at hle
  simp [dispatchesOf] at hle

end Cja.Jobs
