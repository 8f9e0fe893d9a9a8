import Cja.Durable.Pinned
import Cja.Durable.System
import Cja.Durable.Transcript
import Cja.Jobs.Kept

/-!
# Runs without a job

An attempt that finds its lease lost returns `Ok`, and its job row is deleted: whoever took
the lease is to keep a row of the run. It does where it claims through a row, that is where
the worker that polls it owns a job of the run. A claim that is applied after its attempt
ended, or for a body that outlived the lease of its job, takes the lease through no row, and
the run is left behind.
-/
namespace Cja.Durable

open Jobs (Uuid OwnerToken)

variable {R : Rig} {qcfg : OwnerToken → Jobs.Settings} {cfg : Config}

/-! ## What a transaction enqueues -/

theorem not_enqueued_wrote (writer : Option LeaseToken) (run k : Uuid) (db db' : Db Json) :
    .enqueued k ∉ wroteEvents writer run db db' := by
  intro h
  obtain ⟨row, -, he⟩ := List.mem_map.1 h
  cases he

/-- A step enqueues one job at most. -/
theorem Took.enqueued {s s' : Engine R} {a : Action R} {es : List Event} {id : Uuid}
    (h : Took cfg s a s' es) (hmem : .enqueued id ∈ es) :
    es.findSome? Event.enqueued? = some id := by
  have hwrote : ∀ (writer : Option LeaseToken) (run : Uuid) (db db' : Db Json),
      (wroteEvents writer run db db').findSome? Event.enqueued? = none := by
    intro writer run db db'
    rw [List.findSome?_eq_none_iff]
    intro e he
    obtain ⟨row, -, rfl⟩ := List.mem_map.1 he
    rfl
  have htx : ∀ {writer : Option LeaseToken} {run : Uuid} {db db' : Db Json} {enqueues : Bool},
      .enqueued id ∈ wroteEvents writer run db db' ++ enqueuedEvents run enqueues →
      (wroteEvents writer run db db' ++ enqueuedEvents run enqueues).findSome? Event.enqueued? =
        some id := by
    intro writer run db db' enqueues he
    rw [List.findSome?_append, hwrote, Option.none_or]
    rcases List.mem_append.1 he with he | he
    · exact absurd he (not_enqueued_wrote _ _ _ _ _)
    · unfold enqueuedEvents at he ⊢
      split_ifs at he ⊢
      · cases List.mem_singleton.1 he
        rfl
      · cases he
  cases h with
  | commit => exact htx hmem
  | applied => exact htx hmem
  | late => exact htx hmem
  | start =>
      cases List.mem_singleton.1 hmem
      rfl
  | answer =>
      rw [List.findSome?_cons, List.findSome?_append, hwrote]
      simp only [List.mem_cons, List.mem_append] at hmem
      rcases hmem with he | he | he | he
      · cases he
      · exact absurd he (not_enqueued_wrote _ _ _ _ _)
      · cases he
        rfl
      · cases he
  | cancel => exact absurd hmem (not_enqueued_wrote _ _ _ _ _)
  | _ => cases hmem

/-! ## Runs and their jobs -/

namespace System

/-- The attempt is polled by a worker that owns the row of a job of the run. -/
def holdsJob (s : System R) (run : Uuid) (me : LeaseToken) : Bool :=
  s.queue.db.jobs.rows.any (fun r => r.payload == .advanceRun run && r.lockedBy.any fun w =>
      s.bodies w == some me &&
        (s.queue.workers w).phase.body?.any fun job => job.jobId == r.jobId) &&
    (s.engine.attempts me).any fun j => match j.pc with
      | .returned ok => !ok
      | _ => true

/-- Whoever takes the lease from an attempt that still drives the run claims through a job. -/
def rightful (cfg : Config) (s : System R) : SystemAction R → Bool
  | .engine a _ _ => (s.engine.seizes cfg a).all fun p => s.holdsJob p.1 p.2
  | .leaves a fate now _ _ => (leavesBody a).all fun w => (s.bodies w).all fun me =>
      (s.engine.seizes cfg (.vanish me fate now)).all fun p => s.holdsJob p.1 p.2
  | _ => true

/-- Every attempt that the owner of the job polls for the run is pinned. -/
def Pinned (s : System R) (run : Uuid) (r : RunRow Json) (job : Uuid) : Prop :=
  ∀ w me k pc, s.queue.db.ownerOf job = some w → s.bodies w = some me →
    (s.queue.workers w).phase.body? = some k → k.jobId = job →
    s.engine.attempts me = some ⟨run, pc⟩ → pc.pinned me r = true

/-- The jobs of a run that keep it from being left behind. -/
structure Manned (pay : Uuid → Option Payload) (log : List Jobs.Event) (s : System R)
    (run : Uuid) (r : RunRow Json) (job : Uuid) : Prop where
  payload : pay job = some (.advanceRun run)
  kept : Jobs.Kept job log s.queue
  pinned : s.Pinned run r job

/-- Every run that is to be advanced has such a job. -/
def AllManned (pay : Uuid → Option Payload) (log : List Jobs.Event) (s : System R) : Prop :=
  ∀ run r, s.engine.db.runs run = some r → r.status.active = true →
    ∃ job, s.Manned pay log run r job

theorem holdsJob_spec {s : System R} {run : Uuid} {me : LeaseToken}
    (h : s.holdsJob run me = true) : ∃ r w k,
      s.queue.db.jobs.lookup r.jobId = some r ∧ r.payload = .advanceRun run ∧
      s.queue.db.ownerOf r.jobId = some w ∧ s.bodies w = some me ∧
      (s.queue.workers w).phase.body? = some k ∧ k.jobId = r.jobId ∧
      ∃ j, s.engine.attempts me = some j ∧ j.pc ≠ .returned true := by
  unfold holdsJob at h
  obtain ⟨hrow, hpc⟩ := Bool.and_eq_true_iff.1 h
  obtain ⟨r, hr, htest⟩ := List.any_eq_true.1 hrow
  obtain ⟨hpayload, howner⟩ := Bool.and_eq_true_iff.1 htest
  obtain ⟨w, hw, htest⟩ := (Option.any_eq_true _ _).1 howner
  obtain ⟨hme, hbody⟩ := Bool.and_eq_true_iff.1 htest
  obtain ⟨k, hk, hid⟩ := (Option.any_eq_true _ _).1 hbody
  obtain ⟨j, hj, hne⟩ := (Option.any_eq_true _ _).1 hpc
  have hlookup := KeyedTable.lookup_of_mem hr
  refine ⟨r, w, k, hlookup, beq_iff_eq.1 hpayload, Jobs.Db.ownerOf_eq_some.2 ⟨r, hlookup, hw⟩,
    beq_iff_eq.1 hme, hk, beq_iff_eq.1 hid, j, hj, fun he => ?_⟩
  rw [he] at hne
  cases hne

end System

section

variable {q q' : Jobs.State Payload} {es : List Event} {qes log : List Jobs.Event} {job : Uuid}
variable {pay : Uuid → Option Payload}

theorem Inserts.kept (h : Inserts qcfg q es q' qes) (hk : Jobs.Kept job log q) :
    Jobs.Kept job (log ++ qes) q' := by
  cases h with
  | nothing => rwa [List.append_nil]
  | job h hn hq =>
      refine hk.step hq fun w he => ?_
      cases Jobs.step_took hq with
      | enqueue => simp at he

theorem Inserts.ownerOf (h : Inserts qcfg q es q' qes) {w : OwnerToken}
    (hw : q'.db.ownerOf job = some w) : q.db.ownerOf job = some w := by
  cases h with
  | nothing => exact hw
  | job h hn hq =>
      cases Jobs.step_took hq with
      | enqueue hn' hdb => exact (Jobs.enqueue_keeps hdb).of_some hw

theorem Inserts.carries (h : Inserts qcfg q es q' qes) (hcar : q.Carries pay) :
    ∃ pay', q'.Carries pay' ∧ ∀ job p, pay job = some p → pay' job = some p := by
  cases h with
  | nothing => exact ⟨pay, hcar, fun _ _ => id⟩
  | job h hn hq => exact (Jobs.step_took hq).carries hcar

/-- The job that a transaction enqueues for a run is kept, and nobody owns it. -/
theorem Inserts.enqueued (h : Inserts qcfg q es q' qes) {run : Uuid}
    (hrun : es.findSome? Event.enqueued? = some run) (hlog : Jobs.QueueRun qcfg StepRun.Free log q)
    (hcar : q'.Carries pay) : ∃ job, pay job = some (.advanceRun run) ∧
      Jobs.Kept job (log ++ qes) q' ∧ q'.db.ownerOf job = none := by
  cases h with
  | nothing h =>
      rw [hrun] at h
      cases h
  | @job run' n q' qes h hn hq =>
      rw [hrun] at h
      cases h
      obtain ⟨hkept, hown⟩ := Jobs.Kept.enqueue hlog hq
      refine ⟨n.jobId, ?_, hkept, hown⟩
      cases Jobs.step_took hq with
      | @enqueue _ db hn' hdb =>
          simp only [Jobs.enqueueOnConnection, Option.map_eq_some_iff] at hdb
          obtain ⟨t, ht, rfl⟩ := hdb
          have hrow := (KeyedTable.lookup_insert ht n.jobId).trans
            (if_pos (show n.jobId = n.row.jobId from rfl))
          rw [hcar.db.row _ _ hrow, ← hn]
          rfl

end

/-! ## Steps of the system -/

namespace System.AllManned

variable {s s' : System R} {pay pay' : Uuid → Option Payload} {log log₁ : List Jobs.Event}

/-- The engine takes a step from the queue `q`, which kept the jobs of runs and came to poll
nothing new for their owners. -/
theorem engine {q q' : Jobs.State Payload} {b : Action R} {e : Engine R} {es : List Event}
    {qes : List Jobs.Event} {bodies : OwnerToken → Option LeaseToken}
    (hI : s.AllManned pay log) (hb : s.engine.Basic) (hcar : s.queue.Carries pay)
    (hlog : Jobs.QueueRun qcfg StepRun.Free log s.queue)
    (hlog₁ : Jobs.QueueRun qcfg StepRun.Free log₁ q) (h : Durable.Took cfg s.engine b e es)
    (hins : Inserts qcfg q es q' qes) (hcar' : q'.Carries pay')
    (hpay : ∀ job p, pay job = some p → pay' job = some p)
    (hkept : ∀ job, Jobs.Kept job log s.queue → Jobs.Kept job log₁ q)
    (hpolled : ∀ job w me k, q.db.ownerOf job = some w → bodies w = some me →
      (q.workers w).phase.body? = some k → s.queue.db.ownerOf job = some w ∧
        s.bodies w = some me ∧ (s.queue.workers w).phase.body? = some k)
    (hstay : ∀ w me j, bodies w = some me → e.attempts me = some j →
      ∃ pc, s.engine.attempts me = some ⟨j.run, pc⟩)
    (hright : ((s.engine.seizes cfg b).all fun p => s.holdsJob p.1 p.2) = true) :
    System.AllManned pay' (log₁ ++ qes) ⟨q', e, bodies⟩ := by
  intro run r' hr' ha
  by_cases henq : .enqueued run ∈ es
  · obtain ⟨job, hp, hk, hown⟩ := hins.enqueued (h.enqueued henq) hlog₁ hcar'
    refine ⟨job, hp, hk, fun w me k pc hw => ?_⟩
    rw [show q'.db.ownerOf job = some w from hw] at hown
    cases hown
  have hbefore : ∀ {job : Uuid} {w : OwnerToken} {me : LeaseToken} {k : Jobs.JobFromDB Payload},
      q'.db.ownerOf job = some w → bodies w = some me → (q'.workers w).phase.body? = some k →
      s.queue.db.ownerOf job = some w ∧ s.bodies w = some me ∧
        (s.queue.workers w).phase.body? = some k := by
    intro job w me k hw hme hk
    rw [hins.workers] at hk
    exact hpolled job w me k (hins.ownerOf hw) hme hk
  by_cases hseize : ∃ v, s.engine.seizes cfg b = some (run, v)
  · obtain ⟨v, hv⟩ := hseize
    rw [hv, Option.all_some] at hright
    obtain ⟨row, w, k, hrow, hpayload, hown, hme, hk, hid, j, hj, hne⟩ := holdsJob_spec hright
    refine ⟨row.jobId, hpay _ _ ((hcar.db.row _ _ hrow).trans (congrArg some hpayload)),
      hins.kept (hkept _ (Jobs.Kept.of_body hlog hown hk hid)), ?_⟩
    intro u me k' pc hu hbody hk' hid' hattempt
    obtain ⟨hown', hbody', -⟩ := hbefore hu hbody hk'
    rw [hown] at hown'
    cases hown'
    rw [hme] at hbody'
    cases hbody'
    obtain ⟨pc₀, hj₀⟩ := hstay w v _ hbody hattempt
    cases hj.symm.trans hj₀
    exact h.seized hb hv hr' hj₀ hne hattempt
  · obtain ⟨r, hr, ha₀, hkeep⟩ := h.pinned hb hr' ha henq fun v hv => hseize ⟨v, hv⟩
    obtain ⟨job, hp, hk, hpinned⟩ := hI run r hr ha₀
    refine ⟨job, hpay _ _ hp, hins.kept (hkept job hk), ?_⟩
    intro w me k pc hw hme hk' hid hattempt
    obtain ⟨hw', hme', hk''⟩ := hbefore hw hme hk'
    obtain ⟨pc₀, hj₀⟩ := hstay w me _ hme hattempt
    exact hkeep me pc₀ pc hj₀ hattempt (hpinned w me k pc₀ hw' hme' hk'' hid hj₀)

theorem step {a : SystemAction R} {es : List SystemEvent} (hI : s.AllManned pay log)
    (hb : s.engine.Basic) (hl : s.Linked) (hcar : s.queue.Carries pay)
    (hlog : Jobs.QueueRun qcfg StepRun.Free log s.queue) (hc : s.rightful cfg a = true)
    (h : System.Took qcfg cfg s a s' es) : ∃ pay', s'.queue.Carries pay' ∧
      s'.AllManned pay' (log ++ queueLog es) := by
  have hlate : ∀ w, (s.queue.workers w).DroppedLate := by
    obtain ⟨L, -, hsim⟩ := Jobs.Sim.of_run 0 hlog
    exact hsim.late
  cases h with
  | @queue a q qes hown hq hkeep =>
      have ht := Jobs.step_took hq
      obtain ⟨pay', hcar', hpay⟩ := ht.carries hcar
      refine ⟨pay', hcar', fun run r hr ha => ?_⟩
      obtain ⟨job, hp, hk, hpinned⟩ := hI run r hr ha
      rw [queueLog_queue]
      refine ⟨job, hpay _ _ hp, hk.step hq fun w he => ?_, ?_⟩
      · -- the body of a run's job does not return on its own
        obtain ⟨error, k, tracker, nextTick, beat, rfl, hphase, hid, -⟩ := ht.returned_body he
        have hpayload := hcar.job w k (by rw [hphase]; rfl)
        rw [ownAction, hphase, Jobs.Phase.body?, Option.all_some, beq_iff_eq] at hown
        rw [hid, hp, hown] at hpayload
        cases hpayload
      · intro w me k pc hw hme hk' hid hattempt
        obtain ⟨k₀, run₀, pc₀, hk₀, -⟩ := hl.body w me hme
        rw [ht.body_eq hk₀ hk'] at hid
        exact hpinned w me k₀ pc (ht.owner_of_body hlate hw hk') hme hk₀ hid hattempt
  | @engine a jobId createdAt e ees q qes hbody he hq =>
      have ht := Durable.step_took he
      obtain ⟨pay', hcar', hpay⟩ := hq.carries hcar
      refine ⟨pay', hcar', ?_⟩
      simp only [queueLog_append, queueLog_queue, queueLog_engine, queueLog_persisted,
        List.nil_append]
      refine hI.engine hb hcar hlog hlog ht hq hcar' hpay (fun _ => id)
        (fun _ _ _ _ hw hme hk => ⟨hw, hme, hk⟩) (fun w me j hme hj => ?_) hc
      obtain ⟨k, run, pc, -, -, hj₀⟩ := hl.body w me hme
      obtain ⟨pc', hj'⟩ := ht.attempt_run (by rintro v fate now rfl; cases hbody)
        (hb.attempts me _ hj₀) hj₀
      rw [hj] at hj'
      cases hj'
      exact ⟨pc, hj₀⟩
  | @advance w me k run hk hnone hpayload hme =>
      refine ⟨pay, hcar, fun run' r hr ha => ?_⟩
      obtain ⟨job, hp, hkept, hpinned⟩ := hI run' r hr ha
      refine ⟨job, hp, by simpa [queueLog] using hkept, fun v u k' pc hv hu hk' hid hattempt => ?_⟩
      by_cases hvw : v = w
      · subst hvw
        have hu' : Function.update s.bodies v (some me) v = some u := hu
        rw [Function.update_self] at hu'
        cases hu'
        have hclaiming : some (JobAttempt.mk run .claiming) = some (JobAttempt.mk run' pc) :=
          (Engine.setAttempt_self s.engine me (some ⟨run, .claiming⟩)).symm.trans hattempt
        cases hclaiming
        rfl
      · have hu' : Function.update s.bodies w (some me) v = some u := hu
        rw [Function.update_of_ne hvw] at hu'
        obtain ⟨k₀, run₀, pc₀, -, -, hj₀⟩ := hl.body v u hu'
        have hne : u ≠ me := by
          rintro rfl
          exact hme (hb.attempts _ _ hj₀)
        refine hpinned v u k' pc hv hu' hk' hid ?_
        exact (Engine.setAttempt_other s.engine (some ⟨run, .claiming⟩) hne).symm.trans hattempt
  | @returns w message me run ok k q qes hk hme hreturned hq =>
      have ht := Jobs.step_took hq
      obtain ⟨pay', hcar', hpay⟩ := ht.carries hcar
      obtain ⟨k₀, run₀, pc₀, hk₀, hpayload, hj₀⟩ := hl.body w me hme
      cases hk.symm.trans hk₀
      cases hreturned.symm.trans hj₀
      refine ⟨pay', hcar', fun run' r hr ha => ?_⟩
      obtain ⟨job, hp, hkept, hpinned⟩ := hI run' r hr ha
      rw [queueLog_ended, queueLog_queue]
      refine ⟨job, hpay _ _ hp, hkept.step hq fun v he => ?_, fun v u k' pc hv hu hk' hid hj => ?_⟩
      · -- a pinned attempt that its owner polls does not return `Ok`
        rw [returned_of_body hk hq, List.mem_singleton, Jobs.Event.returned.injEq] at he
        obtain ⟨rfl, rfl, rfl, howns⟩ := he
        have hrun := hcar.job v k (Jobs.Phase.job?_of_body? hk)
        rw [hp, hpayload] at hrun
        cases hrun
        have howner : s.queue.db.ownerOf k.jobId = some v := by
          obtain ⟨row, hrow, hlocked⟩ := (Option.any_eq_true _ _).1 howns.symm
          exact Jobs.Db.ownerOf_eq_some.2 ⟨row, hrow, beq_iff_eq.1 hlocked⟩
        have hfalse := hpinned v me k _ howner hme hk rfl hreturned
        cases hfalse
      · obtain ⟨hvw, hu⟩ := polled_of_update hu
        have hown := ht.owner_of_body hlate hv hk'
        rw [ht.workers_other fun he => hvw (Option.some.inj he).symm] at hk'
        exact hpinned v u k' pc hown hu hk' hid hj
  | @leaves a fate now jobId createdAt w me q q' qes qes' e ees hw hme hq hleft he hq' =>
      have ht := Jobs.step_took hq
      have hworker := leavesBody_worker hw
      obtain ⟨pay₁, hcar₁, hpay₁⟩ := ht.carries hcar
      obtain ⟨pay', hcar', hpay⟩ := hq'.carries hcar₁
      have hstays : ∀ {v : OwnerToken} {u : LeaseToken},
          Function.update s.bodies w none v = some u → s.bodies v = some u ∧
            (q.workers v).phase.body? = (s.queue.workers v).phase.body? ∧
            e.attempts u = s.engine.attempts u := by
        intro v u hu
        obtain ⟨hvw, hu⟩ := polled_of_update hu
        refine ⟨hu, ?_, (Durable.step_took he).attempts_other fun hact => ?_⟩
        · rw [ht.workers_other]
          rw [hworker]
          exact fun he => hvw (Option.some.inj he).symm
        · obtain rfl := Option.some.inj hact
          exact hvw (hl.single v w _ hu hme)
      refine ⟨pay', hcar', ?_⟩
      have hqueue : queueLog (s.engine.persistedEvents (.vanish me fate now) ++
          (qes.map .queue ++ (ees.map .engine ++ qes'.map .queue))) = qes ++ qes' := by
        simp
      rw [hqueue, ← List.append_assoc]
      refine hI.engine hb hcar hlog (.snoc hlog trivial hq) (Durable.step_took he) hq' hcar'
        (fun job p hp => hpay job p (hpay₁ job p hp)) (fun job hk => hk.step hq fun v hv => ?_)
        (fun job v u k hv hu hk => ?_) (fun v u j hu hj => ?_) ?_
      · -- a worker that leaves its body records no `Ok` of it
        obtain ⟨error, k, tracker, nextTick, beat, rfl, -, -, hok⟩ := ht.returned_body hv
        obtain rfl := Option.isNone_iff_eq_none.1 hok.symm
        cases hw
      · obtain ⟨hu', hsame, -⟩ := hstays hu
        exact ⟨ht.owner_of_body hlate hv hk, hu', hsame ▸ hk⟩
      · obtain ⟨-, -, hattempts⟩ := hstays hu
        exact ⟨j.pc, hattempts ▸ hj⟩
      · simpa [rightful, hw, hme] using hc

end System.AllManned

theorem manned_of_run {C : System R → SystemAction R → Prop} {log : List SystemEvent}
    {s : System R} (hC : ∀ s a, C s a → s.rightful cfg a = true)
    (h : SystemRun qcfg cfg C log s) :
    ∃ pay, s.queue.Carries pay ∧ s.AllManned pay (queueLog log) := by
  refine h.invariant (I := fun log s => ∃ pay, Jobs.State.Carries pay (System.queue s) ∧
    System.AllManned pay (queueLog log) s) ⟨_, .init, ?_⟩ ?_
  · intro run r hr
    cases hr
  · rintro log s a s' es hrun ⟨pay, hcar, hI⟩ hc hs
    rw [queueLog_append]
    exact hI.step (SystemRun.basic hrun) (SystemRun.linked hrun) hcar (SystemRun.queueFree hrun)
      (hC s a hc) (System.step_took hs)

/-- While leases are taken through jobs, a queued or running run has a job in the queue, or
among the dead letters: a run is without a worker to come only by a dead letter. -/
theorem active_run_has_job {log : List SystemEvent} {s : System R} {run : Uuid} {r : RunRow Json}
    (h : SystemRun qcfg cfg (fun s a => s.rightful cfg a = true) log s)
    (hr : s.engine.db.runs run = some r) (ha : r.status = .queued ∨ r.status = .running) :
    (∃ row ∈ s.queue.db.jobs.rows, row.payload = .advanceRun run) ∨
      ∃ d ∈ s.queue.db.deadLetterJobs, d.payload = .advanceRun run := by
  obtain ⟨pay, hcar, hI⟩ := manned_of_run (fun _ _ => id) h
  have hactive : r.status.active = true := by
    rcases ha with ha | ha <;> rw [ha] <;> rfl
  obtain ⟨job, hpay, ⟨L, -, hsim, hkept⟩, -⟩ := hI run r hr hactive
  rcases hsim.tables.of_kept hkept with ⟨row, hrow⟩ | ⟨d, hd, rfl⟩
  · have hpayload := hcar.db.row _ _ hrow
    rw [hpay] at hpayload
    exact .inl ⟨row, KeyedTable.mem_of_lookup hrow, (Option.some.inj hpayload).symm⟩
  · have hpayload := hcar.db.dead d hd
    rw [hpay] at hpayload
    exact .inr ⟨d, hd, (Option.some.inj hpayload).symm⟩

/-! ## Runs -/

def defaultWorkers : OwnerToken → Jobs.Settings :=
  fun _ => .default Jobs.defaultMaxRetries (by decide)

/-- Worker `2` takes over the job and its attempt the lease; the first attempt stops. -/
def takenOver : List (SystemAction Rig.scripted) :=
  engineSteps 9 [.start 1 "greeter" "greet me" 0] ++ claimsJob 1 7 0 ++
    engineSteps 9 [.commit 7 1, .input 7 .proceed, .readSeq 7, .commit 7 2] ++
    [.queue (.tick 121000000000)] ++ claimsJob 2 8 121000000 ++
    engineSteps 9 [.commit 8 121, .input 7 (.reply (.ok "call ask")), .readSeq 7, .commit 7 122] ++
    [.returns 1 "", .queue (.finish 1 0 true)]

theorem active_run_has_job_taken_over : ∃ (log : List SystemEvent) (s : System Rig.scripted)
    (r : RunRow Json),
    SystemRun defaultWorkers scriptedConfig (fun s a => s.rightful scriptedConfig a = true) log s ∧
      s.engine.db.runs 1 = some r ∧ r.status = .running ∧ r.lockedBy = some 8 ∧
      ((∃ row ∈ s.queue.db.jobs.rows, row.payload = .advanceRun 1) ∨
        ∃ d ∈ s.queue.db.deadLetterJobs, d.payload = .advanceRun 1) := by
  obtain ⟨log, s, hrun, hdone⟩ := StepRun.exists_run (System.step defaultWorkers scriptedConfig)
    (fun s a => s.rightful scriptedConfig a) System.init takenOver
    (fun _ s => (s.engine.db.runs 1).any fun r => r.status == .running && r.lockedBy == some 8)
    (by decide +kernel)
  obtain ⟨r, hr, htest⟩ := (Option.any_eq_true _ _).1 hdone
  rw [Bool.and_eq_true, beq_iff_eq, beq_iff_eq] at htest
  exact ⟨log, s, r, hrun, hr, htest.1, htest.2, active_run_has_job hrun hr (.inr htest.1)⟩

/-- Worker `1` stalls before the claim of its attempt is sent. Its job is taken over and the run
claimed; when that lease is stale too, the first attempt's claim is sent and its worker gives up
the job. The second attempt finds its lease lost. -/
def stalled : List (SystemAction Rig.scripted) :=
  engineSteps 9 [.start 1 "greeter" "greet me" 0] ++ claimsJob 1 7 0 ++
    [.queue (.tick 121000000000)] ++ claimsJob 2 8 121000000 ++
    engineSteps 9 [.commit 8 121, .input 8 .proceed, .readSeq 8, .commit 8 122] ++
    [.queue (.tick 93000000000), .leaves (.watchdog 1) .applied 214 0 0] ++
    engineSteps 9 [.input 8 (.reply (.ok "call ask")), .readSeq 8, .commit 8 215] ++
    [.returns 2 "", .queue (.finish 2 0 true)]

theorem active_run_jobless : ¬∀ (log : List SystemEvent) (s : System Rig.scripted) (run : Uuid)
    (r : RunRow Json), SystemRun defaultWorkers scriptedConfig StepRun.Free log s →
      s.engine.db.runs run = some r → r.status = .queued ∨ r.status = .running →
      (∃ row ∈ s.queue.db.jobs.rows, row.payload = .advanceRun run) ∨
        ∃ d ∈ s.queue.db.deadLetterJobs, d.payload = .advanceRun run := by
  intro h
  obtain ⟨log, s, hrun, hdone⟩ := StepRun.exists_free_run
    (System.step defaultWorkers scriptedConfig) System.init stalled
    (fun _ s => ((s.engine.db.runs 1).any fun r => r.status == .running) &&
      s.queue.db.jobs.rows.isEmpty && s.queue.db.deadLetterJobs.isEmpty) (by decide +kernel)
  simp only [Bool.and_eq_true, List.isEmpty_iff, Option.any_eq_true, beq_iff_eq] at hdone
  obtain ⟨⟨⟨r, hr, hrunning⟩, hrows⟩, hdead⟩ := hdone
  rcases h log s 1 r hrun hr (.inr hrunning) with ⟨row, hrow, -⟩ | ⟨d, hd, -⟩
  · rw [hrows] at hrow
    cases hrow
  · rw [hdead] at hd
    cases hd

end Cja.Durable
