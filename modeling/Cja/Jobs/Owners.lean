import Cja.Jobs.Charging

/-!
# Who owns a row

A row gets an owner only from a claim of that owner; every other statement
leaves the owner in place or removes it.
-/
namespace Cja.Jobs

variable {P : Type}

/-- The owner of the row of `j`, if it is there and locked. -/
def Db.ownerOf (db : Db P) (j : Uuid) : Option OwnerToken :=
  (db.jobs.lookup j).bind JobRow.lockedBy

theorem Db.ownerOf_eq_some {db : Db P} {j : Uuid} {w : OwnerToken} :
    db.ownerOf j = some w ↔ ∃ r, db.jobs.lookup j = some r ∧ r.lockedBy = some w := by
  simp [Db.ownerOf, Option.bind_eq_some_iff]

theorem Db.ownerOf_of_mem {db : Db P} {r : JobRow P} (h : r ∈ db.jobs.rows) :
    db.ownerOf r.jobId = r.lockedBy := by
  simp [Db.ownerOf, KeyedTable.lookup_of_mem h]

/-- What a statement that claims nothing may do to an owner. -/
def Keeps (db db' : Db P) : Prop :=
  ∀ j, db'.ownerOf j = db.ownerOf j ∨ db'.ownerOf j = none

theorem Keeps.of_some {db db' : Db P} (h : Keeps db db') {j : Uuid} {w : OwnerToken}
    (hw : db'.ownerOf j = some w) : db.ownerOf j = some w := by
  rcases h j with he | hn
  · rw [← he]; exact hw
  · rw [hn] at hw; cases hw

theorem Keeps.refl (db : Db P) : Keeps db db := fun _ => .inl rfl

theorem keeps_updateJobs (db : Db P) {p : JobRow P → Bool} {f : JobRow P → JobRow P}
    (hf : ∀ r, (f r).jobId = r.jobId)
    (hl : ∀ r, (f r).lockedBy = r.lockedBy ∨ (f r).lockedBy = none) :
    Keeps db (db.updateJobs p f hf) := by
  intro j
  unfold Db.ownerOf
  rw [lookup_updateJobs]
  cases db.jobs.lookup j with
  | none => exact .inl rfl
  | some r =>
      simp only [Option.map_some, Option.bind_some]
      split
      · exact hl r
      · exact .inl rfl

theorem keeps_delete (db : Db P) (p : JobRow P → Bool) (dead : List (DeadLetterRow P)) :
    Keeps db ⟨db.jobs.delete p, dead⟩ := by
  intro j
  simp only [Db.ownerOf, KeyedTable.lookup_delete]
  cases db.jobs.lookup j with
  | none => exact .inl rfl
  | some r => cases h : p r <;> simp [Option.filter, h]

theorem heartbeat_keeps {w : OwnerToken} {k : Uuid} {now n : ℕ} {db db' : Db P}
    (h : heartbeatRow w k now db = (db', n)) : Keeps db db' := by
  cases h
  exact keeps_updateJobs db _ fun _ => .inl rfl

theorem cleanup_keeps (w : OwnerToken) (abandoned : List Uuid) (db : Db P) :
    Keeps db (cleanupWorkerLocks w abandoned db) :=
  keeps_updateJobs db _ fun _ => .inr rfl

theorem enqueue_keeps {n : NewJob P} {db db' : Db P} (h : enqueueOnConnection n db = some db') :
    Keeps db db' := by
  simp only [enqueueOnConnection, Option.map_eq_some_iff] at h
  obtain ⟨t, ht, rfl⟩ := h
  intro j
  simp only [Db.ownerOf, KeyedTable.lookup_insert ht]
  split
  · exact .inr rfl
  · exact .inl rfl

/-- A statement other than a claim gives no row to anyone. -/
theorem apply_keeps {cfg : Settings} {w : OwnerToken} {now : ℕ} {skip : List Uuid}
    {st : Statement P} {db db' : Db P} {es : List Event} (hst : st.isClaim = false)
    (h : st.apply cfg w now skip db = some (db', es)) : Keeps db db' := by
  cases st with
  | claim sentAt => cases hst
  | delete job =>
      cases h
      exact keeps_delete db _ _
  | fail job message =>
      simp only [Statement.apply, Option.map_eq_some_iff, Prod.mk.injEq] at h
      obtain ⟨⟨db₁, n⟩, hr, rfl, -⟩ := h
      unfold failRow at hr
      split_ifs at hr
      cases hr
      exact keeps_updateJobs db _ fun _ => .inr rfl
  | deadLetter job count message failedBody =>
      simp only [Statement.apply, Option.map_eq_some_iff, Prod.mk.injEq, deadLetterOwned_eq] at h
      obtain ⟨⟨db₁, owned⟩, hr, rfl, -⟩ := h
      split_ifs at hr
      · cases hr
        exact keeps_delete db _ _
      · cases hr
        exact .refl db

/-- A claim of `w` gives `w` the row it returns and leaves the others alone. -/
theorem claim_ownerOf {w : OwnerToken} {window now : ℕ} {skip : List Uuid} {db db' : Db P}
    {row : Option (ClaimedRow P)} (h : claimRow w window now skip db = (db', row)) (j : Uuid) :
    (db'.ownerOf j = db.ownerOf j ∧ ∀ c, row = some c → c.job.jobId ≠ j) ∨
      (db'.ownerOf j = some w ∧ ∃ c, row = some c ∧ c.job.jobId = j ∧
        c.previousLockedBy = db.ownerOf j) := by
  rcases claimRow_spec h with ⟨rfl, rfl⟩ | ⟨r, hr, -, rfl, rfl⟩
  · exact .inl ⟨rfl, nofun⟩
  simp only [Db.ownerOf, lookup_updateJobs]
  by_cases hj : r.jobId = j
  · subst hj
    exact .inr ⟨by simp [hr, JobRow.claimedBy], _, rfl, rfl, by simp [hr]⟩
  · refine .inl ⟨?_, by rintro c ⟨⟩; exact hj⟩
    cases hq : db.jobs.lookup j with
    | none => rfl
    | some q =>
        have := KeyedTable.key_of_lookup hq
        simp [this, Ne.symm hj]

/-- The owner a recorded claim found is the owner before the statement. -/
theorem apply_claimed {cfg : Settings} {w v : OwnerToken} {now n : ℕ} {skip : List Uuid}
    {st : Statement P} {db db' : Db P} {es : List Event} {j : Uuid} {p : Option OwnerToken}
    (h : st.apply cfg w now skip db = some (db', es)) (he : .claimed v j p n ∈ es) :
    p = db.ownerOf j := by
  cases st with
  | claim sentAt =>
      cases hr : claimRow w cfg.reclaimWindowMicros now skip db with | mk db₁ row => ?_
      simp only [Statement.apply, hr, Option.some.injEq, Prod.mk.injEq] at h
      obtain ⟨rfl, rfl⟩ := h
      cases row with
      | none => simp [claimEvents] at he
      | some c =>
          simp only [claimEvents, List.mem_singleton] at he
          cases he
          rcases claim_ownerOf hr c.job.jobId with ⟨-, hne⟩ | ⟨-, c', hc, -, hp⟩
          · exact absurd rfl (hne c rfl)
          · cases hc
            exact hp
  | delete job => cases h; split_ifs at he <;> simp at he
  | fail job message =>
      simp only [Statement.apply, Option.map_eq_some_iff, Prod.mk.injEq] at h
      obtain ⟨r, -, -, rfl⟩ := h
      split_ifs at he <;> simp at he
  | deadLetter job count message failedBody =>
      simp only [Statement.apply, Option.map_eq_some_iff, Prod.mk.injEq] at h
      obtain ⟨r, -, -, rfl⟩ := h
      split_ifs at he <;> simp at he

end Cja.Jobs
