import Cja.Lib.StepRun
import Cja.Testing.Names

/-!
# The reaper of stale test databases

Any number of calls of `reap_stale_test_databases` work through the names they
listed, while other programs create, use and drop databases. A call takes an
advisory lock on a pooled connection for one candidate at a time; the server
keeps that lock until the same session releases it or ends.
-/
namespace Cja.Testing

/-! ## The server -/

structure Database where
  name : Name
  oid : ℕ
deriving Repr, DecidableEq

/-- One acquisition of a session advisory lock, with the call that made it. -/
structure Lock where
  connection : ℕ
  key : ℤ
  call : ℕ
deriving Repr, DecidableEq

/-- What comes back from a statement. The server may execute one whose answer is lost. -/
inductive Outcome
  | done
  | rejected
  | lost
deriving Repr, DecidableEq

/-- What became of a candidate before its lock is released. -/
inductive Fate
  | dropped
  /-- Live at the second check, or in use when it was to be dropped. -/
  | kept
  | failed
deriving Repr, DecidableEq

/-- The statement a call comes to next, with the candidates behind the current one. -/
inductive Phase
  | listing
  | inspecting (name : Name) (rest : List Name)
  | acquiring (name : Name) (rest : List Name)
  | locking (connection : ℕ) (name : Name) (rest : List Name)
  | rechecking (connection : ℕ) (name : Name) (rest : List Name)
  | dropping (connection : ℕ) (name : Name) (rest : List Name)
  | unlocking (connection : ℕ) (name : Name) (rest : List Name) (fate : Fate)
  | returned (result : Except String (List Name))

structure Call where
  pfx : Name
  now : ℤ
  maxAge : ℕ
  phase : Phase
  dropped : List Name

structure State where
  databases : List Database
  nextOid : ℕ
  connections : Name → ℕ
  locks : List Lock
  /-- The call that holds a pooled connection. -/
  owner : ℕ → Option ℕ
  /-- The sessions that ended. -/
  ended : ℕ → Bool
  calls : ℕ → Option Call

def State.init : State :=
  ⟨[], 0, fun _ => 0, [], fun _ => none, fun _ => false, fun _ => none⟩

/-- A reaper dropped the database. -/
structure Dropped where
  call : ℕ
  database : Database
  connections : ℕ
deriving Repr, DecidableEq

def State.databaseExists (s : State) (name : Name) : Bool :=
  s.databases.any fun d => d.name == name

def State.setCall (s : State) (c : ℕ) (call : Call) : State :=
  { s with calls := Function.update s.calls c (some call) }

def State.setOwner (s : State) (connection : ℕ) (c : Option ℕ) : State :=
  { s with owner := Function.update s.owner connection c }

/-- `LIKE $1 ESCAPE '\'` -/
def like : Name → Name → Bool
  | [], name => name.isEmpty
  | '%' :: pattern, name => name.tails.any fun t => like pattern t
  | '_' :: pattern, name => !name.isEmpty && like pattern name.tail
  | '\\' :: c :: pattern, name => name.head? == some c && like pattern name.tail
  | c :: pattern, name => name.head? == some c && like pattern name.tail

def escapeLike (value : Name) : Name :=
  value.flatMap fun c => if c == '\\' || c == '%' || c == '_' then ['\\', c] else [c]

/-- The listing, in the order of the code points. -/
def State.datnames (s : State) (pattern : Name) : List Name :=
  ((s.databases.map fun d => d.name).filter (like pattern)).insertionSort
    fun a b => (a.map Char.toNat) ≤ b.map Char.toNat

theorem like_percent (name : Name) : like ['%'] name = true := by
  rw [like, List.any_eq_true]
  exact ⟨[], by simp, rfl⟩

theorem like_escapeLike (value pattern name : Name) :
    like (escapeLike value ++ pattern) name = true ↔
      ∃ rest, name = value ++ rest ∧ like pattern rest = true := by
  induction value generalizing name with
  | nil => simp [escapeLike]
  | cons c cs ih =>
      have hstep : like (escapeLike (c :: cs) ++ pattern) name =
          (name.head? == some c && like (escapeLike cs ++ pattern) name.tail) := by
        simp only [escapeLike, List.flatMap_cons, List.append_assoc]
        split
        · rfl
        · rename_i hc
          simp only [Bool.or_eq_true, beq_iff_eq, not_or] at hc
          rw [List.singleton_append, like]
          · exact hc.1.2
          · exact hc.2
          · intro c' pattern' heq
            exact absurd heq hc.1.1
      rw [hstep, Bool.and_eq_true, beq_iff_eq, ih]
      constructor
      · intro h
        obtain ⟨hhead, rest, htail, hrest⟩ := h
        cases name with
        | nil => cases hhead
        | cons c' cs' =>
            cases hhead
            exact ⟨rest, congrArg (c :: ·) htail, hrest⟩
      · intro h
        obtain ⟨rest, rfl, hrest⟩ := h
        exact ⟨rfl, rest, rfl, hrest⟩

/-- Whether `pg_try_advisory_lock` grants the key: a session never waits for itself. -/
def State.grants (s : State) (held : Bool) (connection : ℕ) (key : ℤ) : Bool :=
  !held && s.locks.all fun l => l.key != key || l.connection == connection

def State.lock (s : State) (connection : ℕ) (key : ℤ) (c : ℕ) : State :=
  { s with locks := ⟨connection, key, c⟩ :: s.locks }

/-- `pg_advisory_unlock` takes back the last acquisition of the session. -/
def State.unlock (s : State) (connection : ℕ) (key : ℤ) : State :=
  { s with locks := s.locks.eraseP fun l => l.connection == connection && l.key == key }

def State.remove (s : State) (name : Name) : State :=
  { s with databases := s.databases.filter fun d => d.name != name }

/-! ## A call -/

def Call.fail (call : Call) (text : String) : Call :=
  { call with phase := .returned (.error text) }

/-- The loop goes on behind a candidate. -/
def Call.next (call : Call) : List Name → Call
  | [] => { call with phase := .returned (.ok call.dropped) }
  | name :: rest =>
      if isStaleDatabaseName name call.pfx call.now call.maxAge then
        { call with phase := .inspecting name rest }
      else call.next rest

/-- What a call does with the fate of a candidate, its lock released. -/
def Call.after (call : Call) (name : Name) (rest : List Name) : Fate → Call
  | .dropped => { call with dropped := call.dropped ++ [name] }.next rest
  | .kept => call.next rest
  | .failed => call.fail ("failed to reap test database " ++ String.ofList name)

def Call.start (pfx : Name) (now : ℤ) (maxAge : ℕ) : Call :=
  match validatePrefix pfx with
  | .ok _ => ⟨pfx, now, maxAge, .listing, []⟩
  | .error text => ⟨pfx, now, maxAge, .returned (.error text), []⟩

/-- What the world answers to the next statement of a call. -/
structure Reply where
  outcome : Outcome
  /-- The connection that the pool hands out. -/
  connection : ℕ
  /-- Another program holds the advisory lock. -/
  held : Bool

/-- `DROP DATABASE IF EXISTS` on the server, with the fate its answer tells. -/
def State.drop (s : State) (c : ℕ) (name : Name) : State × Fate × List Dropped :=
  match s.databases.find? fun d => d.name == name with
  | none => (s, .dropped, [])
  | some d =>
      if s.connections name = 0 then (s.remove name, .dropped, [⟨c, d, s.connections name⟩])
      else (s, .kept, [])

def advance (hashtext : Name → ℤ) (s : State) (c : ℕ) (call : Call) (r : Reply) :
    Option (State × List Dropped) :=
  match call.phase with
  | .listing =>
      match r.outcome with
      | .done => some (s.setCall c (call.next (s.datnames (escapeLike call.pfx ++ ['%']))), [])
      | _ => some (s.setCall c (call.fail "failed to list test databases for stale reaping"), [])
  | .inspecting name rest =>
      match r.outcome with
      | .done =>
          if 0 < s.connections name then some (s.setCall c (call.next rest), [])
          else some (s.setCall c { call with phase := .acquiring name rest }, [])
      | _ => some (s.setCall c (call.fail "failed to inspect test database activity"), [])
  | .acquiring name rest =>
      match r.outcome with
      | .done =>
          if s.owner r.connection = none ∧ s.ended r.connection = false then
            some ((s.setOwner r.connection (some c)).setCall c
              { call with phase := .locking r.connection name rest }, [])
          else none
      | _ =>
          some (s.setCall c
            (call.fail "failed to acquire connection for stale database drop"), [])
  | .locking connection name rest =>
      let granted := s.grants r.held connection (hashtext name)
      let error := call.fail "failed to lock stale test database candidate"
      match r.outcome with
      | .done =>
          if s.ended connection then none
          else if granted then
            some ((s.lock connection (hashtext name) c).setCall c
              { call with phase := .rechecking connection name rest }, [])
          else some ((s.setOwner connection none).setCall c (call.next rest), [])
      | .rejected => some ((s.setOwner connection none).setCall c error, [])
      | .lost =>
          if s.ended connection then none
          else if granted then
            some (((s.lock connection (hashtext name) c).setOwner connection none).setCall c error,
              [])
          else some ((s.setOwner connection none).setCall c error, [])
  | .rechecking connection name rest =>
      match r.outcome with
      | .done =>
          if s.ended connection then none
          else if 0 < s.connections name then
            some (s.setCall c { call with phase := .unlocking connection name rest .kept }, [])
          else some (s.setCall c { call with phase := .dropping connection name rest }, [])
      | _ =>
          some ((s.setOwner connection none).setCall c
            (call.fail "failed to recheck test database activity"), [])
  | .dropping connection name rest =>
      let unlocking (fate : Fate) : Call :=
        { call with phase := .unlocking connection name rest fate }
      match r.outcome with
      | .rejected => some (s.setCall c (unlocking .failed), [])
      | .done =>
          if s.ended connection then none
          else
            let (s', fate, log) := s.drop c name
            some (s'.setCall c (unlocking fate), log)
      | .lost =>
          if s.ended connection then none
          else
            let (s', _, log) := s.drop c name
            some (s'.setCall c (unlocking .failed), log)
  | .unlocking connection name rest fate =>
      -- The answer is ignored.
      match r.outcome with
      | .rejected =>
          some ((s.setOwner connection none).setCall c (call.after name rest fate), [])
      | _ =>
          if s.ended connection then none
          else
            some (((s.unlock connection (hashtext name)).setOwner connection none).setCall c
              (call.after name rest fate), [])
  | .returned _ => none

/-! ## The calls and the others -/

inductive Action
  | call (c : ℕ) (pfx : Name) (now : ℤ) (maxAge : ℕ)
  | statement (c : ℕ) (r : Reply)
  | create (name : Name)
  | connect (name : Name)
  | disconnect (name : Name)
  /-- Another program drops the database, after it terminated the connections. -/
  | dropOther (name : Name)
  | sessionEnds (connection : ℕ)

def step (hashtext : Name → ℤ) (s : State) : Action → Option (State × List Dropped)
  | .call c pfx now maxAge =>
      match s.calls c with
      | none => some (s.setCall c (Call.start pfx now maxAge), [])
      | some _ => none
  | .statement c r =>
      match s.calls c with
      | none => none
      | some call => advance hashtext s c call r
  | .create name =>
      if s.databaseExists name then none
      else
        some ({ s with
          databases := ⟨name, s.nextOid⟩ :: s.databases
          nextOid := s.nextOid + 1 }, [])
  | .connect name =>
      if s.databaseExists name then
        some ({ s with
          connections := Function.update s.connections name (s.connections name + 1) }, [])
      else none
  | .disconnect name =>
      some ({ s with
        connections := Function.update s.connections name (s.connections name - 1) }, [])
  | .dropOther name =>
      some ({ s.remove name with connections := Function.update s.connections name 0 }, [])
  | .sessionEnds connection =>
      some ({ s with
        locks := s.locks.filter fun l => l.connection != connection
        ended := Function.update s.ended connection true }, [])

/-! ## Exclusive reaping -/

/-- The databases that a call dropped, by name. -/
def namesOf (c : ℕ) (log : List Dropped) : List Name :=
  (log.filter fun e => e.call == c).map fun e => e.database.name

structure Exclusive (log : List Dropped) (s : State) : Prop where
  /-- A call drops only names that its prefix, clock and age admit. -/
  stale : ∀ e ∈ log, ∃ call, s.calls e.call = some call ∧
    Stale call.pfx e.database.name call.now call.maxAge
  idle : ∀ e ∈ log, e.connections = 0
  once : (log.map fun e => e.database.oid).Nodup
  returned : ∀ c call names, s.calls c = some call → call.phase = .returned (.ok names) →
    names = namesOf c log
  failed : ∀ c call text, s.calls c = some call → call.phase = .returned (.error text) →
    namesOf c log = []
  unlocked : ∀ c call result, s.calls c = some call → call.phase = .returned result →
    ∀ l ∈ s.locks, l.call ≠ c

/-- Runs of any calls and any other programs. -/
abbrev ReaperRun (hashtext : Name → ℤ) (C : State → Action → Prop) : List Dropped → State → Prop :=
  StepRun.Run (step hashtext) C State.init

/-- The statement of a call leaves nothing behind that the call cannot answer for: it
fails only while the call dropped nothing and holds no lock, a `DROP` is answered while
there is a database to drop, and no answer that takes a lock or drops a database is lost. -/
def Call.orderly (hashtext : Name → ℤ) (s : State) (c : ℕ) (call : Call) (r : Reply) : Bool :=
  match call.phase with
  | .listing | .inspecting .. | .acquiring .. => r.outcome == .done || call.dropped.isEmpty
  | .locking connection name _ =>
      match r.outcome with
      | .done => true
      | .rejected => call.dropped.isEmpty
      | .lost => call.dropped.isEmpty && !s.grants r.held connection (hashtext name)
  | .rechecking connection name _ =>
      r.outcome == .done ||
        (call.dropped.isEmpty && !s.locks.contains ⟨connection, hashtext name, c⟩)
  | .dropping _ name _ =>
      match r.outcome with
      | .done => s.databaseExists name
      | .rejected => call.dropped.isEmpty
      | .lost =>
          call.dropped.isEmpty && (!s.databaseExists name || decide (0 < s.connections name))
  | .unlocking connection name _ _ =>
      r.outcome != .rejected || !s.locks.contains ⟨connection, hashtext name, c⟩
  | .returned _ => true

def orderly (hashtext : Name → ℤ) (s : State) : Action → Bool
  | .statement c r =>
      match s.calls c with
      | none => true
      | some call => call.orderly hashtext s c r
  | _ => true

/-! ## What a step does to a call -/

def Phase.connection : Phase → Option ℕ
  | .locking connection .. | .rechecking connection .. | .dropping connection ..
  | .unlocking connection .. => some connection
  | _ => none

/-- The lock of a call that got it. -/
def Phase.lock (hashtext : Name → ℤ) : Phase → Option (ℕ × ℤ)
  | .rechecking connection name _ | .dropping connection name _
  | .unlocking connection name _ _ => some (connection, hashtext name)
  | _ => none

def Phase.candidate : Phase → Option Name
  | .inspecting name _ | .acquiring name _ | .locking _ name _ | .rechecking _ name _
  | .dropping _ name _ | .unlocking _ name _ _ => some name
  | _ => none

/-- The names that a call has dropped, with the candidate at hand. -/
def Call.total (call : Call) : List Name :=
  match call.phase with
  | .unlocking _ name _ .dropped => call.dropped ++ [name]
  | _ => call.dropped

/-- What holds of a call between its statements. -/
structure Call.Coherent (call : Call) : Prop where
  stale : ∀ name, call.phase.candidate = some name →
    Stale call.pfx name call.now call.maxAge
  returned : ∀ names, call.phase = .returned (.ok names) → names = call.dropped
  failed : ∀ text, call.phase = .returned (.error text) → call.dropped = []
  failing : ∀ connection name rest, call.phase = .unlocking connection name rest .failed →
    call.dropped = []

/-- A later state of the same call. -/
structure Call.Follows (call call' : Call) : Prop where
  pfx : call'.pfx = call.pfx
  now : call'.now = call.now
  maxAge : call'.maxAge = call.maxAge
  coherent : call.Coherent → call'.Coherent

/-- What a step of an orderly run does. -/
inductive Stepped (hashtext : Name → ℤ) (s : State) : State → List Dropped → Prop
  | others {s' : State} (hcalls : s'.calls = s.calls) (howner : s'.owner = s.owner)
      (hlocks : s'.locks.Sublist s.locks) (hoid : s.nextOid ≤ s'.nextOid)
      (hdatabases : s'.databases.Sublist s.databases ∨
        ∃ name, s'.databases = ⟨name, s.nextOid⟩ :: s.databases ∧ s'.nextOid = s.nextOid + 1) :
      Stepped hashtext s s' []
  | began {c : ℕ} {call : Call} (hcall : s.calls c = none) (hcoherent : call.Coherent)
      (htotal : call.total = []) (hconnection : call.phase.connection = none)
      (hlock : call.phase.lock hashtext = none) :
      Stepped hashtext s (s.setCall c call) []
  | moved {c : ℕ} {call call' : Call} (hcall : s.calls c = some call)
      (hfollows : call.Follows call') (htotal : call'.total = call.total)
      (hconnection : call'.phase.connection = call.phase.connection)
      (hlock : call'.phase.lock hashtext = call.phase.lock hashtext) :
      Stepped hashtext s (s.setCall c call') []
  | acquired {c connection : ℕ} {call call' : Call} (hcall : s.calls c = some call)
      (hfollows : call.Follows call') (htotal : call'.total = call.total)
      (howner : s.owner connection = none) (hconnection : call'.phase.connection = some connection)
      (hfree : call.phase.lock hashtext = none) (hlock : call'.phase.lock hashtext = none) :
      Stepped hashtext s ((s.setOwner connection (some c)).setCall c call') []
  | locked {c connection : ℕ} {key : ℤ} {call call' : Call} (hcall : s.calls c = some call)
      (hfollows : call.Follows call') (htotal : call'.total = call.total)
      (hbefore : call.phase.connection = some connection)
      (hconnection : call'.phase.connection = some connection)
      (hfree : call.phase.lock hashtext = none)
      (hlock : call'.phase.lock hashtext = some (connection, key)) :
      Stepped hashtext s ((s.lock connection key c).setCall c call') []
  | released {c connection : ℕ} {call call' : Call} (hcall : s.calls c = some call)
      (hfollows : call.Follows call') (htotal : call'.total = call.total)
      (hbefore : call.phase.connection = some connection)
      (hconnection : call'.phase.connection = none) (hlock : call'.phase.lock hashtext = none)
      (hfree : ∀ key, call.phase.lock hashtext = some (connection, key) →
        (⟨connection, key, c⟩ : Lock) ∉ s.locks) :
      Stepped hashtext s ((s.setOwner connection none).setCall c call') []
  | unlocked {c connection : ℕ} {key : ℤ} {call call' : Call} (hcall : s.calls c = some call)
      (hfollows : call.Follows call') (htotal : call'.total = call.total)
      (hbefore : call.phase.lock hashtext = some (connection, key))
      (hconnection : call'.phase.connection = none) (hlock : call'.phase.lock hashtext = none) :
      Stepped hashtext s (((s.unlock connection key).setOwner connection none).setCall c call') []
  | dropped {c : ℕ} {d : Database} {call call' : Call} (hcall : s.calls c = some call)
      (hfollows : call.Follows call') (htotal : call'.total = call.total ++ [d.name])
      (hconnection : call'.phase.connection = call.phase.connection)
      (hlock : call'.phase.lock hashtext = call.phase.lock hashtext)
      (hcandidate : call.phase.candidate = some d.name) (hd : d ∈ s.databases)
      (hidle : s.connections d.name = 0) :
      Stepped hashtext s ((s.remove d.name).setCall c call') [⟨c, d, s.connections d.name⟩]

section

variable {hashtext : Name → ℤ} {s s' : State} {c connection : ℕ} {call call' : Call}
variable {name : Name} {rest names : List Name} {log es : List Dropped} {r : Reply} {text : String}

theorem Call.next_cases (call : Call) (names : List Name) :
    call.next names = { call with phase := .returned (.ok call.dropped) } ∨
      ∃ name rest, call.next names = { call with phase := .inspecting name rest } ∧
        Stale call.pfx name call.now call.maxAge := by
  induction names with
  | nil => exact Or.inl rfl
  | cons name rest ih =>
      unfold Call.next
      split
      · rename_i h
        exact Or.inr ⟨name, rest, rfl, stale_of_isStaleDatabaseName h⟩
      · exact ih

theorem Call.next_coherent (call : Call) (names : List Name) : (call.next names).Coherent := by
  obtain h | ⟨name, rest, h, hstale⟩ := call.next_cases names
  · rw [h]
    constructor
    · intro name hname
      cases hname
    · intro names hnames
      cases hnames
      rfl
    · intro text htext
      cases htext
    · intro connection name rest hphase
      cases hphase
  · rw [h]
    constructor
    · intro name' hname
      cases hname
      exact hstale
    · intro names hnames
      cases hnames
    · intro text htext
      cases htext
    · intro connection name rest hphase
      cases hphase

/-- The loop goes on with the call or with one that differs in the names it dropped. -/
theorem Call.Follows.next (hpfx : call'.pfx = call.pfx) (hnow : call'.now = call.now)
    (hage : call'.maxAge = call.maxAge) : call.Follows (call'.next names) := by
  have hcoherent := call'.next_coherent names
  obtain h | ⟨name, rest, h, -⟩ := call'.next_cases names
  · rw [h] at hcoherent ⊢
    exact ⟨hpfx, hnow, hage, fun _ => hcoherent⟩
  · rw [h] at hcoherent ⊢
    exact ⟨hpfx, hnow, hage, fun _ => hcoherent⟩

@[simp] theorem Call.next_total (call : Call) (names : List Name) :
    (call.next names).total = call.dropped := by
  obtain h | ⟨name, rest, h, -⟩ := call.next_cases names <;> rw [h] <;> rfl

@[simp] theorem Call.next_connection (call : Call) (names : List Name) :
    (call.next names).phase.connection = none := by
  obtain h | ⟨name, rest, h, -⟩ := call.next_cases names <;> rw [h] <;> rfl

@[simp] theorem Call.next_lock (call : Call) (names : List Name) :
    (call.next names).phase.lock hashtext = none := by
  obtain h | ⟨name, rest, h, -⟩ := call.next_cases names <;> rw [h] <;> rfl

/-- A call fails only while it dropped nothing. -/
theorem Call.Follows.fail (h : call.dropped = []) : call.Follows (call.fail text) := by
  constructor <;> try rfl
  intro _
  constructor
  · intro name hname
    cases hname
  · intro names hnames
    cases hnames
  · intro text' _
    exact h
  · intro connection name rest hphase
    cases hphase

/-- The next statement of the same candidate. -/
theorem Call.Follows.phase {phase : Phase} (hcandidate : phase.candidate = call.phase.candidate)
    (hsome : call.phase.candidate.isSome)
    (hfate : ∀ connection name rest, phase = .unlocking connection name rest .failed →
      call.dropped = []) : call.Follows { call with phase := phase } := by
  constructor <;> try rfl
  intro hcoherent
  constructor
  · intro name hname
    exact hcoherent.stale name (hcandidate ▸ hname)
  · intro names hnames
    cases hnames
    rw [← hcandidate] at hsome
    cases hsome
  · intro text htext
    cases htext
    rw [← hcandidate] at hsome
    cases hsome
  · exact hfate

/-! ## The statements of a call -/

theorem State.drop_cases (s : State) (c : ℕ) (name : Name) :
    (s.databaseExists name = false ∧ s.drop c name = (s, .dropped, [])) ∨
    (∃ d ∈ s.databases, d.name = name ∧ s.connections name = 0 ∧
      s.drop c name = (s.remove name, .dropped, [⟨c, d, s.connections name⟩])) ∨
    (s.databaseExists name = true ∧ 0 < s.connections name ∧ s.drop c name = (s, .kept, [])) := by
  unfold State.drop State.databaseExists
  cases hfind : s.databases.find? fun d => d.name == name with
  | none =>
      left
      rw [List.find?_eq_none] at hfind
      constructor
      · rw [List.any_eq_false]
        exact hfind
      · rfl
  | some d =>
      have hname : d.name = name := by simpa using List.find?_some hfind
      have hmem := List.mem_of_find?_eq_some hfind
      have hexists : (s.databases.any fun d => d.name == name) = true :=
        List.any_eq_true.2 ⟨d, hmem, beq_iff_eq.2 hname⟩
      right
      dsimp only
      split
      · rename_i hidle
        exact Or.inl ⟨d, hmem, hname, hidle, rfl⟩
      · rename_i hidle
        exact Or.inr ⟨hexists, by omega, rfl⟩

theorem Phase.lock_of_connection {phase : Phase} (h : phase.connection = none) :
    phase.lock hashtext = none := by
  cases phase <;> first | rfl | cases h

@[simp] theorem Call.fail_total : (call.fail text).total = call.dropped := rfl

@[simp] theorem Call.fail_connection : (call.fail text).phase.connection = none := rfl

@[simp] theorem Call.fail_lock : (call.fail text).phase.lock hashtext = none := rfl

/-- A call without a connection goes on to the next candidate. -/
theorem Stepped.next (hcall : s.calls c = some call) (hconnection : call.phase.connection = none)
    (htotal : call.total = call.dropped) :
    Stepped hashtext s (s.setCall c (call.next names)) [] := by
  apply Stepped.moved hcall (Call.Follows.next rfl rfl rfl)
  · rw [Call.next_total, htotal]
  · rw [Call.next_connection, hconnection]
  · rw [Call.next_lock, Phase.lock_of_connection hconnection]

theorem Stepped.fail (hcall : s.calls c = some call) (hconnection : call.phase.connection = none)
    (htotal : call.total = call.dropped) (hdropped : call.dropped = []) :
    Stepped hashtext s (s.setCall c (call.fail text)) [] := by
  apply Stepped.moved hcall (Call.Follows.fail hdropped)
  · rw [Call.fail_total, htotal]
  · rw [Call.fail_connection, hconnection]
  · rw [Call.fail_lock, Phase.lock_of_connection hconnection]

/-- A call that holds no lock gives its connection back and fails. -/
theorem Stepped.failBack (hcall : s.calls c = some call)
    (hconnection : call.phase.connection = some connection) (htotal : call.total = call.dropped)
    (hdropped : call.dropped = [])
    (hfree : ∀ key, call.phase.lock hashtext = some (connection, key) →
      (⟨connection, key, c⟩ : Lock) ∉ s.locks) :
    Stepped hashtext s ((s.setOwner connection none).setCall c (call.fail text)) [] := by
  apply Stepped.released hcall (Call.Follows.fail hdropped) _ hconnection rfl rfl hfree
  rw [Call.fail_total, htotal]

theorem advance_listing (hcall : s.calls c = some call) (hphase : call.phase = .listing)
    (ho : call.orderly hashtext s c r = true) (h : advance hashtext s c call r = some (s', es)) :
    Stepped hashtext s s' es := by
  have hconnection : call.phase.connection = none := by rw [hphase]; rfl
  have htotal : call.total = call.dropped := by rw [Call.total, hphase]
  cases houtcome : r.outcome <;>
    simp only [advance, Call.orderly, hphase, houtcome, Option.some.injEq, Prod.mk.injEq] at h ho
  case done =>
    obtain ⟨rfl, rfl⟩ := h
    exact Stepped.next hcall hconnection htotal
  all_goals
    obtain ⟨rfl, rfl⟩ := h
    exact Stepped.fail hcall hconnection htotal (by simpa using ho)

theorem advance_inspecting (hcall : s.calls c = some call)
    (hphase : call.phase = .inspecting name rest)
    (ho : call.orderly hashtext s c r = true) (h : advance hashtext s c call r = some (s', es)) :
    Stepped hashtext s s' es := by
  have hconnection : call.phase.connection = none := by rw [hphase]; rfl
  have htotal : call.total = call.dropped := by rw [Call.total, hphase]
  cases houtcome : r.outcome <;>
    simp only [advance, Call.orderly, hphase, houtcome, Option.some.injEq, Prod.mk.injEq] at h ho
  case done =>
    split at h
    · simp only [Option.some.injEq, Prod.mk.injEq] at h
      obtain ⟨rfl, rfl⟩ := h
      exact Stepped.next hcall hconnection htotal
    · simp only [Option.some.injEq, Prod.mk.injEq] at h
      obtain ⟨rfl, rfl⟩ := h
      have hfollows : call.Follows { call with phase := .acquiring name rest } :=
        Call.Follows.phase (by rw [hphase]; rfl) (by rw [hphase]; rfl) (by simp)
      apply Stepped.moved hcall hfollows
      · exact htotal.symm
      · exact hconnection.symm
      · rw [hphase]
        rfl
  all_goals
    obtain ⟨rfl, rfl⟩ := h
    exact Stepped.fail hcall hconnection htotal (by simpa using ho)

theorem advance_acquiring (hcall : s.calls c = some call)
    (hphase : call.phase = .acquiring name rest)
    (ho : call.orderly hashtext s c r = true) (h : advance hashtext s c call r = some (s', es)) :
    Stepped hashtext s s' es := by
  have hconnection : call.phase.connection = none := by rw [hphase]; rfl
  have htotal : call.total = call.dropped := by rw [Call.total, hphase]
  cases houtcome : r.outcome <;>
    simp only [advance, Call.orderly, hphase, houtcome, Option.some.injEq, Prod.mk.injEq] at h ho
  case done =>
    split at h
    · rename_i hpool
      simp only [Option.some.injEq, Prod.mk.injEq] at h
      obtain ⟨rfl, rfl⟩ := h
      have hfollows : call.Follows { call with phase := .locking r.connection name rest } :=
        Call.Follows.phase (by rw [hphase]; rfl) (by rw [hphase]; rfl) (by simp)
      apply Stepped.acquired hcall hfollows htotal.symm hpool.1 rfl _ rfl
      rw [hphase]
      rfl
    · cases h
  all_goals
    obtain ⟨rfl, rfl⟩ := h
    exact Stepped.fail hcall hconnection htotal (by simpa using ho)

theorem advance_locking (hcall : s.calls c = some call)
    (hphase : call.phase = .locking connection name rest)
    (ho : call.orderly hashtext s c r = true) (h : advance hashtext s c call r = some (s', es)) :
    Stepped hashtext s s' es := by
  have hconnection : call.phase.connection = some connection := by rw [hphase]; rfl
  have hlock : call.phase.lock hashtext = none := by rw [hphase]; rfl
  have htotal : call.total = call.dropped := by rw [Call.total, hphase]
  have hfree : ∀ key, call.phase.lock hashtext = some (connection, key) →
      (⟨connection, key, c⟩ : Lock) ∉ s.locks := by
    intro key hkey
    rw [hlock] at hkey
    cases hkey
  cases houtcome : r.outcome with
  | done =>
      simp only [advance, hphase, houtcome] at h
      split at h
      · cases h
      · split at h
        · simp only [Option.some.injEq, Prod.mk.injEq] at h
          obtain ⟨rfl, rfl⟩ := h
          have hfollows : call.Follows { call with phase := .rechecking connection name rest } :=
            Call.Follows.phase (by rw [hphase]; rfl) (by rw [hphase]; rfl) (by simp)
          exact Stepped.locked hcall hfollows htotal.symm hconnection rfl hlock rfl
        · simp only [Option.some.injEq, Prod.mk.injEq] at h
          obtain ⟨rfl, rfl⟩ := h
          apply Stepped.released hcall (Call.Follows.next rfl rfl rfl) _ hconnection
            (Call.next_connection ..) (Call.next_lock ..) hfree
          rw [Call.next_total, htotal]
  | rejected =>
      simp only [advance, Call.orderly, hphase, houtcome, Option.some.injEq, Prod.mk.injEq] at h ho
      obtain ⟨rfl, rfl⟩ := h
      exact Stepped.failBack hcall hconnection htotal (List.isEmpty_iff.1 ho) hfree
  | lost =>
      simp only [advance, Call.orderly, hphase, houtcome, Bool.and_eq_true,
        Bool.not_eq_true'] at h ho
      split at h
      · cases h
      · rw [if_neg (by rw [ho.2]; exact Bool.false_ne_true)] at h
        simp only [Option.some.injEq, Prod.mk.injEq] at h
        obtain ⟨rfl, rfl⟩ := h
        exact Stepped.failBack hcall hconnection htotal (List.isEmpty_iff.1 ho.1) hfree

theorem advance_rechecking (hcall : s.calls c = some call)
    (hphase : call.phase = .rechecking connection name rest)
    (ho : call.orderly hashtext s c r = true) (h : advance hashtext s c call r = some (s', es)) :
    Stepped hashtext s s' es := by
  have hconnection : call.phase.connection = some connection := by rw [hphase]; rfl
  have htotal : call.total = call.dropped := by rw [Call.total, hphase]
  cases houtcome : r.outcome <;>
    simp only [advance, Call.orderly, hphase, houtcome, Option.some.injEq, Prod.mk.injEq] at h ho
  case done =>
    split at h
    · cases h
    · split at h
      · simp only [Option.some.injEq, Prod.mk.injEq] at h
        obtain ⟨rfl, rfl⟩ := h
        have hfollows : call.Follows
            { call with phase := .unlocking connection name rest .kept } :=
          Call.Follows.phase (by rw [hphase]; rfl) (by rw [hphase]; rfl) (by simp)
        apply Stepped.moved hcall hfollows htotal.symm hconnection.symm
        rw [hphase]
        rfl
      · simp only [Option.some.injEq, Prod.mk.injEq] at h
        obtain ⟨rfl, rfl⟩ := h
        have hfollows : call.Follows { call with phase := .dropping connection name rest } :=
          Call.Follows.phase (by rw [hphase]; rfl) (by rw [hphase]; rfl) (by simp)
        apply Stepped.moved hcall hfollows htotal.symm hconnection.symm
        rw [hphase]
        rfl
  all_goals
    obtain ⟨rfl, rfl⟩ := h
    have ho' : call.dropped = [] ∧ (⟨connection, hashtext name, c⟩ : Lock) ∉ s.locks := by
      simpa using ho
    apply Stepped.failBack hcall hconnection htotal ho'.1
    intro key hkey
    rw [hphase] at hkey
    cases hkey
    exact ho'.2

theorem advance_dropping (hcall : s.calls c = some call)
    (hphase : call.phase = .dropping connection name rest)
    (ho : call.orderly hashtext s c r = true) (h : advance hashtext s c call r = some (s', es)) :
    Stepped hashtext s s' es := by
  have hconnection : call.phase.connection = some connection := by rw [hphase]; rfl
  have hlock : call.phase.lock hashtext = some (connection, hashtext name) := by rw [hphase]; rfl
  have htotal : call.total = call.dropped := by rw [Call.total, hphase]
  have hfollows : ∀ fate : Fate, (fate = .failed → call.dropped = []) →
      call.Follows { call with phase := .unlocking connection name rest fate } := by
    intro fate hfate
    apply Call.Follows.phase (by rw [hphase]; rfl) (by rw [hphase]; rfl)
    intro connection' name' rest' hunlocking
    simp only [Phase.unlocking.injEq] at hunlocking
    exact hfate hunlocking.2.2.2
  cases houtcome : r.outcome with
  | rejected =>
      simp only [advance, Call.orderly, hphase, houtcome, Option.some.injEq, Prod.mk.injEq] at h ho
      obtain ⟨rfl, rfl⟩ := h
      exact Stepped.moved hcall (hfollows .failed fun _ => List.isEmpty_iff.1 ho) htotal.symm
        hconnection.symm hlock.symm
  | done =>
      simp only [advance, Call.orderly, hphase, houtcome] at h ho
      split at h
      · cases h
      · obtain ⟨hmissing, -⟩ | ⟨d, hd, hname, hidle, hdrop⟩ | ⟨-, -, hdrop⟩ := s.drop_cases c name
        · rw [hmissing] at ho
          cases ho
        · rw [hdrop] at h
          simp only [Option.some.injEq, Prod.mk.injEq] at h
          obtain ⟨rfl, rfl⟩ := h
          subst hname
          apply Stepped.dropped hcall (hfollows .dropped (by simp)) _ hconnection.symm hlock.symm
            (by rw [hphase]; rfl) hd hidle
          rw [htotal]
          rfl
        · rw [hdrop] at h
          simp only [Option.some.injEq, Prod.mk.injEq] at h
          obtain ⟨rfl, rfl⟩ := h
          exact Stepped.moved hcall (hfollows .kept (by simp)) htotal.symm hconnection.symm
            hlock.symm
  | lost =>
      simp only [advance, Call.orderly, hphase, houtcome, Bool.and_eq_true, Bool.or_eq_true,
        Bool.not_eq_true', decide_eq_true_eq] at h ho
      have hfailed := hfollows .failed fun _ => List.isEmpty_iff.1 ho.1
      split at h
      · cases h
      · obtain ⟨-, hdrop⟩ | ⟨d, hd, hname, hidle, -⟩ | ⟨-, -, hdrop⟩ := s.drop_cases c name
        · rw [hdrop] at h
          simp only [Option.some.injEq, Prod.mk.injEq] at h
          obtain ⟨rfl, rfl⟩ := h
          exact Stepped.moved hcall hfailed htotal.symm hconnection.symm hlock.symm
        · obtain hmissing | hbusy := ho.2
          · rw [State.databaseExists, List.any_eq_false] at hmissing
            exact absurd (beq_iff_eq.2 hname) (hmissing d hd)
          · omega
        · rw [hdrop] at h
          simp only [Option.some.injEq, Prod.mk.injEq] at h
          obtain ⟨rfl, rfl⟩ := h
          exact Stepped.moved hcall hfailed htotal.symm hconnection.symm hlock.symm

theorem advance_unlocking {fate : Fate} (hcall : s.calls c = some call)
    (hphase : call.phase = .unlocking connection name rest fate) (hcoherent : call.Coherent)
    (ho : call.orderly hashtext s c r = true) (h : advance hashtext s c call r = some (s', es)) :
    Stepped hashtext s s' es := by
  have hconnection : call.phase.connection = some connection := by rw [hphase]; rfl
  have hlock : call.phase.lock hashtext = some (connection, hashtext name) := by rw [hphase]; rfl
  have hafter : call.Follows (call.after name rest fate) ∧
      (call.after name rest fate).total = call.total ∧
      (call.after name rest fate).phase.connection = none ∧
      (call.after name rest fate).phase.lock hashtext = none := by
    cases fate with
    | dropped =>
        refine ⟨Call.Follows.next rfl rfl rfl, ?_, Call.next_connection .., Call.next_lock ..⟩
        rw [Call.after, Call.next_total, Call.total, hphase]
    | kept =>
        refine ⟨Call.Follows.next rfl rfl rfl, ?_, Call.next_connection .., Call.next_lock ..⟩
        rw [Call.after, Call.next_total, Call.total, hphase]
    | failed =>
        refine ⟨Call.Follows.fail (hcoherent.failing _ _ _ hphase), ?_, rfl, rfl⟩
        rw [Call.after, Call.fail_total, Call.total, hphase]
  obtain ⟨hfollows, htotal, hnone, hunlocked⟩ := hafter
  cases houtcome : r.outcome <;>
    simp only [advance, Call.orderly, hphase, houtcome, Option.some.injEq, Prod.mk.injEq] at h ho
  case rejected =>
    obtain ⟨rfl, rfl⟩ := h
    apply Stepped.released hcall hfollows htotal hconnection hnone hunlocked
    intro key hkey
    rw [hlock] at hkey
    cases hkey
    simpa using ho
  all_goals
    split at h
    · cases h
    · simp only [Option.some.injEq, Prod.mk.injEq] at h
      obtain ⟨rfl, rfl⟩ := h
      exact Stepped.unlocked hcall hfollows htotal hlock hnone hunlocked

theorem advance_stepped (hcall : s.calls c = some call) (hcoherent : call.Coherent)
    (ho : call.orderly hashtext s c r = true) (h : advance hashtext s c call r = some (s', es)) :
    Stepped hashtext s s' es := by
  cases hphase : call.phase with
  | listing => exact advance_listing hcall hphase ho h
  | inspecting name rest => exact advance_inspecting hcall hphase ho h
  | acquiring name rest => exact advance_acquiring hcall hphase ho h
  | locking connection name rest => exact advance_locking hcall hphase ho h
  | rechecking connection name rest => exact advance_rechecking hcall hphase ho h
  | dropping connection name rest => exact advance_dropping hcall hphase ho h
  | unlocking connection name rest fate => exact advance_unlocking hcall hphase hcoherent ho h
  | returned result =>
      rw [advance, hphase] at h
      cases h

theorem Call.start_coherent (pfx : Name) (now : ℤ) (maxAge : ℕ) :
    (Call.start pfx now maxAge).Coherent := by
  unfold Call.start
  split
  all_goals
    constructor
    · intro name hname
      cases hname
    · intro names hnames
      cases hnames
    · intro text htext
      rfl
    · intro connection name rest hphase
      cases hphase

theorem Call.start_total (pfx : Name) (now : ℤ) (maxAge : ℕ) :
    (Call.start pfx now maxAge).total = [] := by
  unfold Call.start
  split <;> rfl

theorem Call.start_connection (pfx : Name) (now : ℤ) (maxAge : ℕ) :
    (Call.start pfx now maxAge).phase.connection = none := by
  unfold Call.start
  split <;> rfl

theorem step_stepped {a : Action} (hcoherent : ∀ c call, s.calls c = some call → call.Coherent)
    (ho : orderly hashtext s a = true) (h : step hashtext s a = some (s', es)) :
    Stepped hashtext s s' es := by
  cases a with
  | call c pfx now maxAge =>
      simp only [step] at h
      split at h
      · rename_i hcall
        simp only [Option.some.injEq, Prod.mk.injEq] at h
        obtain ⟨rfl, rfl⟩ := h
        exact Stepped.began hcall (Call.start_coherent ..) (Call.start_total ..)
          (Call.start_connection ..) (Phase.lock_of_connection (Call.start_connection ..))
      · cases h
  | statement c r =>
      simp only [step, orderly] at h ho
      split at h
      · cases h
      · rename_i call hcall
        rw [hcall] at ho
        exact advance_stepped hcall (hcoherent c call hcall) ho h
  | create name =>
      simp only [step] at h
      split at h
      · cases h
      · simp only [Option.some.injEq, Prod.mk.injEq] at h
        obtain ⟨rfl, rfl⟩ := h
        exact Stepped.others rfl rfl (List.Sublist.refl _) (Nat.le_succ _) (Or.inr ⟨name, rfl, rfl⟩)
  | connect name =>
      simp only [step] at h
      split at h
      · simp only [Option.some.injEq, Prod.mk.injEq] at h
        obtain ⟨rfl, rfl⟩ := h
        exact Stepped.others rfl rfl (List.Sublist.refl _) le_rfl (Or.inl (List.Sublist.refl _))
      · cases h
  | disconnect name =>
      simp only [step, Option.some.injEq, Prod.mk.injEq] at h
      obtain ⟨rfl, rfl⟩ := h
      exact Stepped.others rfl rfl (List.Sublist.refl _) le_rfl (Or.inl (List.Sublist.refl _))
  | dropOther name =>
      simp only [step, Option.some.injEq, Prod.mk.injEq] at h
      obtain ⟨rfl, rfl⟩ := h
      exact Stepped.others rfl rfl (List.Sublist.refl _) le_rfl (Or.inl List.filter_sublist)
  | sessionEnds connection =>
      simp only [step, Option.some.injEq, Prod.mk.injEq] at h
      obtain ⟨rfl, rfl⟩ := h
      exact Stepped.others rfl rfl List.filter_sublist le_rfl (Or.inl (List.Sublist.refl _))

/-! ## Owners and locks -/

theorem setCall_calls {c' : ℕ} (h : (s.setCall c call).calls c' = some call') :
    (c' = c ∧ call' = call) ∨ (c' ≠ c ∧ s.calls c' = some call') := by
  by_cases hc : c' = c
  · subst hc
    have hself : some call = some call' := (Function.update_self c' _ s.calls).symm.trans h
    exact Or.inl ⟨rfl, (Option.some.inj hself).symm⟩
  · exact Or.inr ⟨hc, (Function.update_of_ne hc ..).symm.trans h⟩

/-- A pooled connection serves the call that acquired it. -/
def Owned (s : State) : Prop :=
  ∀ c call connection, s.calls c = some call → call.phase.connection = some connection →
    s.owner connection = some c

/-- Every lock is held by the call that took it, and is the only one of that call. -/
structure Held (hashtext : Name → ℤ) (s : State) : Prop where
  holder : ∀ l ∈ s.locks, ∃ call, s.calls l.call = some call ∧
    call.phase.lock hashtext = some (l.connection, l.key)
  once : (s.locks.map fun l => l.call).Nodup

theorem Phase.connection_of_lock {phase : Phase} {key : ℤ}
    (h : phase.lock hashtext = some (connection, key)) : phase.connection = some connection := by
  cases phase <;> simp_all [Phase.lock, Phase.connection]

theorem Owned.setCall (h : Owned s) (hcall : s.calls c = some call)
    (hconnection : call'.phase.connection = call.phase.connection) :
    Owned (s.setCall c call') := by
  intro c' call'' connection hc' hconn
  obtain ⟨rfl, rfl⟩ | ⟨-, hc'⟩ := setCall_calls hc'
  · exact h c' call connection hcall (hconnection ▸ hconn)
  · exact h c' call'' connection hc' hconn

/-- A call gives its connection back; no other call uses it. -/
theorem Owned.release (h : Owned s) (hcall : s.calls c = some call)
    (hbefore : call.phase.connection = some connection) (hnone : call'.phase.connection = none) :
    Owned ((s.setOwner connection none).setCall c call') := by
  intro c' call'' connection' hc' hconn
  obtain ⟨rfl, rfl⟩ | ⟨hne, hc'⟩ := setCall_calls hc'
  · rw [hnone] at hconn
    cases hconn
  · have howner := h c' call'' connection' hc' hconn
    have hother : connection' ≠ connection := by
      intro heq
      have hmine := h c call connection hcall hbefore
      rw [heq, hmine] at howner
      exact hne (Option.some.inj howner).symm
    exact (Function.update_of_ne hother ..).trans howner

theorem Owned.step (h : Owned s) (hs : Stepped hashtext s s' es) : Owned s' := by
  cases hs with
  | others hcalls howner =>
      intro c call connection hcall hconn
      rw [hcalls] at hcall
      rw [howner]
      exact h c call connection hcall hconn
  | began hcall hcoherent htotal hnone =>
      intro c' call' connection hc' hconn
      obtain ⟨rfl, rfl⟩ | ⟨-, hc'⟩ := setCall_calls hc'
      · rw [hnone] at hconn
        cases hconn
      · exact h c' call' connection hc' hconn
  | moved hcall _ _ hconnection => exact h.setCall hcall hconnection
  | @acquired c connection call call' hcall _ _ hpool hconnection =>
      intro c' call'' connection' hc' hconn
      obtain ⟨rfl, rfl⟩ | ⟨-, hc'⟩ := setCall_calls hc'
      · rw [hconnection] at hconn
        cases hconn
        exact Function.update_self ..
      · have howner := h c' call'' connection' hc' hconn
        have hother : connection' ≠ connection := by
          rintro rfl
          rw [hpool] at howner
          cases howner
        exact (Function.update_of_ne hother ..).trans howner
  | locked hcall _ _ hbefore hconnection => exact h.setCall hcall (hconnection.trans hbefore.symm)
  | released hcall _ _ hbefore hconnection => exact h.release hcall hbefore hconnection
  | unlocked hcall _ _ hbefore hconnection =>
      exact h.release hcall (Phase.connection_of_lock hbefore) hconnection
  | dropped hcall _ _ hconnection => exact h.setCall hcall hconnection

/-- The locks of the other calls are theirs still. -/
theorem Held.keep {locks : List Lock} (h : Held hashtext s) (hsub : locks.Sublist s.locks)
    (hcalls : ∀ c call, s.calls c = some call → (∃ l ∈ locks, l.call = c) →
      ∃ call', s'.calls c = some call' ∧ call'.phase.lock hashtext = call.phase.lock hashtext)
    (hlocks : s'.locks = locks) : Held hashtext s' := by
  constructor
  · intro l hl
    rw [hlocks] at hl
    obtain ⟨call, hcall, hlock⟩ := h.holder l (hsub.subset hl)
    obtain ⟨call', hcall', heq⟩ := hcalls l.call call hcall ⟨l, hl, rfl⟩
    exact ⟨call', hcall', heq.trans hlock⟩
  · rw [hlocks]
    exact h.once.sublist (hsub.map _)

theorem Held.setCall (h : Held hashtext s) (hcall : s.calls c = some call)
    (hlock : call'.phase.lock hashtext = call.phase.lock hashtext)
    (hcalls : s'.calls = Function.update s.calls c (some call')) (hlocks : s'.locks = s.locks) :
    Held hashtext s' := by
  apply h.keep (List.Sublist.refl _) _ hlocks
  intro c' call'' hc' _
  by_cases heq : c' = c
  · subst heq
    rw [hcall] at hc'
    cases hc'
    exact ⟨call', by rw [hcalls, Function.update_self], hlock⟩
  · exact ⟨call'', by rw [hcalls, Function.update_of_ne heq, hc'], rfl⟩

/-- The call of the step has no lock among those that stay. -/
theorem Held.drop {locks : List Lock} (h : Held hashtext s) (hsub : locks.Sublist s.locks)
    (hnot : ∀ l ∈ locks, l.call ≠ c)
    (hcalls : s'.calls = Function.update s.calls c (some call')) (hlocks : s'.locks = locks) :
    Held hashtext s' := by
  apply h.keep hsub _ hlocks
  intro c' call'' hc' hheld
  obtain ⟨l, hl, rfl⟩ := hheld
  exact ⟨call'', by rw [hcalls, Function.update_of_ne (hnot l hl), hc'], rfl⟩

/-- The lock that `pg_advisory_unlock` takes back is the one of the call. -/
theorem Held.unlock_not_mem {key : ℤ} (h : Held hashtext s) (ho : Owned s)
    (hcall : s.calls c = some call) (hlock : call.phase.lock hashtext = some (connection, key)) :
    ∀ l ∈ (s.unlock connection key).locks, l.call ≠ c := by
  intro l hl hc
  have hmem : l ∈ s.locks := List.mem_of_mem_eraseP hl
  obtain ⟨call', hcall', hlock'⟩ := h.holder l hmem
  rw [hc, hcall] at hcall'
  cases hcall'
  rw [hlock] at hlock'
  simp only [Option.some.injEq, Prod.mk.injEq] at hlock'
  have hmatch : (l.connection == connection && l.key == key) = true := by
    simp [hlock'.1, hlock'.2]
  obtain ⟨l₀, before, behind, hbefore, hl₀, hlocks, herase⟩ :=
    List.exists_of_eraseP (p := fun l => l.connection == connection && l.key == key) hmem hmatch
  have hl₀' : l₀.connection = connection ∧ l₀.key = key := by simpa using hl₀
  -- The erased lock is on the connection of the call, so it is the call's own.
  have hown : l₀.call = c := by
    obtain ⟨call₀, hcall₀, hlock₀⟩ := h.holder l₀ (hlocks ▸ by simp)
    have howner := ho l₀.call call₀ connection hcall₀
      (Phase.connection_of_lock (hlock₀.trans (by rw [hl₀'.1])))
    have hmine := ho c call connection hcall (Phase.connection_of_lock hlock)
    rw [hmine] at howner
    exact (Option.some.inj howner).symm
  have honce := h.once
  rw [hlocks, List.map_append, List.map_cons, List.nodup_middle] at honce
  have hrest : l ∈ before ++ behind := herase ▸ hl
  apply (List.nodup_cons.1 honce).1
  rw [← List.map_append, hown, ← hc]
  exact List.mem_map_of_mem hrest

theorem Held.free (h : Held hashtext s) (hcall : s.calls c = some call)
    (hfree : ∀ connection key, call.phase.lock hashtext = some (connection, key) →
      (⟨connection, key, c⟩ : Lock) ∉ s.locks) : ∀ l ∈ s.locks, l.call ≠ c := by
  intro l hl hc
  obtain ⟨call', hcall', hlock⟩ := h.holder l hl
  rw [hc, hcall] at hcall'
  cases hcall'
  apply hfree l.connection l.key hlock
  rw [← hc]
  exact hl

theorem Held.step (h : Held hashtext s) (ho : Owned s) (hs : Stepped hashtext s s' es) :
    Held hashtext s' := by
  cases hs with
  | others hcalls howner hlocks =>
      apply h.keep hlocks _ rfl
      intro c call hcall _
      exact ⟨call, by rw [hcalls, hcall], rfl⟩
  | @began c call hcall =>
      have hnot : ∀ l ∈ s.locks, l.call ≠ c := by
        intro l hl hc
        obtain ⟨call', hcall', -⟩ := h.holder l hl
        rw [hc, hcall] at hcall'
        cases hcall'
      exact h.drop (List.Sublist.refl _) hnot rfl rfl
  | moved hcall _ _ _ hlock => exact h.setCall hcall hlock rfl rfl
  | acquired hcall _ _ _ _ hfree hlock => exact h.setCall hcall (hlock.trans hfree.symm) rfl rfl
  | @locked c connection key call call' hcall _ _ _ _ hfree hlock =>
      have hnot := h.free hcall (by rw [hfree]; simp)
      constructor
      · intro l hl
        obtain rfl | hl := List.mem_cons.1 hl
        · exact ⟨call', Function.update_self .., hlock⟩
        · obtain ⟨call'', hcall'', hlock''⟩ := h.holder l hl
          exact ⟨call'', (Function.update_of_ne (hnot l hl) ..).trans hcall'', hlock''⟩
      · apply List.nodup_cons.2
        constructor
        · intro hmem
          obtain ⟨l, hl, hc⟩ := List.mem_map.1 hmem
          exact hnot l hl hc
        · exact h.once
  | @released c connection call call' hcall _ _ hbefore _ _ hfree =>
      have hnot : ∀ l ∈ s.locks, l.call ≠ c := by
        apply h.free hcall
        intro connection' key hlock
        have heq := (Phase.connection_of_lock hlock).symm.trans hbefore
        cases heq
        exact hfree key hlock
      exact h.drop (List.Sublist.refl _) hnot rfl rfl
  | unlocked hcall _ _ hbefore =>
      exact h.drop List.eraseP_sublist (h.unlock_not_mem ho hcall hbefore) rfl rfl
  | dropped hcall _ _ _ hlock => exact h.setCall hcall hlock rfl rfl

/-! ## The ledger -/

/-- The calls answer for what they dropped. -/
structure Ledger (log : List Dropped) (s : State) : Prop where
  coherent : ∀ c call, s.calls c = some call → call.Coherent
  total : ∀ c call, s.calls c = some call → call.total = namesOf c log
  stale : ∀ e ∈ log, ∃ call, s.calls e.call = some call ∧
    Stale call.pfx e.database.name call.now call.maxAge
  idle : ∀ e ∈ log, e.connections = 0

/-- No database is dropped twice: an oid is given out once. -/
structure Catalog (log : List Dropped) (s : State) : Prop where
  once : (s.databases.map fun d => d.oid).Nodup
  gone : (log.map fun e => e.database.oid).Nodup
  apart : ∀ e ∈ log, ∀ d ∈ s.databases, e.database.oid ≠ d.oid
  given : ∀ d ∈ s.databases, d.oid < s.nextOid
  used : ∀ e ∈ log, e.database.oid < s.nextOid

theorem namesOf_append (c : ℕ) (log es : List Dropped) :
    namesOf c (log ++ es) = namesOf c log ++ namesOf c es := by
  rw [namesOf, List.filter_append, List.map_append]
  rfl

/-- Nothing is dropped in the name of a call that has not begun. -/
theorem Ledger.namesOf_none (h : Ledger log s) (hcall : s.calls c = none) :
    namesOf c log = [] := by
  rw [namesOf, List.map_eq_nil_iff, List.filter_eq_nil_iff]
  intro e he hc
  obtain ⟨call, hcall', -⟩ := h.stale e he
  rw [beq_iff_eq.1 hc, hcall] at hcall'
  cases hcall'

/-- A call goes on, with what it drops in the step. -/
theorem Ledger.follow (h : Ledger log s) (hcall : s.calls c = some call)
    (hfollows : call.Follows call') (htotal : call'.total = call.total ++ namesOf c es)
    (hes : ∀ e ∈ es, e.call = c ∧ e.connections = 0 ∧
      call.phase.candidate = some e.database.name)
    (hcalls : s'.calls = Function.update s.calls c (some call')) : Ledger (log ++ es) s' := by
  have hself : s'.calls c = some call' := by rw [hcalls, Function.update_self]
  have hother : ∀ c', c' ≠ c → s'.calls c' = s.calls c' := by
    intro c' hne
    rw [hcalls, Function.update_of_ne hne]
  constructor
  · intro c' call'' hc'
    by_cases hne : c' = c
    · rw [hne, hself] at hc'
      cases hc'
      exact hfollows.coherent (h.coherent c call hcall)
    · rw [hother c' hne] at hc'
      exact h.coherent c' call'' hc'
  · intro c' call'' hc'
    rw [namesOf_append]
    by_cases hne : c' = c
    · rw [hne, hself] at hc'
      cases hc'
      rw [htotal, h.total c call hcall, hne]
    · rw [hother c' hne] at hc'
      have hnone : namesOf c' es = [] := by
        rw [namesOf, List.map_eq_nil_iff, List.filter_eq_nil_iff]
        intro e he heq
        exact hne ((beq_iff_eq.1 heq).symm.trans (hes e he).1)
      rw [h.total c' call'' hc', hnone, List.append_nil]
  · intro e he
    obtain he | he := List.mem_append.1 he
    · obtain ⟨call₀, hcall₀, hstale⟩ := h.stale e he
      by_cases hne : e.call = c
      · rw [hne, hcall] at hcall₀
        cases hcall₀
        rw [hne, hself]
        refine ⟨call', rfl, ?_⟩
        rw [hfollows.pfx, hfollows.now, hfollows.maxAge]
        exact hstale
      · exact ⟨call₀, (hother e.call hne).trans hcall₀, hstale⟩
    · obtain ⟨hc, -, hcandidate⟩ := hes e he
      rw [hc, hself]
      refine ⟨call', rfl, ?_⟩
      rw [hfollows.pfx, hfollows.now, hfollows.maxAge]
      exact (h.coherent c call hcall).stale e.database.name hcandidate
  · intro e he
    obtain he | he := List.mem_append.1 he
    · exact h.idle e he
    · exact (hes e he).2.1

/-- The same for a step that drops nothing. -/
theorem Ledger.goOn (h : Ledger log s) (hcall : s.calls c = some call)
    (hfollows : call.Follows call') (htotal : call'.total = call.total)
    (hcalls : s'.calls = Function.update s.calls c (some call')) : Ledger (log ++ []) s' := by
  apply h.follow hcall hfollows _ _ hcalls
  · rw [htotal]
    exact (List.append_nil _).symm
  · intro e he
    cases he

theorem Ledger.step (h : Ledger log s) (hs : Stepped hashtext s s' es) :
    Ledger (log ++ es) s' := by
  cases hs with
  | others hcalls =>
      rw [List.append_nil]
      constructor
      · rw [hcalls]
        exact h.coherent
      · rw [hcalls]
        exact h.total
      · rw [hcalls]
        exact h.stale
      · exact h.idle
  | @began c call hcall hcoherent htotal =>
      rw [List.append_nil]
      constructor
      · intro c' call' hc'
        obtain ⟨rfl, rfl⟩ | ⟨-, hc'⟩ := setCall_calls hc'
        · exact hcoherent
        · exact h.coherent c' call' hc'
      · intro c' call' hc'
        obtain ⟨rfl, rfl⟩ | ⟨-, hc'⟩ := setCall_calls hc'
        · rw [htotal, h.namesOf_none hcall]
        · exact h.total c' call' hc'
      · intro e he
        obtain ⟨call', hcall', hstale⟩ := h.stale e he
        have hne : e.call ≠ c := by
          intro heq
          rw [heq, hcall] at hcall'
          cases hcall'
        exact ⟨call', (Function.update_of_ne hne ..).trans hcall', hstale⟩
      · exact h.idle
  | moved hcall hfollows htotal => exact h.goOn hcall hfollows htotal rfl
  | acquired hcall hfollows htotal => exact h.goOn hcall hfollows htotal rfl
  | locked hcall hfollows htotal => exact h.goOn hcall hfollows htotal rfl
  | released hcall hfollows htotal => exact h.goOn hcall hfollows htotal rfl
  | unlocked hcall hfollows htotal => exact h.goOn hcall hfollows htotal rfl
  | @dropped c d call call' hcall hfollows htotal _ _ hcandidate hd hidle =>
      apply h.follow hcall hfollows _ _ rfl
      · rw [htotal]
        simp [namesOf]
      · intro e he
        rw [List.mem_singleton.1 he]
        exact ⟨rfl, hidle, hcandidate⟩

/-- Databases go and the others stay; the oids of the log are those of before. -/
theorem Catalog.shrink (h : Catalog log s) (hsub : s'.databases.Sublist s.databases)
    (hoid : s.nextOid ≤ s'.nextOid) : Catalog (log ++ []) s' := by
  rw [List.append_nil]
  constructor
  · exact h.once.sublist (hsub.map _)
  · exact h.gone
  · intro e he d hd
    exact h.apart e he d (hsub.subset hd)
  · intro d hd
    exact (h.given d (hsub.subset hd)).trans_le hoid
  · intro e he
    exact (h.used e he).trans_le hoid

theorem Catalog.step (h : Catalog log s) (hs : Stepped hashtext s s' es) :
    Catalog (log ++ es) s' := by
  cases hs with
  | others _ _ _ hoid hdatabases =>
      obtain hsub | ⟨name, hnew, hnext⟩ := hdatabases
      · exact h.shrink hsub hoid
      · rw [List.append_nil]
        constructor
        · rw [hnew]
          apply List.nodup_cons.2
          constructor
          · intro hmem
            obtain ⟨d, hd, heq⟩ := List.mem_map.1 hmem
            exact (h.given d hd).ne heq
          · exact h.once
        · exact h.gone
        · intro e he d hd
          rw [hnew] at hd
          obtain rfl | hd := List.mem_cons.1 hd
          · exact (h.used e he).ne
          · exact h.apart e he d hd
        · intro d hd
          rw [hnew] at hd
          obtain rfl | hd := List.mem_cons.1 hd
          · rw [hnext]
            exact Nat.lt_succ_self _
          · exact (h.given d hd).trans_le hoid
        · intro e he
          exact (h.used e he).trans_le hoid
  | began => exact h.shrink (List.Sublist.refl _) le_rfl
  | moved => exact h.shrink (List.Sublist.refl _) le_rfl
  | acquired => exact h.shrink (List.Sublist.refl _) le_rfl
  | locked => exact h.shrink (List.Sublist.refl _) le_rfl
  | released => exact h.shrink (List.Sublist.refl _) le_rfl
  | unlocked => exact h.shrink (List.Sublist.refl _) le_rfl
  | @dropped c d call call' hcall _ _ _ _ _ hd =>
      have hkeep : ∀ d' ∈ (s.remove d.name).databases, d' ∈ s.databases ∧ d'.name ≠ d.name := by
        intro d' hd'
        simpa [State.remove] using hd'
      constructor
      · exact h.once.sublist (List.filter_sublist.map _)
      · rw [List.map_append, List.nodup_append]
        refine ⟨h.gone, List.nodup_singleton _, ?_⟩
        intro oid hoid oid' hoid'
        obtain ⟨e, he, rfl⟩ := List.mem_map.1 hoid
        rw [List.mem_singleton.1 hoid']
        exact h.apart e he d hd
      · intro e he d' hd'
        obtain ⟨hmem, hname⟩ := hkeep d' hd'
        obtain he | he := List.mem_append.1 he
        · exact h.apart e he d' hmem
        · rw [List.mem_singleton.1 he]
          intro heq
          exact hname (congrArg Database.name (List.inj_on_of_nodup_map h.once hd hmem heq)).symm
      · intro d' hd'
        exact h.given d' (hkeep d' hd').1
      · intro e he
        obtain he | he := List.mem_append.1 he
        · exact h.used e he
        · rw [List.mem_singleton.1 he]
          exact h.given d hd

/-- What an orderly run keeps. -/
structure Invariant (hashtext : Name → ℤ) (log : List Dropped) (s : State) : Prop where
  owned : Owned s
  held : Held hashtext s
  ledger : Ledger log s
  catalog : Catalog log s

theorem Invariant.init : Invariant hashtext [] State.init := by
  constructor
  · intro c call connection hcall
    cases hcall
  · exact ⟨by simp [State.init], List.nodup_nil⟩
  · constructor
    · intro c call hcall
      cases hcall
    · intro c call hcall
      cases hcall
    · simp
    · simp
  · constructor <;> simp [State.init]

theorem Invariant.step (h : Invariant hashtext log s) (hs : Stepped hashtext s s' es) :
    Invariant hashtext (log ++ es) s' :=
  ⟨h.owned.step hs, h.held.step h.owned hs, h.ledger.step hs, h.catalog.step hs⟩

theorem Invariant.exclusive (h : Invariant hashtext log s) : Exclusive log s := by
  have htotal : ∀ c call result, s.calls c = some call → call.phase = .returned result →
      call.dropped = namesOf c log := by
    intro c call result hcall hphase
    rw [← h.ledger.total c call hcall, Call.total, hphase]
  constructor
  · exact h.ledger.stale
  · exact h.ledger.idle
  · exact h.catalog.gone
  · intro c call names hcall hphase
    rw [← htotal c call _ hcall hphase]
    exact (h.ledger.coherent c call hcall).returned names hphase
  · intro c call text hcall hphase
    rw [← htotal c call _ hcall hphase]
    exact (h.ledger.coherent c call hcall).failed text hphase
  · intro c call result hcall hphase
    apply h.held.free hcall
    intro connection key hlock
    rw [hphase] at hlock
    cases hlock

theorem run_invariant
    (h : ReaperRun hashtext (fun s a => orderly hashtext s a = true) log s) :
    Invariant hashtext log s :=
  h.invariant Invariant.init fun _ _ _ _ _ _ hi ho hs =>
    hi.step (step_stepped hi.ledger.coherent ho hs)

/-- In a run whose statements are orderly, a call drops only idle databases of stale
generated names, each once, returns what it dropped, and keeps no lock. -/
theorem reaping_exclusive
    (h : ReaperRun hashtext (fun s a => orderly hashtext s a = true) log s) : Exclusive log s :=
  (run_invariant h).exclusive

/-! ## Runs on one database -/

/-- A stale name of the prefix `a_`. -/
def candidate : Name := "a_0_00000000000000000000000000000000".toList

def answered (connection : ℕ) : Reply := ⟨.done, connection, false⟩

def refused : Reply := ⟨.rejected, 0, false⟩

/-- A call up to its advisory lock, then the second check, the `DROP` and the release. -/
def reaping (c : ℕ) : List Action :=
  [.call c "a_".toList 5 0] ++ List.replicate 7 (.statement c (answered c))

theorem reaping_exclusive_one : ∃ log s,
    ReaperRun (fun name => name.length) (fun s a => orderly (fun name => name.length) s a = true)
      log s ∧
    Exclusive log s ∧ log = [⟨1, ⟨candidate, 0⟩, 0⟩] := by
  obtain ⟨log, s, hrun, hp⟩ := StepRun.exists_run (step fun name => name.length)
    (orderly fun name => name.length) State.init (.create candidate :: reaping 1)
    (fun log _ => log == [⟨1, ⟨candidate, 0⟩, 0⟩]) (by decide)
  exact ⟨log, s, hrun, reaping_exclusive hrun, beq_iff_eq.1 hp⟩

def returnedNames (s : State) (c : ℕ) : Option (Except String (List Name)) :=
  (s.calls c).bind fun call => match call.phase with
    | .returned result => some result
    | _ => none

theorem returnedNames_eq_some {result : Except String (List Name)}
    (h : returnedNames s c = some result) :
    ∃ call, s.calls c = some call ∧ call.phase = .returned result := by
  obtain ⟨call, hcall, h⟩ := Option.bind_eq_some_iff.1 h
  split at h
  · rename_i hphase
    cases h
    exact ⟨call, hcall, hphase⟩
  · cases h

/-- Two calls list one name; the second drops it when it is gone and returns it again.
A call whose second check fails returns with its lock held. -/
theorem not_reaping_exclusive :
    (∃ log s, ReaperRun (fun name => name.length) StepRun.Free log s ∧ ¬ Exclusive log s ∧
      returnedNames s 1 = some (.ok [candidate]) ∧ returnedNames s 2 = some (.ok [candidate])) ∧
    ∃ log s, ReaperRun (fun name => name.length) StepRun.Free log s ∧ ¬ Exclusive log s ∧
      returnedNames s 1 = some (.error "failed to recheck test database activity") ∧
      s.locks = [⟨1, candidate.length, 1⟩] := by
  constructor
  · obtain ⟨log, s, hrun, hp⟩ := StepRun.exists_free_run (step fun name => name.length) State.init
      ([.create candidate, .call 2 "a_".toList 5 0, .statement 2 (answered 2)] ++ reaping 1 ++
        List.replicate 6 (.statement 2 (answered 2)))
      (fun log s => log == [⟨1, ⟨candidate, 0⟩, 0⟩] && decide
        (returnedNames s 1 = some (.ok [candidate]) ∧ returnedNames s 2 = some (.ok [candidate])))
      (by decide)
    rw [Bool.and_eq_true, decide_eq_true_eq] at hp
    obtain ⟨hlog, hfirst, hsecond⟩ := hp
    refine ⟨log, s, hrun, ?_, hfirst, hsecond⟩
    intro hexclusive
    obtain ⟨call, hcall, hphase⟩ := returnedNames_eq_some hsecond
    have hnames := hexclusive.returned 2 call _ hcall hphase
    rw [beq_iff_eq.1 hlog] at hnames
    exact absurd hnames (by decide)
  · obtain ⟨log, s, hrun, hp⟩ := StepRun.exists_free_run (step fun name => name.length) State.init
      ([.create candidate, .call 1 "a_".toList 5 0] ++
        List.replicate 4 (.statement 1 (answered 1)) ++ [.statement 1 refused])
      (fun _ s => decide
        (returnedNames s 1 = some (.error "failed to recheck test database activity") ∧
          s.locks = [⟨1, candidate.length, 1⟩])) (by decide)
    rw [decide_eq_true_eq] at hp
    refine ⟨log, s, hrun, ?_, hp⟩
    intro hexclusive
    obtain ⟨call, hcall, hphase⟩ := returnedNames_eq_some hp.1
    apply hexclusive.unlocked 1 call _ hcall hphase ⟨1, candidate.length, 1⟩
    · rw [hp.2]
      exact List.mem_singleton_self _
    · rfl

end

end Cja.Testing
