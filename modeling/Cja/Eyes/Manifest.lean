import Cja.Jobs.Registry
import Cja.Lib.SortByKey
import Cja.Lib.Text

/-!
# The boot manifest

What an app declares to Eyes: its jobs, its crons and, where it is built from the state,
its HTTP monitors. A declaration is checked monitor by monitor, and the first check that
fails is the error. `resolve_monitor_target` belongs to the subscriber and is a parameter,
as is the type of its errors.
-/
namespace Cja.Eyes

open Text (trim byteLength)
open Jobs (JobRegistry)

/-- A monitor; `Rest` is what no check reads. -/
structure HttpMonitor (Rest : Type) where
  id : Text
  target : Text
  intervalSeconds : UInt64
  timeoutSeconds : UInt64
  failureThreshold : UInt32
  expectedStatusMin : UInt16
  expectedStatusMax : UInt16
  rest : Rest
deriving Repr, DecidableEq

inductive DeclarationError (E : Type)
  | target (error : E)
  | tooManyMonitors
  | emptyId
  | idTooLong
  | untrimmedId
  | nonAsciiId
  | invalidIdCharacter
  | duplicateId (id : Text)
  | invalidInterval
  | invalidTimeout
  | invalidFailureThreshold
  | timeoutExceedsInterval
  | invalidStatusBounds
  | reversedStatusBounds
deriving Repr, DecidableEq

def DeclarationError.message {E : Type} (targetMessage : E → String) :
    DeclarationError E → String
  | target error => targetMessage error
  | tooManyMonitors => "at most 100 HTTP monitors may be declared"
  | emptyId => "monitor ID must not be empty"
  | idTooLong => "monitor ID exceeds 128 bytes"
  | untrimmedId => "monitor ID must already be trimmed"
  | nonAsciiId => "monitor ID must be ASCII"
  | invalidIdCharacter => "monitor ID contains an invalid character"
  | duplicateId id => "duplicate monitor ID: " ++ String.ofList id
  | invalidInterval => "monitor interval must be between 1 and i64::MAX seconds"
  | invalidTimeout => "monitor timeout must be between 1 and i64::MAX seconds"
  | invalidFailureThreshold => "monitor failure threshold must be between 1 and i32::MAX"
  | timeoutExceedsInterval => "monitor timeout must not exceed its interval"
  | invalidStatusBounds => "monitor status bounds must be between 100 and 599"
  | reversedStatusBounds => "monitor minimum status must not exceed its maximum status"

structure CronEntry where
  name : String
  schedule : String
deriving Repr, DecidableEq

/-! ## The cron registry -/

/-- A number of `10 ^ digits` parts of a unit, without trailing zeros. -/
def inUnit (parts digits : ℕ) (unit : String) : String :=
  let padded := Nat.toDigits 10 (10 ^ digits + parts % 10 ^ digits)
  let fraction := (padded.drop 1).rdropWhile (· == '0')
  String.ofList (Nat.toDigits 10 (parts / 10 ^ digits) ++
    if fraction.isEmpty then [] else '.' :: fraction) ++ unit

/-- `Debug` of a `Duration`: the largest unit of which there is a whole one. -/
def debugDuration (nanos : ℕ) : String :=
  if 10 ^ 9 ≤ nanos then inUnit nanos 9 "s"
  else if 10 ^ 6 ≤ nanos then inUnit nanos 6 "ms"
  else if 10 ^ 3 ≤ nanos then inUnit nanos 3 "µs"
  else inUnit nanos 0 "ns"

example : debugDuration (300 * 10 ^ 9) = "300s" := by decide

/-- A schedule as it is printed: an expression is kept as it was given. -/
inductive Schedule
  | interval (nanos : ℕ)
  | cron (expression : String)
deriving Repr, DecidableEq

def Schedule.text : Schedule → String
  | interval nanos => debugDuration nanos
  | cron expression => expression

/-- The jobs of the registry in the order in which its map lists them, one a name. -/
structure CronRegistry where
  jobs : List (String × Schedule)
  nodup : (jobs.map Prod.fst).Nodup

namespace CronRegistry

def new : CronRegistry := ⟨[], List.nodup_nil⟩

/-- What `register`, `register_job` and their cron forms do to the map. -/
def insert (r : CronRegistry) (name : String) (schedule : Schedule) : CronRegistry where
  jobs := (name, schedule) :: r.jobs.filter fun job => job.1 != name
  nodup := by
    rw [List.map_cons, List.nodup_cons]
    refine ⟨fun hmem => ?_, r.nodup.sublist (List.filter_sublist.map Prod.fst)⟩
    obtain ⟨job, hjob, hname⟩ := List.mem_map.mp hmem
    have hother := (List.mem_filter.mp hjob).2
    rw [hname] at hother
    simp at hother

def entryBefore (a b : CronEntry) : Bool := decide (a.name ≤ b.name)

def entries (r : CronRegistry) : List CronEntry :=
  (r.jobs.map fun job => CronEntry.mk job.1 job.2.text).mergeSort entryBefore

variable {r : CronRegistry}

theorem mem_insert {name : String} {schedule : Schedule} {job : String × Schedule} :
    job ∈ (r.insert name schedule).jobs ↔
      job = (name, schedule) ∨ job ∈ r.jobs ∧ job.1 ≠ name := by
  rw [insert, List.mem_cons, List.mem_filter, bne_iff_ne]

theorem entryBefore_iff (a b : CronEntry) : entryBefore a b = true ↔ a.name ≤ b.name :=
  decide_eq_true_iff

theorem names_nodup (r : CronRegistry) :
    ((r.jobs.map fun job => CronEntry.mk job.1 job.2.text).map CronEntry.name).Nodup := by
  rw [List.map_map]
  exact r.nodup

theorem mem_entries {entry : CronEntry} :
    entry ∈ r.entries ↔
      ∃ schedule, (entry.name, schedule) ∈ r.jobs ∧ entry.schedule = schedule.text := by
  rw [entries, (List.mergeSort_perm _ entryBefore).mem_iff, List.mem_map]
  constructor
  · rintro ⟨⟨name, schedule⟩, hjob, rfl⟩
    exact ⟨schedule, hjob, rfl⟩
  · rintro ⟨schedule, hjob, htext⟩
    exact ⟨(entry.name, schedule), hjob, htext ▸ rfl⟩

/-- A registration is listed from then on, in place of what its name had. -/
theorem mem_entries_insert {name : String} {schedule : Schedule} {entry : CronEntry} :
    entry ∈ (r.insert name schedule).entries ↔
      entry = ⟨name, schedule.text⟩ ∨ entry ∈ r.entries ∧ entry.name ≠ name := by
  obtain ⟨entryName, text⟩ := entry
  simp only [mem_entries, mem_insert, Prod.mk.injEq, CronEntry.mk.injEq]
  constructor
  · rintro ⟨schedule', ⟨rfl, rfl⟩ | ⟨hjob, hne⟩, htext⟩
    · exact .inl ⟨rfl, htext⟩
    · exact .inr ⟨⟨schedule', hjob, htext⟩, hne⟩
  · rintro (⟨rfl, rfl⟩ | ⟨⟨schedule', hjob, htext⟩, hne⟩)
    · exact ⟨schedule, .inl ⟨rfl, rfl⟩, rfl⟩
    · exact ⟨schedule', .inr ⟨hjob, hne⟩, htext⟩

theorem entries_sorted (r : CronRegistry) :
    r.entries.Pairwise fun a b => a.name < b.name :=
  SortByKey.pairwise_lt entryBefore_iff r.names_nodup

end CronRegistry

structure AppManifest (Rest : Type) where
  appVersion : Option String
  gitSha : Option String
  jobs : List String
  crons : List CronEntry
  baseUrl : Option Text
  /-- `none` leaves the monitors to others; a list is all of them. -/
  monitors : Option (List (HttpMonitor Rest))
deriving Repr, DecidableEq

/-- The two hooks of `AppState`. -/
structure Declaration (Rest : Type) where
  eyesBaseUrl : Option Text
  eyesHttpMonitors : List (HttpMonitor Rest)

variable {P Rest E : Type} (resolve : Option Text → Text → Except E Text)

def i64Max : ℕ := 2 ^ 63 - 1

def i32Max : ℕ := 2 ^ 31 - 1

def isAscii (c : Char) : Bool := c.toNat < 128

def isIdChar (c : Char) : Bool := c.isAlphanum || "._:-".toList.contains c

/-- The checks of a monitor behind those with `ids`, in order, each with its error. -/
def checks (ids : List Text) (monitor : HttpMonitor Rest) : List (Bool × DeclarationError E) :=
  [(monitor.id.isEmpty, .emptyId),
    (128 < byteLength monitor.id, .idTooLong),
    (trim monitor.id != monitor.id, .untrimmedId),
    (!monitor.id.all isAscii, .nonAsciiId),
    (!monitor.id.all isIdChar, .invalidIdCharacter),
    (ids.contains monitor.id, .duplicateId monitor.id),
    (monitor.intervalSeconds == 0 || i64Max < monitor.intervalSeconds.toNat, .invalidInterval),
    (monitor.timeoutSeconds == 0 || i64Max < monitor.timeoutSeconds.toNat, .invalidTimeout),
    (monitor.failureThreshold == 0 || i32Max < monitor.failureThreshold.toNat,
      .invalidFailureThreshold),
    (monitor.timeoutSeconds > monitor.intervalSeconds, .timeoutExceedsInterval),
    (!(100 ≤ monitor.expectedStatusMin && monitor.expectedStatusMin ≤ 599) ||
      !(100 ≤ monitor.expectedStatusMax && monitor.expectedStatusMax ≤ 599),
      .invalidStatusBounds),
    (monitor.expectedStatusMin > monitor.expectedStatusMax, .reversedStatusBounds)]

/-- One pass of the loop. -/
def declare (base : Option Text) (ids : List Text) (monitor : HttpMonitor Rest) :
    Except (DeclarationError E) (HttpMonitor Rest) :=
  match (checks ids monitor).find? Prod.fst with
  | some (_, e) => .error e
  | none =>
      match resolve base monitor.target with
      | .error e => .error (.target e)
      | .ok target => .ok { monitor with target }

def declareAll (base : Option Text) (ids : List Text) :
    List (HttpMonitor Rest) → Except (DeclarationError E) (List (HttpMonitor Rest))
  | [] => .ok []
  | monitor :: monitors =>
      match declare resolve base ids monitor with
      | .error e => .error e
      | .ok declared => (declareAll base (monitor.id :: ids) monitors).map (declared :: ·)

def monitorDeclarations (state : Declaration Rest) :
    Except (DeclarationError E) (Option Text × List (HttpMonitor Rest)) :=
  match state.eyesBaseUrl.map (resolve none) with
  | some (.error e) => .error (.target e)
  | _ =>
      if 100 < state.eyesHttpMonitors.length then .error .tooManyMonitors
      else (declareAll resolve state.eyesBaseUrl [] state.eyesHttpMonitors).map
        (state.eyesBaseUrl, ·)

def legacyManifest (registry : JobRegistry P) (appVersion gitSha : Option String)
    (crons : List CronEntry) : AppManifest Rest :=
  ⟨appVersion, gitSha, registry.jobNames, crons, none, none⟩

/-- The manifest of the registries, without monitors. -/
def buildBootManifest (registry : JobRegistry P) (appVersion gitSha : Option String)
    (cronRegistry : Option CronRegistry) : AppManifest Rest :=
  let crons := (cronRegistry.map CronRegistry.entries).getD []
  legacyManifest registry appVersion gitSha crons

def finishStateManifest (state : Declaration Rest) (manifest : AppManifest Rest) :
    Except (DeclarationError E) (AppManifest Rest) :=
  match monitorDeclarations resolve state with
  | .error e => .error e
  | .ok (base, monitors) =>
      .ok { manifest with
        baseUrl := base.or manifest.baseUrl
        monitors := some monitors }

def buildBootManifestFromState (registry : JobRegistry P) (state : Declaration Rest)
    (appVersion gitSha : Option String) (cronRegistry : Option CronRegistry) :
    Except (DeclarationError E) (AppManifest Rest) :=
  finishStateManifest resolve state (buildBootManifest registry appVersion gitSha cronRegistry)

/-- What is listed of an app's crons: each once, by name, whatever the order of its map. -/
structure ListsCrons (cronRegistry : Option CronRegistry) (crons : List CronEntry) : Prop where
  sorted : crons.Pairwise fun a b => a.name < b.name
  mem : ∀ entry, entry ∈ crons ↔
    ∃ r ∈ cronRegistry, ∃ schedule, (entry.name, schedule) ∈ r.jobs ∧
      entry.schedule = schedule.text

/-! ## What a declaration has to be -/

/-- The rules for one monitor. An id needs no rule about ASCII or about white space at its
ends: the characters it may have are enough. -/
structure HttpMonitor.WellFormed (m : HttpMonitor Rest) : Prop where
  id_ne : m.id ≠ []
  id_length : m.id.length ≤ 128
  id_chars : ∀ c ∈ m.id, isIdChar c = true
  interval : m.intervalSeconds.toNat ≤ i64Max
  timeout : 0 < m.timeoutSeconds.toNat ∧ m.timeoutSeconds.toNat ≤ m.intervalSeconds.toNat
  threshold : 0 < m.failureThreshold.toNat ∧ m.failureThreshold.toNat ≤ i32Max
  statuses : 100 ≤ m.expectedStatusMin.toNat ∧
    m.expectedStatusMin.toNat ≤ m.expectedStatusMax.toNat ∧ m.expectedStatusMax.toNat ≤ 599

/-- What is declared for a monitor: the monitor, with its target resolved. -/
structure Resolved (base : Option Text) (m m' : HttpMonitor Rest) : Prop where
  target : resolve base m.target = .ok m'.target
  rest : m' = { m with target := m'.target }

/-- What an error says about a monitor. -/
def HttpMonitor.Breaks (base : Option Text) (m : HttpMonitor Rest) : DeclarationError E → Prop
  | .target e => resolve base m.target = .error e
  | .tooManyMonitors => False
  | .emptyId => m.id = []
  | .idTooLong => 128 < byteLength m.id
  | .untrimmedId => trim m.id ≠ m.id
  | .nonAsciiId => ∃ c ∈ m.id, isAscii c = false
  | .invalidIdCharacter => ∃ c ∈ m.id, isIdChar c = false
  | .duplicateId _ => False
  | .invalidInterval => m.intervalSeconds = 0 ∨ i64Max < m.intervalSeconds.toNat
  | .invalidTimeout => m.timeoutSeconds = 0 ∨ i64Max < m.timeoutSeconds.toNat
  | .invalidFailureThreshold =>
      m.failureThreshold = 0 ∨ i32Max < m.failureThreshold.toNat
  | .timeoutExceedsInterval => m.intervalSeconds.toNat < m.timeoutSeconds.toNat
  | .invalidStatusBounds =>
      (m.expectedStatusMin.toNat < 100 ∨ 599 < m.expectedStatusMin.toNat) ∨
        (m.expectedStatusMax.toNat < 100 ∨ 599 < m.expectedStatusMax.toNat)
  | .reversedStatusBounds => m.expectedStatusMax.toNat < m.expectedStatusMin.toNat

/-! ## One monitor -/

section

variable {resolve} {base : Option Text} {ids : List Text} {m m' : HttpMonitor Rest}
  {e : DeclarationError E}

theorem isIdChar_plain {c : Char} (h : isIdChar c = true) :
    c.toNat < 128 ∧ Text.isWhitespace c = false := by
  have hcode : 32 < c.toNat ∧ c.toNat < 128 := by
    rw [isIdChar, Bool.or_eq_true] at h
    cases h with
    | inl halnum =>
        simp [Char.isAlphanum, Char.isAlpha, Char.isUpper, Char.isLower, Char.isDigit,
          UInt32.le_iff_toNat_le] at halnum
        omega
    | inr hmark =>
        have hcases : c = '.' ∨ c = '_' ∨ c = ':' ∨ c = '-' := by simpa using hmark
        obtain rfl | rfl | rfl | rfl := hcases <;> decide
  refine ⟨hcode.2, ?_⟩
  simp [Text.isWhitespace]
  omega

theorem trim_of_idChars {id : Text} (h : ∀ c ∈ id, isIdChar c = true) : trim id = id := by
  have hplain : ∀ c ∈ id, Text.isWhitespace c = false := fun c hc => (isIdChar_plain (h c hc)).2
  have hfront : id.dropWhile Text.isWhitespace = id := by
    rw [List.dropWhile_eq_self_iff]
    intro hlen
    simp [hplain _ (List.getElem_mem hlen)]
  unfold trim
  rw [hfront, List.rdropWhile_eq_self_iff]
  intro hne
  simp [hplain _ (List.getLast_mem hne)]

theorem byteLength_of_idChars {id : Text} (h : ∀ c ∈ id, isIdChar c = true) :
    byteLength id = id.length := by
  unfold byteLength
  induction id with
  | nil => rfl
  | cons c cs ih =>
      have hascii : c.toNat < 128 := (isIdChar_plain (h c List.mem_cons_self)).1
      have hone : c.utf8Size = 1 := by
        rw [Char.utf8Size_eq_one_iff, UInt32.le_iff_toNat_le]
        exact Nat.le_of_lt_succ hascii
      rw [List.map_cons, List.sum_cons, hone, ih fun d hd => h d (List.mem_cons_of_mem c hd),
        List.length_cons, Nat.add_comm]

theorem ne_zero_iff64 (n : UInt64) : n ≠ 0 ↔ 0 < n.toNat := by
  rw [Nat.pos_iff_ne_zero, ne_eq, ne_eq, ← UInt64.toNat_inj, UInt64.toNat_zero]

theorem ne_zero_iff32 (n : UInt32) : n ≠ 0 ↔ 0 < n.toNat := by
  rw [Nat.pos_iff_ne_zero, ne_eq, ne_eq, ← UInt32.toNat_inj, UInt32.toNat_zero]

/-- The checks pass where the rules are kept and the id is a new one. -/
theorem checks_pass : (∀ check ∈ (checks ids m : List (Bool × DeclarationError E)),
    check.1 = false) ↔ m.WellFormed ∧ m.id ∉ ids := by
  simp [checks, UInt64.lt_iff_toNat_lt, UInt16.le_iff_toNat_le, UInt16.lt_iff_toNat_lt]
  constructor
  · rintro ⟨hne, hlength, -, -, hchars, hid, ⟨-, hinterval⟩, ⟨htimeout, -⟩,
      ⟨hthreshold, hthreshold'⟩, hexceeds, ⟨⟨hmin, -⟩, -, hmax⟩, horder⟩
    exact ⟨{
      id_ne := hne
      id_length := byteLength_of_idChars hchars ▸ hlength
      id_chars := hchars
      interval := hinterval
      timeout := ⟨(ne_zero_iff64 _).mp htimeout, hexceeds⟩
      threshold := ⟨(ne_zero_iff32 _).mp hthreshold, hthreshold'⟩
      statuses := ⟨hmin, horder, hmax⟩ }, hid⟩
  · rintro ⟨hm, hid⟩
    have hascii : ∀ c ∈ m.id, isAscii c = true := fun c hc =>
      decide_eq_true (isIdChar_plain (hm.id_chars c hc)).1
    have hlength : byteLength m.id ≤ 128 := byteLength_of_idChars hm.id_chars ▸ hm.id_length
    have hinterval : m.intervalSeconds ≠ 0 :=
      (ne_zero_iff64 _).mpr (hm.timeout.1.trans_le hm.timeout.2)
    have htimeout : m.timeoutSeconds ≠ 0 := (ne_zero_iff64 _).mpr hm.timeout.1
    have hthreshold : m.failureThreshold ≠ 0 := (ne_zero_iff32 _).mpr hm.threshold.1
    have hstatuses := hm.statuses
    exact ⟨hm.id_ne, hlength, trim_of_idChars hm.id_chars, hascii, hm.id_chars, hid,
      ⟨hinterval, hm.interval⟩, ⟨htimeout, hm.timeout.2.trans hm.interval⟩,
      ⟨hthreshold, hm.threshold.2⟩, hm.timeout.2, by omega, hstatuses.2.1⟩

/-- The loop takes the monitors that keep the rules, under an id it has not seen. -/
theorem declare_eq_ok : declare resolve base ids m = .ok m' ↔
    m.WellFormed ∧ m.id ∉ ids ∧ Resolved resolve base m m' := by
  have hpass : (checks ids m : List (Bool × DeclarationError E)).find? Prod.fst = none ↔
      m.WellFormed ∧ m.id ∉ ids := by
    rw [List.find?_eq_none, ← checks_pass (E := E)]
    simp only [Bool.not_eq_true]
  rw [← and_assoc, ← hpass]
  unfold declare
  constructor
  · intro h
    cases hchecks : (checks ids m : List (Bool × DeclarationError E)).find? Prod.fst with
    | some check =>
        rw [hchecks] at h
        cases h
    | none =>
        rw [hchecks] at h
        cases htarget : resolve base m.target with
        | error e =>
            simp only [htarget] at h
            cases h
        | ok target =>
            simp only [htarget] at h
            cases h
            exact ⟨rfl, htarget, rfl⟩
  · rintro ⟨hchecks, htarget, hrest⟩
    rw [hchecks]
    simp only [htarget]
    rw [← hrest]

/-- An error of the loop is one of the monitor, or its id was seen. -/
theorem declare_eq_error (h : declare resolve base ids m = .error e) :
    m.Breaks resolve base e ∨ e = .duplicateId m.id ∧ m.id ∈ ids := by
  unfold declare at h
  cases hchecks : (checks ids m : List (Bool × DeclarationError E)).find? Prod.fst with
  | none =>
      rw [hchecks] at h
      cases htarget : resolve base m.target with
      | error e' =>
          simp only [htarget] at h
          cases h
          exact .inl htarget
      | ok target =>
          simp only [htarget] at h
          cases h
  | some check =>
      rw [hchecks] at h
      obtain ⟨failed, e'⟩ := check
      cases h
      have hfailed : failed = true := List.find?_some hchecks
      have hmem := List.mem_of_find?_eq_some hchecks
      rw [hfailed] at hmem
      simp [checks, UInt64.lt_iff_toNat_lt, UInt16.le_iff_toNat_le, UInt16.lt_iff_toNat_lt] at hmem
      rcases hmem with ⟨h, rfl⟩ | ⟨h, rfl⟩ | ⟨h, rfl⟩ | ⟨h, rfl⟩ | ⟨h, rfl⟩ | ⟨h, rfl⟩ |
        ⟨h, rfl⟩ | ⟨h, rfl⟩ | ⟨h, rfl⟩ | ⟨h, rfl⟩ | ⟨h, rfl⟩ | ⟨h, rfl⟩
      case inr.inr.inr.inr.inr.inl => exact .inr ⟨rfl, h⟩
      all_goals exact .inl h

end

/-! ## The whole declaration -/

/-- What the loop makes of monitors that it takes. -/
structure Taken (base : Option Text) (monitors out : List (HttpMonitor Rest)) : Prop where
  wellFormed : ∀ m ∈ monitors, m.WellFormed
  ids : (monitors.map HttpMonitor.id).Nodup
  resolved : List.Forall₂ (Resolved resolve base) monitors out

/-- A declaration Eyes can take, and the monitors it comes to. -/
structure Declaration.Declares (state : Declaration Rest) (out : List (HttpMonitor Rest)) :
    Prop where
  base : ∀ base ∈ state.eyesBaseUrl, ∃ url, resolve none base = .ok url
  count : state.eyesHttpMonitors.length ≤ 100
  taken : Taken resolve state.eyesBaseUrl state.eyesHttpMonitors out

/-- What an error says about a declaration. One about a monitor is about the first that is
not taken. -/
inductive Declaration.Breaks (state : Declaration Rest) : DeclarationError E → Prop
  | base {base : Text} {e : E} (hbase : state.eyesBaseUrl = some base)
      (h : resolve none base = .error e) : Declaration.Breaks state (.target e)
  | count (h : 100 < state.eyesHttpMonitors.length) : Declaration.Breaks state .tooManyMonitors
  | monitor {before out behind : List (HttpMonitor Rest)} {m : HttpMonitor Rest}
      {e : DeclarationError E} (hsplit : state.eyesHttpMonitors = before ++ m :: behind)
      (htaken : Taken resolve state.eyesBaseUrl before out)
      (h : m.Breaks resolve state.eyesBaseUrl e ∨
        e = .duplicateId m.id ∧ m.id ∈ before.map HttpMonitor.id) : Declaration.Breaks state e

section

variable {resolve} {base : Option Text} {ids : List Text} {monitors out : List (HttpMonitor Rest)}
  {state : Declaration Rest} {e : DeclarationError E}

theorem declareAll_cons_eq_ok {m : HttpMonitor Rest} :
    declareAll resolve base ids (m :: monitors) = .ok out ↔
      ∃ m' out', out = m' :: out' ∧ declare resolve base ids m = .ok m' ∧
        declareAll resolve base (m.id :: ids) monitors = .ok out' := by
  rw [declareAll]
  cases hm : declare resolve base ids m with
  | error e => simp
  | ok m' =>
      cases hrest : declareAll resolve base (m.id :: ids) monitors with
      | error e => simp [Except.map]
      | ok out' => simp [Except.map, eq_comm]

/-- The loop succeeds where it takes every monitor and has seen no id before. -/
theorem declareAll_eq_ok : declareAll resolve base ids monitors = .ok out ↔
    Taken resolve base monitors out ∧ ∀ m ∈ monitors, m.id ∉ ids := by
  induction monitors generalizing ids out with
  | nil =>
      constructor
      · intro h
        cases h
        exact ⟨⟨fun _ hm => absurd hm List.not_mem_nil, List.nodup_nil, .nil⟩,
          fun _ hm => absurd hm List.not_mem_nil⟩
      · rintro ⟨htaken, -⟩
        rw [List.forall₂_nil_left_iff.mp htaken.resolved]
        rfl
  | cons m monitors ih =>
      rw [declareAll_cons_eq_ok]
      constructor
      · rintro ⟨m', out', rfl, hm, hrest⟩
        obtain ⟨hwell, hid, hresolved⟩ := declare_eq_ok.mp hm
        obtain ⟨htaken, hnew⟩ := ih.mp hrest
        have hfresh : m.id ∉ monitors.map HttpMonitor.id := by
          intro hmem
          obtain ⟨n, hn, hsame⟩ := List.mem_map.mp hmem
          exact hnew n hn (hsame ▸ List.mem_cons_self)
        refine ⟨⟨?_, ?_, .cons hresolved htaken.resolved⟩, ?_⟩
        · exact List.forall_mem_cons.mpr ⟨hwell, htaken.wellFormed⟩
        · exact List.nodup_cons.mpr ⟨hfresh, htaken.ids⟩
        · exact List.forall_mem_cons.mpr
            ⟨hid, fun n hn hmem => hnew n hn (List.mem_cons_of_mem m.id hmem)⟩
      · rintro ⟨⟨hwell, hids, hresolved⟩, hnew⟩
        obtain ⟨hm, hms⟩ := List.forall_mem_cons.mp hwell
        obtain ⟨hfresh, hnodup⟩ := List.nodup_cons.mp hids
        obtain ⟨hid, hnew⟩ := List.forall_mem_cons.mp hnew
        obtain ⟨m', out', hmresolved, hrest, rfl⟩ := List.forall₂_cons_left_iff.mp hresolved
        refine ⟨m', out', rfl, declare_eq_ok.mpr ⟨hm, hid, hmresolved⟩,
          ih.mpr ⟨⟨hms, hnodup, hrest⟩, fun n hn hmem => ?_⟩⟩
        cases List.mem_cons.mp hmem with
        | inl hsame => exact hfresh (hsame ▸ List.mem_map_of_mem hn)
        | inr hseen => exact hnew n hn hseen

/-- An error of the loop is about the first monitor it does not take. -/
theorem declareAll_eq_error (h : declareAll resolve base ids monitors = .error e) :
    ∃ before m behind out, monitors = before ++ m :: behind ∧
      declareAll resolve base ids before = .ok out ∧
        (m.Breaks resolve base e ∨
          e = .duplicateId m.id ∧ (m.id ∈ ids ∨ m.id ∈ before.map HttpMonitor.id)) := by
  induction monitors generalizing ids with
  | nil => cases h
  | cons m monitors ih =>
      rw [declareAll] at h
      cases hm : declare resolve base ids m with
      | error e' =>
          rw [hm] at h
          cases h
          exact ⟨[], m, monitors, [], rfl, rfl,
            (declare_eq_error hm).imp_right fun hseen => ⟨hseen.1, .inl hseen.2⟩⟩
      | ok m' =>
          rw [hm] at h
          cases hrest : declareAll resolve base (m.id :: ids) monitors with
          | ok out' =>
              simp only [hrest] at h
              cases h
          | error e' =>
              simp only [hrest] at h
              cases h
              obtain ⟨before, n, behind, out', rfl, htaken, hbreaks⟩ := ih hrest
              refine ⟨m :: before, n, behind, m' :: out', rfl,
                declareAll_cons_eq_ok.mpr ⟨m', out', rfl, hm, htaken⟩,
                hbreaks.imp_right fun hseen => ⟨hseen.1, ?_⟩⟩
              rw [List.map_cons, List.mem_cons]
              rcases hseen.2 with hids | hbefore
              · exact (List.mem_cons.mp hids).elim (fun hsame => .inr (.inl hsame)) .inl
              · exact .inr (.inr hbefore)

theorem monitorDeclarations_eq_ok : monitorDeclarations resolve state = .ok (base, out) ↔
    base = state.eyesBaseUrl ∧ state.Declares resolve out := by
  unfold monitorDeclarations
  split
  · rename_i e hbase
    obtain ⟨url, hurl, hrefused⟩ := Option.map_eq_some_iff.mp hbase
    simp only [reduceCtorEq, false_iff]
    rintro ⟨-, hdeclares⟩
    obtain ⟨resolved, hresolved⟩ := hdeclares.base url hurl
    rw [hrefused] at hresolved
    cases hresolved
  · rename_i hbase
    have hbase : ∀ url ∈ state.eyesBaseUrl, ∃ resolved, resolve none url = .ok resolved := by
      intro url hurl
      cases hresolved : resolve none url with
      | ok resolved => exact ⟨resolved, rfl⟩
      | error e => exact absurd (Option.map_eq_some_iff.mpr ⟨url, hurl, hresolved⟩) (hbase e)
    split
    · rename_i hcount
      simp only [reduceCtorEq, false_iff]
      rintro ⟨-, hdeclares⟩
      exact absurd hdeclares.count (Nat.not_le_of_lt hcount)
    · rename_i hcount
      constructor
      · intro h
        cases hdeclared : declareAll resolve state.eyesBaseUrl [] state.eyesHttpMonitors with
        | error e =>
            rw [hdeclared] at h
            cases h
        | ok out' =>
            rw [hdeclared] at h
            cases h
            exact ⟨rfl, hbase, Nat.le_of_not_lt hcount, (declareAll_eq_ok.mp hdeclared).1⟩
      · rintro ⟨rfl, hdeclares⟩
        have hdeclared : declareAll resolve state.eyesBaseUrl [] state.eyesHttpMonitors = .ok out :=
          declareAll_eq_ok.mpr ⟨hdeclares.taken, fun _ _ => List.not_mem_nil⟩
        rw [hdeclared]
        rfl

theorem monitorDeclarations_eq_error (h : monitorDeclarations resolve state = .error e) :
    state.Breaks resolve e := by
  unfold monitorDeclarations at h
  split at h
  · rename_i hbase
    obtain ⟨url, hurl, hrefused⟩ := Option.map_eq_some_iff.mp hbase
    cases h
    exact .base hurl hrefused
  · split at h
    · rename_i hcount
      cases h
      exact .count hcount
    · cases hdeclared : declareAll resolve state.eyesBaseUrl [] state.eyesHttpMonitors with
      | ok out' =>
          rw [hdeclared] at h
          cases h
      | error e' =>
          rw [hdeclared] at h
          cases h
          obtain ⟨before, m, behind, out, hsplit, htaken, hbreaks⟩ :=
            declareAll_eq_error hdeclared
          refine .monitor hsplit (declareAll_eq_ok.mp htaken).1 (hbreaks.imp_right fun hseen => ?_)
          exact ⟨hseen.1, hseen.2.resolve_left List.not_mem_nil⟩

end

theorem listsCrons_iff {cronRegistry : Option CronRegistry} {crons : List CronEntry} :
    ListsCrons cronRegistry crons ↔ crons = (cronRegistry.map CronRegistry.entries).getD [] := by
  have hlists : ListsCrons cronRegistry ((cronRegistry.map CronRegistry.entries).getD []) := by
    cases cronRegistry with
    | none => exact ⟨List.Pairwise.nil, fun _ => by simp⟩
    | some r => exact ⟨r.entries_sorted, fun _ => by simp [CronRegistry.mem_entries]⟩
  constructor
  · intro h
    exact SortByKey.eq_of_mem_iff h.sorted hlists.sorted fun entry =>
      (h.mem entry).trans (hlists.mem entry).symm
  · rintro rfl
    exact hlists

variable (registry : JobRegistry P) (state : Declaration Rest) (appVersion gitSha : Option String)
  (cronRegistry : Option CronRegistry)

/-- The manifest that is built from a state has what the registries hold and the state
declares, and every error says what is wrong with it. -/
theorem buildBootManifestFromState_judged :
    (∀ manifest : AppManifest Rest,
      buildBootManifestFromState resolve registry state appVersion gitSha cronRegistry =
          .ok manifest ↔
        ∃ crons monitors, ListsCrons cronRegistry crons ∧ state.Declares resolve monitors ∧
          manifest = ⟨appVersion, gitSha, registry.jobNames, crons, state.eyesBaseUrl,
            some monitors⟩) ∧
      ∀ e, buildBootManifestFromState resolve registry state appVersion gitSha cronRegistry =
          .error e →
        state.Breaks resolve e := by
  unfold buildBootManifestFromState finishStateManifest buildBootManifest legacyManifest
  constructor
  · intro manifest
    simp only [listsCrons_iff, exists_and_left, exists_eq_left]
    cases hdeclared : monitorDeclarations resolve state with
    | error e =>
        simp only [reduceCtorEq, false_iff]
        rintro ⟨monitors, hdeclares, -⟩
        rw [monitorDeclarations_eq_ok.mpr ⟨rfl, hdeclares⟩] at hdeclared
        cases hdeclared
    | ok declared =>
        obtain ⟨base, monitors⟩ := declared
        obtain ⟨rfl, hdeclares⟩ := monitorDeclarations_eq_ok.mp hdeclared
        simp only [Option.or_none, Except.ok.injEq]
        constructor
        · rintro rfl
          exact ⟨monitors, hdeclares, rfl⟩
        · rintro ⟨monitors', hdeclares', rfl⟩
          rw [monitorDeclarations_eq_ok.mpr ⟨rfl, hdeclares'⟩] at hdeclared
          cases hdeclared
          rfl
  · intro e h
    cases hdeclared : monitorDeclarations resolve state with
    | ok declared =>
        rw [hdeclared] at h
        cases h
    | error e' =>
        rw [hdeclared] at h
        cases h
        exact monitorDeclarations_eq_error hdeclared

end Cja.Eyes
