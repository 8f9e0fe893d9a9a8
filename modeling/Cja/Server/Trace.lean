import Cja.Lib.Judged
import Cja.Lib.StepRun
import Cja.Lib.TaskLocal

/-!
# The user of a request

`RequestUserLayer` scopes a task-local slot around the future of every response;
`record_request_user` writes it and the event that the request has finished takes it.
Requests are polled on any thread, inside each other and in any order, or dropped before
they finish, and code of spawned tasks runs in between. The key of the task-local is a
parameter.
-/
namespace Cja.Server

open StepRun

abbrev ThreadId := ℕ
abbrev RequestId := ℕ

structure RequestUserIdentity where
  userId : String
  authType : String
deriving Repr, DecidableEq

/-- `Slot`, whose default is empty. -/
abbrev Slot := Option RequestUserIdentity

abbrev RequestUserKey := LocalKey ThreadId RequestId Slot

/-- The slots, and the requests whose futures each thread polls or drops, innermost
first. -/
structure RequestUsers (K : RequestUserKey) where
  slots : K.State
  inside : ThreadId → List RequestId

/-- What is observed, with the request whose future the thread is innermost in. -/
inductive RequestEvent
  | recorded (by_ : Option RequestId) (identity : RequestUserIdentity) (ok : Bool)
  /-- `finished processing request`, with the user it carries. -/
  | finished (by_ : Option RequestId) (user : Option RequestUserIdentity)
deriving Repr, DecidableEq

inductive RequestAction
  | poll (t : ThreadId) (r : RequestId)
  /-- The future is dropped before it finished, and what it holds with it. -/
  | drop (t : ThreadId) (r : RequestId)
  /-- The innermost poll or drop of the thread is over, also by a panic. -/
  | ends (t : ThreadId)
  | record (t : ThreadId) (identity : RequestUserIdentity)
  | respond (t : ThreadId)

namespace RequestUsers

variable {K : RequestUserKey}

/-- Every future of `RequestUserService::call` starts with its own empty slot. -/
def init : RequestUsers K := ⟨K.scope fun _ => none, fun _ => []⟩

def current (s : RequestUsers K) (t : ThreadId) : Option RequestId := (s.inside t).head?

/-- `record_request_user`, and whether it found a slot. -/
def recordRequestUser (s : RequestUsers K) (t : ThreadId) (identity : RequestUserIdentity) :
    RequestUsers K × Bool :=
  ({ s with slots := K.modify s.slots t fun _ => some identity }, (K.get s.slots t).isSome)

/-- `on_response` takes the identity out of the slot, where there is one. -/
def onResponse (s : RequestUsers K) (t : ThreadId) : RequestUsers K × Option RequestUserIdentity :=
  ({ s with slots := K.modify s.slots t fun _ => none }, (K.get s.slots t).join)

def enter (s : RequestUsers K) (t : ThreadId) (r : RequestId) : Option (RequestUsers K) :=
  (K.enter s.slots t r).map fun slots =>
    ⟨slots, Function.update s.inside t (r :: s.inside t)⟩

def leave (s : RequestUsers K) (t : ThreadId) : Option (RequestUsers K) :=
  (K.leave s.slots t).map fun slots => ⟨slots, Function.update s.inside t (s.inside t).tail⟩

def step (s : RequestUsers K) : RequestAction → Option (RequestUsers K × List RequestEvent)
  | .poll t r | .drop t r => (s.enter t r).map fun s' => (s', [])
  | .ends t => (s.leave t).map fun s' => (s', [])
  | .record t identity =>
      let p := s.recordRequestUser t identity
      some (p.1, [.recorded (s.current t) identity p.2])
  | .respond t =>
      let p := s.onResponse t
      some (p.1, [.finished (s.current t) p.2])

end RequestUsers

abbrev TracedRun (K : RequestUserKey) : List RequestEvent → RequestUsers K → Prop :=
  Run RequestUsers.step Free .init

/-! ## Whose user it is -/

/-- What an event leaves in the slot of request `r`. -/
def RequestEvent.leaves (r : RequestId) (user : Option RequestUserIdentity) :
    RequestEvent → Option RequestUserIdentity
  | recorded by_ identity _ => if by_ = some r then some identity else user
  | finished by_ _ => if by_ = some r then none else user

/-- What request `r` recorded last, unless an event has taken it. -/
def userOf (r : RequestId) (log : List RequestEvent) : Option RequestUserIdentity :=
  log.foldl (RequestEvent.leaves r) none

theorem userOf_append (r : RequestId) (log es : List RequestEvent) :
    userOf r (log ++ es) = es.foldl (RequestEvent.leaves r) (userOf r log) :=
  List.foldl_append

/-- What an event may say after `log`. -/
def RequestEvent.Attributed (log : List RequestEvent) : RequestEvent → Prop
  | recorded by_ _ ok => ok = by_.isSome
  | finished by_ user => user = by_.bind fun r => userOf r log

section Attribution

variable {K : RequestUserKey}
  {Owns : (RequestId → Slot) → (ThreadId → List RequestId) → K.State → Prop}
  {log : List RequestEvent} {s s' : RequestUsers K} {t : ThreadId}

/-- The slots are what the requests themselves recorded, and every event says so. -/
structure AttributedInv (Owns : (RequestId → Slot) → (ThreadId → List RequestId) → K.State → Prop)
    (log : List RequestEvent) (s : RequestUsers K) : Prop where
  owns : Owns (fun r => userOf r log) s.inside s.slots
  events : Judged RequestEvent.Attributed log

/-- An event that the current state explains may be added. -/
theorem AttributedInv.snoc (hi : AttributedInv Owns log s) {e : RequestEvent}
    (howns : Owns (fun r => e.leaves r (userOf r log)) s'.inside s'.slots)
    (he : e.Attributed log) : AttributedInv Owns (log ++ [e]) s' where
  owns := by simpa only [userOf_append, List.foldl_cons, List.foldl_nil] using howns
  events := hi.events.snoc he

/-- Changing the slot of a thread changes that of its innermost request and no other. -/
theorem owns_modify (hK : K.Lawful Owns) {value : RequestId → Slot}
    (h : Owns value s.inside s.slots) (t : ThreadId) (g : Slot → Slot) :
    Owns (fun r => if s.current t = some r then g (value r) else value r) s.inside
      (K.modify s.slots t g) := by
  unfold RequestUsers.current
  cases hinside : s.inside t with
  | nil => simpa using hK.modify_outside h hinside g
  | cons f fs =>
      have hvalue : Function.update value f (g (value f)) =
          fun r => if (f :: fs).head? = some r then g (value r) else value r := by
        funext r
        rw [List.head?_cons]
        by_cases hr : r = f
        · subst hr
          simp
        · rw [Function.update_of_ne hr, if_neg fun he => hr (Option.some.inj he).symm]
      rw [← hvalue]
      exact hK.modify h hinside g

theorem AttributedInv.enter (hK : K.Lawful Owns) (hi : AttributedInv Owns log s) {r : RequestId}
    (he : s.enter t r = some s') : AttributedInv Owns log s' := by
  unfold RequestUsers.enter at he
  rw [Option.map_eq_some_iff] at he
  obtain ⟨slots, henter, rfl⟩ := he
  exact ⟨hK.enter hi.owns henter, hi.events⟩

theorem AttributedInv.leave (hK : K.Lawful Owns) (hi : AttributedInv Owns log s)
    (hl : s.leave t = some s') : AttributedInv Owns log s' := by
  unfold RequestUsers.leave at hl
  rw [Option.map_eq_some_iff] at hl
  obtain ⟨slots, hleave, rfl⟩ := hl
  exact ⟨hK.leave hi.owns hleave, hi.events⟩

theorem AttributedInv.step (hK : K.Lawful Owns) {a : RequestAction} {es : List RequestEvent}
    (hi : AttributedInv Owns log s) (hs : s.step a = some (s', es)) :
    AttributedInv Owns (log ++ es) s' := by
  cases a with
  | poll t r | drop t r =>
      simp only [RequestUsers.step, Option.map_eq_some_iff, Prod.mk.injEq] at hs
      obtain ⟨s₁, henter, rfl, rfl⟩ := hs
      rw [List.append_nil]
      exact hi.enter hK henter
  | ends t =>
      simp only [RequestUsers.step, Option.map_eq_some_iff, Prod.mk.injEq] at hs
      obtain ⟨s₁, hleave, rfl, rfl⟩ := hs
      rw [List.append_nil]
      exact hi.leave hK hleave
  | record t identity =>
      cases hs
      refine hi.snoc (owns_modify hK hi.owns t fun _ => some identity) ?_
      simp [RequestEvent.Attributed, RequestUsers.recordRequestUser, RequestUsers.current,
        hK.get hi.owns t]
  | respond t =>
      cases hs
      refine hi.snoc (owns_modify hK hi.owns t fun _ => none) ?_
      simp only [RequestEvent.Attributed, RequestUsers.onResponse, hK.get hi.owns t]
      cases hcurrent : s.current t with
      | none => rw [RequestUsers.current] at hcurrent; rw [hcurrent]; rfl
      | some r => rw [RequestUsers.current] at hcurrent; rw [hcurrent]; rfl

/-- However requests are polled and dropped, the event that a request has finished carries
what that request's own future recorded last and no event took before, and no request's
where none is run; a record says `true` exactly where a request is polled or dropped. -/
theorem request_user_attributed (hK : K.Lawful Owns) (h : TracedRun K log s) :
    Judged RequestEvent.Attributed log := by
  have hi : AttributedInv Owns log s := by
    refine h.invariant (I := AttributedInv Owns) ⟨hK.scope _, .nil⟩ ?_
    intro log s a s' es _ hi _ hs
    exact hi.step hK hs
  exact hi.events

end Attribution

def sessionUser : RequestUserIdentity := ⟨"user-1", "session"⟩

def tokenUser : RequestUserIdentity := ⟨"user-2", "token"⟩

/-- Request 5 moves from thread 1 to thread 2 while thread 1 polls request 6, which is
dropped after that and records once more, and code of no request runs on thread 2. -/
def movingRequest : List RequestAction :=
  [.poll 1 5, .record 1 sessionUser, .ends 1, .record 2 tokenUser, .poll 1 6, .poll 2 5,
    .record 1 tokenUser, .respond 2, .ends 2, .ends 1, .drop 2 6, .record 2 sessionUser, .ends 2]

def movingLog : List RequestEvent :=
  [.recorded (some 5) sessionUser true, .recorded none tokenUser false,
    .recorded (some 6) tokenUser true, .finished (some 5) (some sessionUser),
    .recorded (some 6) sessionUser true]

theorem request_user_attributed_moving :
    ∃ s, TracedRun (TaskLocal.key ThreadId RequestId Slot) movingLog s ∧
      RequestEvent.Attributed (movingLog.take 3) (.finished (some 5) (some sessionUser)) := by
  obtain ⟨log, s, hrun, hp⟩ := exists_free_run
    (RequestUsers.step (K := TaskLocal.key ThreadId RequestId Slot)) .init movingRequest
    (fun log _ => log == movingLog) (by decide)
  obtain rfl : log = movingLog := beq_iff_eq.mp hp
  have hjudged := request_user_attributed (TaskLocal.key_lawful ThreadId RequestId Slot) hrun
  exact ⟨s, hrun, hjudged (movingLog.take 3) _ (movingLog.drop 4) rfl⟩

end Cja.Server
