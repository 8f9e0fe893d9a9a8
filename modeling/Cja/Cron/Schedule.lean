import Cja.Jobs.Shutdown

/-!
# Cron schedules

Instants are nanoseconds, positive or negative, since a process clock may run
behind the stored time. The crate behind cron expressions is a parameter: all
the scheduler asks of it is the first slot after an instant.
-/
namespace Cja.Cron

structure IntervalSchedule where
  duration : ℕ

def IntervalSchedule.shouldRun (s : IntervalSchedule) (lastRun : Option ℤ) (now : ℤ) : Bool :=
  match lastRun with
  | some last =>
      let elapsed := now - last
      if elapsed < 0 then false else s.duration < elapsed
  | none => true

/-- `after tz t` is the head of `Schedule::after(t)` in the zone `tz`. -/
structure CronSchedule (Tz : Type) where
  after : Tz → ℤ → Option ℤ

def CronSchedule.shouldRun {Tz : Type} (s : CronSchedule Tz) (lastRun : Option ℤ)
    (now startedAt : ℤ) (tz : Tz) : Bool :=
  match s.after tz (lastRun.getD startedAt) with
  | some nextRun => nextRun ≤ now
  | none => false

inductive Schedule (Tz : Type)
  | interval (s : IntervalSchedule)
  | cron (s : CronSchedule Tz)

namespace Schedule

variable {Tz : Type}

def shouldRun (schedule : Schedule Tz) (lastRun : Option ℤ) (now startedAt : ℤ) (tz : Tz) :
    Bool :=
  match schedule with
  | interval s => s.shouldRun lastRun now
  | cron s => s.shouldRun lastRun now startedAt tz

/-- The slots of a cron expression are what the crate returns. -/
def IsSlot (s : CronSchedule Tz) (tz : Tz) (slot : ℤ) : Prop := ∃ t, s.after tz t = some slot

/-- The crate returns slots strictly after the instant it is given. -/
def Forward : Schedule Tz → Prop
  | interval _ => True
  | cron s => ∀ tz t slot, s.after tz t = some slot → t < slot

/-- Two fires that do not share an interval or a slot. -/
def Apart (tz : Tz) (t₁ t₂ : ℤ) : Schedule Tz → Prop
  | interval s => s.duration < t₂ - t₁
  | cron s => ∃ slot, IsSlot s tz slot ∧ t₁ < slot ∧ slot ≤ t₂

theorem apart_of_shouldRun {schedule : Schedule Tz} {tz : Tz} {t₁ t₂ startedAt : ℤ}
    (hf : schedule.Forward) (h : schedule.shouldRun (some t₁) t₂ startedAt tz = true) :
    schedule.Apart tz t₁ t₂ := by
  cases schedule with
  | interval s =>
      simp only [shouldRun, IntervalSchedule.shouldRun] at h
      split_ifs at h
      simpa [Apart] using h
  | cron s =>
      simp only [shouldRun, CronSchedule.shouldRun, Option.getD_some] at h
      cases hs : s.after tz t₁ with
      | none => simp [hs] at h
      | some slot =>
          refine ⟨slot, ⟨t₁, hs⟩, hf tz t₁ slot hs, ?_⟩
          simpa [hs] using h

theorem lt_of_apart {schedule : Schedule Tz} {tz : Tz} {t₁ t₂ : ℤ}
    (h : schedule.Apart tz t₁ t₂) : t₁ < t₂ := by
  cases schedule with
  | interval s =>
      have hpos : (0 : ℤ) ≤ s.duration := Int.natCast_nonneg _
      simp only [Apart] at h
      omega
  | cron s =>
      obtain ⟨slot, -, h₁, h₂⟩ := h
      omega

end Schedule

end Cja.Cron
