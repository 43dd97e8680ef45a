import Mathlib.Order.Bounds.Basic

/-!
# Calendar schedules

A schedule names a wall time on every day or on one weekday of a time zone. Dates
are days since the epoch, instants and wall times are milliseconds.
-/

namespace Smalltalk.Missions

open Option

/-- Any map from instants to wall times, and the first instant of a wall time that has one. -/
structure Zone where
  wall : Int → Int
  instant : Int → Option Int
  least : ∀ time moment, instant time = some moment → IsLeast {t | wall t = time} moment
  gap : ∀ time, instant time = none → ∀ t, wall t ≠ time

def dayMs : Int := 86400000

def Zone.date (zone : Zone) (t : Int) : Int := zone.wall t / dayMs

/-- The weekday counts from Monday. -/
structure CalendarSchedule where
  atMinute : Nat
  weekday : Option (Fin 7)
  zone : Zone

inductive CatchUp where
  | all
  | latest
  | skip

def numDaysFromMonday (date : Int) : Int := (date + 3) % 7

/-- The first real minute from a wall time on, within so many minutes. -/
def firstInstant (zone : Zone) : Nat → Int → Option Int
  | 0, time => zone.instant time
  | minutes + 1, time => (zone.instant time).or (firstInstant zone minutes (time + 60000))

namespace CalendarSchedule

section
variable (calendar : CalendarSchedule)

def calendarInstant (date : Int) : Option Int :=
  firstInstant calendar.zone 2880 (date * dayMs + calendar.atMinute * 60000)

def calendarDateOnOrAfter (date : Int) : Int :=
  calendar.weekday.elim date fun weekday => date + (weekday + 7 - numDaysFromMonday date) % 7

def stride : Int := if calendar.weekday.isSome then 7 else 1

def currentDay (today : Int) : Int :=
  calendar.weekday.elim today fun weekday => today - (numDaysFromMonday today + 7 - weekday) % 7

def current (now currentAt : Int) : Int :=
  calendar.currentDay (calendar.zone.date now) - if currentAt ≤ now then 0 else calendar.stride

def caughtUp (catchUp : CatchUp) (maxCatchUp : Option Nat) (current next : Int) : Option Int :=
  if next ≤ current then match catchUp with
    | .latest => some current
    | .skip => some (current + calendar.stride)
    | .all => if maxCatchUp.getD 0 < (current - next) / calendar.stride + 1 then none else some next
  else some next

def calendarOccurrence (last : Option Int) (now : Int) (catchUp : CatchUp)
    (maxCatchUp : Option Nat) :
    Option (Int × Int) :=
  let today := calendar.zone.date now
  (calendar.calendarInstant (calendar.currentDay today)).bind fun currentAt =>
    (calendar.caughtUp catchUp maxCatchUp (calendar.current now currentAt)
      (calendar.calendarDateOnOrAfter (last.elim today (· + 1)))).bind fun next =>
        (calendar.calendarInstant next).map (next, ·)

def Scheduled (date : Int) : Prop := ∀ weekday ∈ calendar.weekday, numDaysFromMonday date = weekday

/-- The zone has not yet shown a later date than it shows now. -/
def DateNotBehind (now : Int) : Prop := ∀ t ≤ now, calendar.zone.date t ≤ calendar.zone.date now

end

variable {calendar : CalendarSchedule} {date other now currentAt moment : Int}

/-! ## Scheduled dates -/

theorem scheduled_onOrAfter (date : Int) :
    calendar.Scheduled (calendar.calendarDateOnOrAfter date) ∧
      date ≤ calendar.calendarDateOnOrAfter date ∧ ∀ other, calendar.Scheduled other →
      date ≤ other → calendar.calendarDateOnOrAfter date ≤ other := by
  unfold Scheduled calendarDateOnOrAfter numDaysFromMonday
  cases calendar.weekday with
  | none => simp
  | some w =>
    simp only [elim_some, mem_some_iff, forall_eq']
    refine ⟨by omega, by omega, fun other ho hl => by omega⟩

theorem scheduled_currentDay (t : Int) :
    calendar.Scheduled (calendar.currentDay t) ∧ t < calendar.currentDay t + calendar.stride := by
  unfold Scheduled currentDay stride numDaysFromMonday
  cases calendar.weekday with
  | none => exact ⟨by simp, Int.lt_succ t⟩
  | some w =>
    simp only [elim_some, mem_some_iff, forall_eq', isSome_some, if_true]
    omega

theorem Scheduled.add_strides (h : calendar.Scheduled date) (k : Int) :
    calendar.Scheduled (date + k * calendar.stride) := by
  intro w hw
  have h := h w hw
  rw [mem_def] at hw
  simp only [numDaysFromMonday, stride, hw, isSome_some, if_true] at h ⊢
  omega

theorem Scheduled.stride_le (h : calendar.Scheduled date) (ho : calendar.Scheduled other)
    (hl : date < other) :
    0 < calendar.stride ∧ date + calendar.stride ≤ other := by
  unfold stride
  cases hw : calendar.weekday with
  | none => simpa using Int.add_one_le_iff.mpr hl
  | some w =>
    have h := h w hw
    have ho := ho w hw
    simp only [numDaysFromMonday, isSome_some, if_true] at h ho ⊢
    omega

theorem scheduled_current (now currentAt : Int) :
    calendar.Scheduled (calendar.current now currentAt) := by
  have hd := (@scheduled_currentDay calendar (calendar.zone.date now)).1
  unfold current
  split
  · simpa using hd
  · simpa [Int.sub_eq_add_neg] using hd.add_strides (-1)

/-! ## Due dates -/

theorem le_wall_of_firstInstant {z : Zone} {minutes : Nat} {t : Int}
    (h : firstInstant z minutes t = some moment) : t ≤ z.wall moment := by
  induction minutes generalizing t with
  | zero => exact (z.least _ _ h).1.ge
  | succ minutes ih =>
    rcases or_eq_some_iff.mp h with h | ⟨-, h⟩
    · exact (z.least _ _ h).1.ge
    · exact (Int.le_add_of_nonneg_right (by decide)).trans (ih h)

theorem now_lt_of_current_lt (hz : calendar.DateNotBehind now)
    (hc : calendar.calendarInstant (calendar.currentDay (calendar.zone.date now)) = some currentAt)
    (ht : calendar.Scheduled date) (hl : calendar.current now currentAt < date)
    (ha : calendar.calendarInstant date = some moment) : now < moment := by
  by_contra hle
  obtain ⟨hd, hlt⟩ := @scheduled_currentDay calendar (calendar.zone.date now)
  have hw := le_wall_of_firstInstant ha
  have hdue := hz _ (not_lt.mp hle)
  simp only [Zone.date, dayMs] at hdue hlt hw
  -- the date is no later than the current day
  have hu : date ≤ calendar.currentDay (calendar.zone.date now) := by
    by_contra hf
    have := hd.stride_le ht (not_le.mp hf)
    simp only [Zone.date, dayMs] at this
    omega
  unfold current at hl
  split at hl
  · omega
  · rcases hu.eq_or_lt with rfl | hb
    · rw [ha, some.injEq] at hc
      omega
    · have := ht.stride_le hd hb
      omega

end CalendarSchedule

/-- A clock that goes back an hour at one minute past midnight. -/
def foldAfterMidnight : Zone where
  wall t := if t < 60000 then t else t - 3600000
  instant time := some (if time < 60000 then time else time + 3600000)
  least := by
    rintro time _ ⟨⟩
    constructor
    · simp only [Set.mem_ofPred_eq]
      split_ifs <;> omega
    · intro t ht
      simp only [Set.mem_ofPred_eq] at ht
      split_ifs at ht ⊢ <;> omega
  gap := by simp

end Smalltalk.Missions
