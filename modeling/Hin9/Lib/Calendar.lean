import Mathlib.Algebra.Order.BigOperators.Group.List
import Mathlib.Tactic.IntervalCases
import Mathlib.Tactic.Ring

/-!
# `Lib.Calendar` — days and dates of the Gregorian calendar

A date is a year, a month and a day that the month has; days are counted from the first of January 1970. `ofDayNumber` finds
the date of a day, and `dayNumber` is its inverse (`dayNumber_ofDayNumber`), before that day as well as behind it.

The months of a year are a list of lengths, and the day of the year is looked up in it (`locate`): a position in a row of
blocks is a block and a position in the block.
-/

namespace Hin9.Lib

/-! ## Blocks -/

/-- The block with the `d`-th position, and the position in the block. -/
def locate : List Nat → Nat → Nat × Nat
  | [], d => (0, d)
  | l :: ls, d => if d < l then (0, d) else ((locate ls (d - l)).1 + 1, (locate ls (d - l)).2)

/-- **A position is found**: what lies in front of its block, and where it lies in it. By induction on the blocks. -/
theorem locate_spec {ls : List Nat} {d : Nat} (h : d < ls.sum) :
    (locate ls d).1 < ls.length ∧ (locate ls d).2 < ls.getD (locate ls d).1 0 ∧
      (ls.take (locate ls d).1).sum + (locate ls d).2 = d := by
  induction ls generalizing d with
  | nil => exact absurd h (Nat.not_lt_zero d)
  | cons l ls ih =>
      unfold locate
      by_cases hl : d < l
      · rw [if_pos hl]
        exact ⟨Nat.succ_pos _, hl, by simp⟩
      · rw [if_neg hl]
        rw [List.sum_cons] at h
        obtain ⟨hin, hlt, hsum⟩ := ih (d := d - l) (by omega)
        refine ⟨Nat.succ_lt_succ hin, hlt, ?_⟩
        show ((l :: ls).take ((locate ls (d - l)).1 + 1)).sum + (locate ls (d - l)).2 = d
        rw [List.take_succ_cons, List.sum_cons]
        omega

namespace Calendar

/-! ## Years and months -/

def isLeap (y : Int) : Bool := y % 4 == 0 && (y % 100 != 0 || y % 400 == 0)

/-- The lengths of the months. -/
def monthLengths (y : Int) : List Nat := [31, if isLeap y then 29 else 28, 31, 30, 31, 30, 31, 31, 30, 31, 30, 31]

/-- The days from the first of January 1970 to the first of January of a year. -/
def daysBeforeYear (y : Int) : Int := 365 * (y - 1970) + ((y - 1) / 4 - (y - 1) / 100 + (y - 1) / 400) - 477

theorem monthLengths_sum (y : Int) : (monthLengths y).sum = if isLeap y then 366 else 365 := by
  unfold monthLengths
  cases isLeap y <;> rfl

/-- **A year has as many days as its months.** -/
theorem daysBeforeYear_succ (y : Int) : daysBeforeYear (y + 1) = daysBeforeYear y + (monthLengths y).sum := by
  rw [monthLengths_sum]
  unfold daysBeforeYear isLeap
  by_cases h : (y % 4 == 0 && (y % 100 != 0 || y % 400 == 0)) = true
  · rw [if_pos h]
    simp only [Bool.and_eq_true, Bool.or_eq_true, beq_iff_eq, bne_iff_ne] at h
    push_cast
    omega
  · rw [if_neg h]
    simp only [Bool.and_eq_true, Bool.or_eq_true, beq_iff_eq, bne_iff_ne] at h
    push_cast
    omega

/-- **A date**: the month is counted from 0, the day from 1. -/
structure Date where
  year : Int
  month : Fin 12
  day : Nat
  positive : 0 < day
  inMonth : day ≤ (monthLengths year).getD month 0

/-- No month has more than 31 days. -/
theorem Date.day_le (d : Date) : d.day ≤ 31 := by
  refine d.inMonth.trans ?_
  unfold monthLengths
  generalize d.month = m
  cases isLeap d.year <;> revert m <;> decide

/-- The day of a year, a month and a number of days in front of it, which may also lie in a later month. -/
def dayNumber (year : Int) (month : Nat) (day : Int) : Int :=
  daysBeforeYear year + ((monthLengths year).take month).sum + (day - 1)

/-! ## The date of a day -/

/-- The year of a day: four hundred years have `146097` days, and the estimate is off by one year at most. -/
def yearOf (n : Int) : Int :=
  let y := 1970 + n * 400 / 146097
  if n < daysBeforeYear y then y - 1 else if daysBeforeYear (y + 1) ≤ n then y + 1 else y

/-- What the estimate rests on: a year begins where the mean length of a year says, but for two days. -/
theorem daysBeforeYear_mean (y : Int) :
    146097 * (y - 1970) - 506 ≤ 400 * daysBeforeYear y ∧ 400 * daysBeforeYear y ≤ 146097 * (y - 1970) + 589 := by
  unfold daysBeforeYear
  constructor <;> omega

theorem yearOf_spec (n : Int) : daysBeforeYear (yearOf n) ≤ n ∧ n < daysBeforeYear (yearOf n + 1) := by
  obtain ⟨y, hy⟩ : ∃ y, y = 1970 + n * 400 / 146097 := ⟨_, rfl⟩
  have hbefore := daysBeforeYear_mean (y - 1)
  have hbehind := daysBeforeYear_mean (y + 1 + 1)
  unfold yearOf
  dsimp only
  rw [← hy]
  by_cases hlow : n < daysBeforeYear y
  · rw [if_pos hlow, sub_add_cancel]
    exact ⟨by omega, hlow⟩
  · rw [if_neg hlow]
    by_cases hhigh : daysBeforeYear (y + 1) ≤ n
    · rw [if_pos hhigh]
      exact ⟨hhigh, by omega⟩
    · rw [if_neg hhigh]
      exact ⟨not_lt.mp hlow, not_le.mp hhigh⟩

theorem daysBeforeYear_mono {y z : Int} (h : y ≤ z) : daysBeforeYear y ≤ daysBeforeYear z := by
  have hstep : ∀ w, daysBeforeYear w ≤ daysBeforeYear (w + 1) := by
    intro w
    rw [daysBeforeYear_succ]
    omega
  exact monotone_int_of_le_succ hstep h

/-- **The year of a day is no earlier than one that has begun.** -/
theorem le_yearOf_iff {y n : Int} : y ≤ yearOf n ↔ daysBeforeYear y ≤ n := by
  obtain ⟨hle, hlt⟩ := yearOf_spec n
  constructor
  · intro h
    exact (daysBeforeYear_mono h).trans hle
  · intro h
    by_contra hno
    have := daysBeforeYear_mono (show yearOf n + 1 ≤ y by omega)
    omega

/-- The place of a day in its year. -/
def placeOf (n : Int) : Nat × Nat := locate (monthLengths (yearOf n)) (n - daysBeforeYear (yearOf n)).toNat

theorem placeOf_spec (n : Int) :
    (placeOf n).1 < 12 ∧ (placeOf n).2 < (monthLengths (yearOf n)).getD (placeOf n).1 0 ∧
      (((monthLengths (yearOf n)).take (placeOf n).1).sum + (placeOf n).2 : Int) = n - daysBeforeYear (yearOf n) := by
  obtain ⟨hle, hlt⟩ := yearOf_spec n
  rw [daysBeforeYear_succ] at hlt
  have hplace : (n - daysBeforeYear (yearOf n)).toNat < (monthLengths (yearOf n)).sum := by omega
  obtain ⟨hin, hday, hsum⟩ := locate_spec hplace
  refine ⟨hin, hday, ?_⟩
  unfold placeOf
  omega

/-- **The date of a day.** -/
def ofDayNumber (n : Int) : Date where
  year := yearOf n
  month := ⟨(placeOf n).1, (placeOf_spec n).1⟩
  day := (placeOf n).2 + 1
  positive := Nat.succ_pos _
  inMonth := (placeOf_spec n).2.1

/-- **It has this number.** -/
theorem dayNumber_ofDayNumber (n : Int) :
    dayNumber (ofDayNumber n).year (ofDayNumber n).month (ofDayNumber n).day = n := by
  obtain ⟨-, -, hsum⟩ := placeOf_spec n
  unfold dayNumber
  show daysBeforeYear (yearOf n) + ((monthLengths (yearOf n)).take (placeOf n).1).sum + (((placeOf n).2 + 1 : Nat) - 1) = n
  rw [Nat.cast_succ]
  omega

example : (ofDayNumber 11016).year = 2000 ∧ (ofDayNumber 11016).month = 1 ∧ (ofDayNumber 11016).day = 29 := by decide

end Calendar
end Hin9.Lib
