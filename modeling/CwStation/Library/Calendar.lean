import Mathlib.Data.Nat.Find
import Mathlib.Order.Monotone.Basic
import Mathlib.Logic.Function.Iterate
import Mathlib.Tactic.Ring

/-! # The months of the Gregorian calendar

Months and days are counted from the first of January of the year 1, with the leap years of today. -/

namespace CwStation.Calendar

def leap (year : ℕ) : Bool := 4 ∣ year && (!(100 ∣ year) || 400 ∣ year)

/-- The days of a month. -/
def monthDays (month : ℕ) : ℕ :=
  match month % 12 with
  | 3 | 5 | 8 | 10 => 30
  | 1 => if leap (month / 12 + 1) then 29 else 28
  | _ => 31

/-- The days before a month. -/
def monthStart : ℕ → ℕ
  | 0 => 0
  | month + 1 => monthStart month + monthDays month

/-- The month of a day; none is shorter than 28 days. -/
def monthOf (day : ℕ) : ℕ := Nat.findGreatest (fun month => monthStart month ≤ day) (day / 28)

/-- The same day so many months later, or the last one of that month. -/
def addMonths (n day : ℕ) : ℕ :=
  let month := monthOf day
  monthStart (month + n) + min (day - monthStart month) (monthDays (month + n) - 1)

theorem le_monthDays (month : ℕ) : 28 ≤ monthDays month := by
  unfold monthDays
  split
  all_goals try omega
  split <;> omega

theorem monthDays_le (month : ℕ) : monthDays month ≤ 31 := by
  unfold monthDays
  split
  all_goals try omega
  split <;> omega

theorem monthStart_le (month : ℕ) : monthStart month ≤ 31 * month := by
  induction month with
  | zero => exact Nat.le_refl 0
  | succ month ih =>
    have := monthDays_le month
    simp only [monthStart]
    omega

theorem le_monthStart (month : ℕ) : 28 * month ≤ monthStart month := by
  induction month with
  | zero => exact Nat.le_refl 0
  | succ month ih =>
    have := le_monthDays month
    simp only [monthStart]
    omega

theorem monthStart_strictMono : StrictMono monthStart := by
  apply strictMono_nat_of_lt_succ
  intro month
  have := le_monthDays month
  simp only [monthStart]
  omega

theorem monthOf_spec (day : ℕ) :
    monthStart (monthOf day) ≤ day ∧ day < monthStart (monthOf day + 1) := by
  have hstart : monthStart (monthOf day) ≤ day :=
    Nat.findGreatest_spec (P := fun month => monthStart month ≤ day) (Nat.zero_le _) (Nat.zero_le day)
  refine ⟨hstart, ?_⟩
  by_contra hlater
  have hnext : monthStart (monthOf day + 1) ≤ day := Nat.le_of_not_lt hlater
  have hbound : monthOf day + 1 ≤ day / 28 := by
    have := le_monthStart (monthOf day + 1)
    omega
  have := Nat.le_findGreatest (P := fun month => monthStart month ≤ day) hbound hnext
  simp only [monthOf] at this
  omega

/-- A day is in one month only. -/
theorem monthOf_eq {month day : ℕ} (hle : monthStart month ≤ day)
    (hlt : day < monthStart (month + 1)) : monthOf day = month := by
  obtain ⟨hle', hlt'⟩ := monthOf_spec day
  have h₁ := monthStart_strictMono.lt_iff_lt.mp (hle.trans_lt hlt')
  have h₂ := monthStart_strictMono.lt_iff_lt.mp (hle'.trans_lt hlt)
  omega

theorem addMonths_monthStart (n month : ℕ) :
    addMonths n (monthStart month) = monthStart (month + n) := by
  have hmonth : monthOf (monthStart month) = month :=
    monthOf_eq (Nat.le_refl _) (monthStart_strictMono (Nat.lt_succ_self month))
  simp [addMonths, hmonth]

theorem lt_addMonths {n : ℕ} (hn : 0 < n) (day : ℕ) : day < addMonths n day := by
  have hnext : monthStart (monthOf day + 1) ≤ monthStart (monthOf day + n) :=
    monthStart_strictMono.monotone (by omega)
  exact ((monthOf_spec day).2.trans_le hnext).trans_le (Nat.le_add_right _ _)

/-! ## Months added again and again

Each addition cuts the day of the month down to what its month has, and the next one goes on from
there: the day is the least that any month on the way allows. -/

/-- The day of the month, from zero. -/
def dayIn (day : ℕ) : ℕ := day - monthStart (monthOf day)

theorem monthStart_add_dayIn (day : ℕ) : monthStart (monthOf day) + dayIn day = day :=
  Nat.add_sub_cancel' (monthOf_spec day).1

theorem dayIn_lt (day : ℕ) : dayIn day < monthDays (monthOf day) := by
  have hlt := (monthOf_spec day).2
  have hsum := monthStart_add_dayIn day
  simp only [monthStart] at hlt
  omega

theorem addMonths_eq (n day : ℕ) : addMonths n day =
    monthStart (monthOf day + n) + min (dayIn day) (monthDays (monthOf day + n) - 1) := rfl

theorem monthOf_add {month i : ℕ} (hi : i < monthDays month) : monthOf (monthStart month + i) = month :=
  monthOf_eq (Nat.le_add_right _ _) (Nat.add_lt_add_left hi _)

theorem min_lt_monthDays (i month : ℕ) : min i (monthDays month - 1) < monthDays month := by
  have := le_monthDays month
  omega

@[simp] theorem monthOf_addMonths (n day : ℕ) : monthOf (addMonths n day) = monthOf day + n := by
  rw [addMonths_eq, monthOf_add (min_lt_monthDays _ _)]

@[simp] theorem dayIn_addMonths (n day : ℕ) :
    dayIn (addMonths n day) = min (dayIn day) (monthDays (monthOf day + n) - 1) := by
  rw [dayIn, monthOf_addMonths, addMonths_eq, Nat.add_sub_cancel_left]

/-- A day is given by its month and its place there. -/
theorem day_ext {day day' : ℕ} (hmonth : monthOf day = monthOf day') (hday : dayIn day = dayIn day') :
    day = day' := by
  rw [← monthStart_add_dayIn day, ← monthStart_add_dayIn day', hmonth, hday]

theorem addMonths_strictMono (day : ℕ) : StrictMono fun n => addMonths n day := by
  intro n n' h
  have hmonths : monthStart (monthOf day + n + 1) ≤ monthStart (monthOf day + n') :=
    monthStart_strictMono.monotone (by omega)
  have hlt := min_lt_monthDays (dayIn day) (monthDays (monthOf day + n))
  have hlt' := min_lt_monthDays (dayIn day) (monthOf day + n)
  simp only [addMonths_eq, monthStart] at hmonths ⊢
  omega

variable {n : ℕ} (k day : ℕ)

@[simp] theorem monthOf_iterate : monthOf ((addMonths n)^[k] day) = monthOf day + k * n := by
  induction k with
  | zero => simp
  | succ k ih =>
    rw [Function.iterate_succ_apply', monthOf_addMonths, ih]
    ring

/-- The day of the month is what all months on the way leave of it. -/
theorem le_dayIn_iterate_iff {i : ℕ} : i ≤ dayIn ((addMonths n)^[k] day) ↔
    i ≤ dayIn day ∧ ∀ j ≤ k, i < monthDays (monthOf day + j * n) := by
  induction k with
  | zero =>
    have hlt := dayIn_lt day
    simp only [Function.iterate_zero, id_eq, Nat.le_zero, forall_eq, Nat.zero_mul, Nat.add_zero]
    omega
  | succ k ih =>
    have hpos := le_monthDays (monthOf day + (k + 1) * n)
    have hmonth : monthOf ((addMonths n)^[k] day) + n = monthOf day + (k + 1) * n := by
      rw [monthOf_iterate]
      ring
    rw [Function.iterate_succ_apply', dayIn_addMonths, hmonth, le_min_iff, ih]
    constructor
    · rintro ⟨⟨hday, hbefore⟩, hlast⟩
      refine ⟨hday, fun j hj => ?_⟩
      rcases Nat.le_add_one_iff.mp hj with hj | rfl
      · exact hbefore j hj
      · omega
    · rintro ⟨hday, hall⟩
      have := hall (k + 1) (Nat.le_refl _)
      exact ⟨⟨hday, fun j hj => hall j (Nat.le_succ_of_le hj)⟩, by omega⟩

theorem iterate_le_addMonths : (addMonths n)^[k] day ≤ addMonths (k * n) day := by
  have hle := (le_dayIn_iterate_iff k day (n := n)).mp (Nat.le_refl _)
  have hlast := hle.2 k (Nat.le_refl _)
  rw [← monthStart_add_dayIn ((addMonths n)^[k] day), monthOf_iterate, addMonths_eq]
  omega

/-- Additions one by one come to one addition just where no month on the way is too short for the
day that the one addition gives. -/
theorem iterate_eq_addMonths_iff : (addMonths n)^[k] day = addMonths (k * n) day ↔
    ∀ j ≤ k, min (dayIn day) (monthDays (monthOf day + k * n) - 1) <
      monthDays (monthOf day + j * n) := by
  have hdirect := dayIn_addMonths (k * n) day
  constructor
  · intro h
    have hle : min (dayIn day) (monthDays (monthOf day + k * n) - 1) ≤
        dayIn ((addMonths n)^[k] day) := by rw [h, hdirect]
    exact ((le_dayIn_iterate_iff k day).mp hle).2
  · intro h
    have hge := (le_dayIn_iterate_iff k day).mpr ⟨min_le_left _ _, h⟩
    refine day_ext (by simp) (le_antisymm ?_ (hdirect.le.trans hge))
    have hle := (le_dayIn_iterate_iff k day (n := n)).mp (Nat.le_refl _)
    have hlast := hle.2 k (Nat.le_refl _)
    rw [hdirect]
    omega

example : addMonths 1 30 = 58 := by decide

end CwStation.Calendar
