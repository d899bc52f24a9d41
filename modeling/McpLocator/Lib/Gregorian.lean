import Mathlib.Tactic.IntervalCases
import Mathlib.Logic.Function.Iterate

namespace McpLocator.Gregorian

/-!
# The proleptic Gregorian calendar

* `Date` — a year, a month and a day that the month has; `Date.next` is the day after.
* `Date.DaysTo` — how many days lie between two dates, by counting days one after the other.
* `dayNumber` — days counted in one sum; `daysTo_iff` is that the sum counts what counting counts.
* `Date.number_lt_iff` — the earlier of two dates has the smaller year, month or day.
* `dayNumber_march` — the same sum for years that begin in March and so end with the leap day.
-/

/-! ### Dates -/

/-- Every fourth year, but of the centuries only every fourth. -/
def isLeap (y : Int) : Bool := decide (y % 4 = 0 ∧ (y % 100 ≠ 0 ∨ y % 400 = 0))

def daysInMonth (y : Int) (m : Nat) : Nat :=
  if m = 2 then if isLeap y then 29 else 28
  else if m = 4 ∨ m = 6 ∨ m = 9 ∨ m = 11 then 30 else 31

structure Date where
  year : Int
  month : Nat
  day : Nat
  month_pos : 1 ≤ month
  month_le : month ≤ 12
  day_pos : 1 ≤ day
  day_le : day ≤ daysInMonth year month
deriving DecidableEq

theorem daysInMonth_pos (y : Int) (m : Nat) : 1 ≤ daysInMonth y m := by
  unfold daysInMonth
  split
  · split <;> decide
  · split <;> decide

namespace Date

/-- The first of January. -/
def newYear (y : Int) : Date := ⟨y, 1, 1, Nat.le_refl 1, by decide, Nat.le_refl 1, daysInMonth_pos y 1⟩

/-- The day after. -/
def next (d : Date) : Date :=
  if h : d.day < daysInMonth d.year d.month then
    ⟨d.year, d.month, d.day + 1, d.month_pos, d.month_le, Nat.le_add_left 1 _, h⟩
  else if h : d.month < 12 then
    ⟨d.year, d.month + 1, 1, Nat.le_add_left 1 _, h, Nat.le_refl 1, daysInMonth_pos _ _⟩
  else newYear (d.year + 1)

/-- From `a` to `b` it is `z` days: `b` comes `z` days after `a`, or `-z` days before. -/
def DaysTo (a b : Date) (z : Int) : Prop := next^[z.toNat] a = next^[(-z).toNat] b

end Date

/-! ### Days counted in one sum -/

/-- The days of all years before `y`, from year 1 on. -/
def daysBeforeYear (y : Int) : Int := 365 * (y - 1) + (y - 1) / 4 - (y - 1) / 100 + (y - 1) / 400

/-- The days of the year before month `m`. -/
def daysBeforeMonth (y : Int) (m : Nat) : Nat :=
  ((List.range (m - 1)).map fun k => daysInMonth y (k + 1)).sum

def dayNumber (y : Int) (m d : Nat) : Int := daysBeforeYear y + daysBeforeMonth y m + d

def Date.number (d : Date) : Int := dayNumber d.year d.month d.day

theorem daysBeforeMonth_succ (y : Int) {m : Nat} (h : 1 ≤ m) :
    daysBeforeMonth y (m + 1) = daysBeforeMonth y m + daysInMonth y m := by
  obtain ⟨k, rfl⟩ : ∃ k, m = k + 1 := ⟨m - 1, by omega⟩
  simp [daysBeforeMonth, List.range_succ]

/-- A year has 365 days, and one more if it is a leap year. -/
theorem daysBeforeYear_succ (y : Int) :
    daysBeforeYear (y + 1) = daysBeforeYear y + 365 + if isLeap y then 1 else 0 := by
  unfold daysBeforeYear isLeap
  split
  · rename_i h
    rw [decide_eq_true_eq] at h
    omega
  · rename_i h
    rw [decide_eq_true_eq] at h
    omega

/-- The days of a year are those of its months. -/
theorem daysBeforeMonth_thirteen (y : Int) :
    (daysBeforeMonth y 13 : Int) = 365 + if isLeap y then 1 else 0 := by
  cases h : isLeap y <;> simp [daysBeforeMonth, List.range_succ, daysInMonth, h]

theorem daysBeforeMonth_mono (y : Int) {m n : Nat} (h : 1 ≤ m) (hmn : m ≤ n) :
    daysBeforeMonth y m ≤ daysBeforeMonth y n := by
  induction n, hmn using Nat.le_induction with
  | base => exact Nat.le_refl _
  | succ n hn ih =>
    rw [daysBeforeMonth_succ y (h.trans hn)]
    exact ih.trans (Nat.le_add_right _ _)

/-- **The day after has the next number.** -/
theorem Date.number_next (d : Date) : d.next.number = d.number + 1 := by
  unfold Date.next Date.number dayNumber
  split
  · -- within the month
    push_cast
    omega
  · rename_i hlast
    have hday : d.day = daysInMonth d.year d.month := by
      have := d.day_le
      omega
    split
    · -- the first of the next month
      have hmonth := daysBeforeMonth_succ d.year d.month_pos
      show daysBeforeYear d.year + (daysBeforeMonth d.year (d.month + 1) : Nat) + (1 : Nat) = _
      rw [hmonth, ← hday]
      push_cast
      omega
    · -- the first of the next year
      have hdecember : d.month = 12 := by
        have := d.month_le
        omega
      have hyear : daysBeforeMonth d.year 13 = daysBeforeMonth d.year 12 + daysInMonth d.year 12 :=
        daysBeforeMonth_succ d.year (Nat.le_add_left 1 11)
      have hdays := daysBeforeMonth_thirteen d.year
      have hsucc := daysBeforeYear_succ d.year
      rw [hdecember] at hday
      show daysBeforeYear (d.year + 1) + (daysBeforeMonth (d.year + 1) 1 : Nat) + (1 : Nat) = _
      have hzero : daysBeforeMonth (d.year + 1) 1 = 0 := rfl
      rw [hzero, hdecember]
      omega

theorem daysBeforeYear_mono {y z : Int} (h : y ≤ z) : daysBeforeYear y ≤ daysBeforeYear z := by
  unfold daysBeforeYear
  omega

/-! ### The order of dates -/

/-- The year, then the month, then the day. -/
def Date.Earlier (a b : Date) : Prop :=
  a.year < b.year ∨ a.year = b.year ∧ (a.month < b.month ∨ a.month = b.month ∧ a.day < b.day)

theorem Date.number_le (d : Date) : d.number ≤ daysBeforeYear (d.year + 1) := by
  have hmonth := daysBeforeMonth_succ d.year d.month_pos
  have hyear : daysBeforeMonth d.year (d.month + 1) ≤ daysBeforeMonth d.year 13 :=
    daysBeforeMonth_mono d.year (Nat.le_add_left 1 _) (Nat.succ_le_succ d.month_le)
  have hdays := daysBeforeMonth_thirteen d.year
  have hsucc := daysBeforeYear_succ d.year
  have := d.day_le
  unfold Date.number dayNumber
  omega

theorem Date.lt_number (d : Date) : daysBeforeYear d.year < d.number := by
  have := d.day_pos
  unfold Date.number dayNumber
  omega

theorem Date.number_lt_of_earlier {a b : Date} (h : a.Earlier b) : a.number < b.number := by
  rcases h with hyear | ⟨hyear, hmonth | ⟨hmonth, hday⟩⟩
  · exact (a.number_le.trans (daysBeforeYear_mono hyear)).trans_lt b.lt_number
  · have hle := daysBeforeMonth_mono a.year (Nat.le_add_left 1 _) hmonth
    have hsucc := daysBeforeMonth_succ a.year a.month_pos
    have := a.day_le
    have := b.day_pos
    unfold Date.number dayNumber
    rw [← hyear]
    omega
  · unfold Date.number dayNumber
    rw [← hyear, ← hmonth]
    omega

theorem Date.earlier_trichotomy (a b : Date) : a.Earlier b ∨ a = b ∨ b.Earlier a := by
  obtain ⟨y, m, d, _, _, _, _⟩ := a
  obtain ⟨y', m', d', _, _, _, _⟩ := b
  simp only [Date.Earlier, Date.mk.injEq]
  omega

/-- **The earlier date has the smaller number.** -/
theorem Date.number_lt_iff (a b : Date) : a.number < b.number ↔ a.Earlier b := by
  refine ⟨fun h => ?_, Date.number_lt_of_earlier⟩
  rcases a.earlier_trichotomy b with hab | rfl | hba
  · exact hab
  · exact absurd h (lt_irrefl _)
  · exact absurd (Date.number_lt_of_earlier hba) h.not_gt

theorem Date.number_injective : Function.Injective Date.number := by
  intro a b h
  rcases a.earlier_trichotomy b with hab | rfl | hba
  · exact absurd h (Date.number_lt_of_earlier hab).ne
  · rfl
  · exact absurd h (Date.number_lt_of_earlier hba).ne'

/-! ### Counting -/

theorem Date.number_iterate_next (d : Date) (n : Nat) : (next^[n] d).number = d.number + n := by
  induction n with
  | zero => simp
  | succ n ih =>
    rw [Function.iterate_succ_apply', Date.number_next, ih]
    push_cast
    omega

/-- **The sum counts the days.** -/
theorem Date.daysTo_iff (a b : Date) (z : Int) : a.DaysTo b z ↔ b.number = a.number + z := by
  rw [DaysTo, ← number_injective.eq_iff, number_iterate_next, number_iterate_next]
  omega

/-! ### Years that begin in March -/

/-- Month `k` of such a year, counted from 0, begins `(153 * k + 2) / 5` days after the first of
    March. -/
theorem dayNumber_march (y : Int) {k : Nat} (hk : k < 12) (d : Nat) :
    dayNumber (if k < 10 then y else y + 1) (if k < 10 then k + 3 else k - 9) d =
      365 * y + y / 4 - y / 100 + y / 400 + ((153 * k + 2) / 5 : Nat) + d - 306 := by
  have hyear : daysBeforeYear (y + 1) = 365 * y + y / 4 - y / 100 + y / 400 := by
    simp [daysBeforeYear]
  have hsucc := daysBeforeYear_succ y
  -- January and February belong to the next year, and the leap day comes before every other month
  cases hleap : isLeap y <;> rw [hleap] at hsucc <;> interval_cases k <;>
    simp [dayNumber, daysBeforeMonth, List.range_succ, daysInMonth, hleap] at hsucc ⊢ <;> omega

end McpLocator.Gregorian
