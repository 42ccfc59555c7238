import Mathlib.Algebra.BigOperators.Intervals
import Mathlib.Tactic.IntervalCases
import Mathlib.Tactic.NormNum

/-! # The Gregorian calendar

Days are counted from the first of January of the year 0 of the proleptic Gregorian calendar, by
adding up the years and the months before a date.  `daysBeforeYear_eq` is the closed form. -/

namespace QeReport

namespace Calendar

def isLeapYear (y : ℕ) : Bool := y % 4 == 0 && (y % 100 != 0 || y % 400 == 0)

def yearLength (y : ℕ) : ℕ := if isLeapYear y then 366 else 365

/-- The days of a month, the months counted from one. -/
def monthLength (y m : ℕ) : ℕ :=
  if m = 2 then (if isLeapYear y then 29 else 28)
  else if m = 4 ∨ m = 6 ∨ m = 9 ∨ m = 11 then 30 else 31

def daysBeforeYear (y : ℕ) : ℕ := ∑ k ∈ Finset.range y, yearLength k

def daysBeforeMonth (y m : ℕ) : ℕ := ∑ k ∈ Finset.Ico 1 m, monthLength y k

/-- The number of a day. -/
def dayNumber (y m d : ℕ) : ℤ := daysBeforeYear y + daysBeforeMonth y m + d - 1

theorem isLeapYear_iff (y : ℕ) :
    isLeapYear y = true ↔ y % 4 = 0 ∧ (y % 100 ≠ 0 ∨ y % 400 = 0) := by
  simp [isLeapYear]

/-- A year that is a multiple of `n + 1` is counted in the year after it. -/
theorem div_succ_year (y n : ℕ) : ((y + 1 : ℕ) + n) / (n + 1) =
    (y + n) / (n + 1) + (if y % (n + 1) = 0 then 1 else 0) := by
  have h : (y + n + 1) / (n + 1) = (y + n) / (n + 1) + if n + 1 ∣ y + n + 1 then 1 else 0 :=
    Nat.succ_div
  have hdvd : n + 1 ∣ y + n + 1 ↔ y % (n + 1) = 0 := by
    rw [Nat.add_assoc, Nat.dvd_add_left (dvd_refl _), Nat.dvd_iff_mod_eq_zero]
  simp only [hdvd] at h
  rw [← h]
  congr 1
  omega

theorem yearLength_eq (y : ℕ) : (yearLength y : ℤ) = 365 + (if y % 4 = 0 then 1 else 0) -
    (if y % 100 = 0 then 1 else 0) + (if y % 400 = 0 then 1 else 0) := by
  have hleap := isLeapYear_iff y
  rw [yearLength]
  cases h : isLeapYear y with
  | true =>
      have hleap := hleap.mp h
      simp only [if_true]
      split_ifs <;> omega
  | false =>
      rw [h] at hleap
      simp only [Bool.false_eq_true, false_iff] at hleap
      simp only [Bool.false_eq_true, if_false]
      split_ifs <;> omega

theorem daysBeforeYear_eq (y : ℕ) : daysBeforeYear y + (y + 99) / 100 =
    365 * y + (y + 3) / 4 + (y + 399) / 400 := by
  induction y with
  | zero => rfl
  | succ y ih =>
      have hsum : daysBeforeYear (y + 1) = daysBeforeYear y + yearLength y :=
        Finset.sum_range_succ _ y
      have hlength := yearLength_eq y
      rw [hsum, div_succ_year y 99, div_succ_year y 3, div_succ_year y 399]
      generalize (y + 99) / 100 = centuries at ih ⊢
      generalize (y + 3) / 4 = fourths at ih ⊢
      generalize (y + 399) / 400 = cycles at ih ⊢
      split_ifs at hlength ⊢ <;> omega

/-- The first of January 1970. -/
theorem dayNumber_epoch : dayNumber 1970 1 1 = 719528 := by
  have h := daysBeforeYear_eq 1970
  have hmonth : daysBeforeMonth 1970 1 = 0 := rfl
  rw [dayNumber, hmonth]
  omega

theorem daysBeforeMonth_eq {y m : ℕ} (hlow : 1 ≤ m) (hhigh : m ≤ 12) : daysBeforeMonth y m =
    [0, 0, 31, 59, 90, 120, 151, 181, 212, 243, 273, 304, 334].getD m 0 +
      (if m > 2 ∧ isLeapYear y = true then 1 else 0) := by
  unfold daysBeforeMonth monthLength
  cases isLeapYear y with
  | true => interval_cases m <;> rfl
  | false => interval_cases m <;> rfl

/-! ### The date of a day -/

/-- The closed form of `daysBeforeYear`. -/
def yearStart (y : ℕ) : ℕ := 365 * y + (y + 3) / 4 + (y + 399) / 400 - (y + 99) / 100

theorem yearStart_eq (y : ℕ) : yearStart y = daysBeforeYear y := by
  have h := daysBeforeYear_eq y
  unfold yearStart
  omega

/-- The year of a day: the mean length of a year gives it up to one year. -/
def yearAt (n : ℕ) : ℕ :=
  let guess := n * 400 / 146097
  if n < yearStart guess then guess - 1
  else if yearStart (guess + 1) ≤ n then guess + 1
  else guess

theorem yearAt_spec (n : ℕ) :
    daysBeforeYear (yearAt n) ≤ n ∧ n < daysBeforeYear (yearAt n + 1) := by
  have hguess : n * 400 / 146097 * 146097 ≤ n * 400 ∧ n * 400 < (n * 400 / 146097 + 1) * 146097 := by
    omega
  unfold yearAt
  dsimp only
  generalize n * 400 / 146097 = guess at hguess ⊢
  simp only [← yearStart_eq]
  split_ifs with hlow hhigh
  · refine ⟨?_, ?_⟩
    · unfold yearStart
      omega
    · have hpos : guess ≠ 0 := by
        rintro rfl
        simp [yearStart] at hlow
      rw [Nat.sub_add_cancel (by omega)]
      exact hlow
  · refine ⟨hhigh, ?_⟩
    unfold yearStart
    omega
  · omega

/-- The days before each month of a year. -/
def monthStarts (leap : Bool) : List ℕ :=
  if leap then [0, 31, 60, 91, 121, 152, 182, 213, 244, 274, 305, 335]
  else [0, 31, 59, 90, 120, 151, 181, 212, 243, 273, 304, 334]

/-- The month of a day of the year. -/
def monthAt (leap : Bool) (r : ℕ) : ℕ := ((monthStarts leap).filter (fun s => s ≤ r)).length

theorem monthAt_bounds (leap : Bool) (r : ℕ) (hr : r < 366) :
    1 ≤ monthAt leap r ∧ monthAt leap r ≤ 12 ∧
      (monthStarts leap).getD (monthAt leap r - 1) 0 ≤ r ∧
      (monthAt leap r < 12 → r < (monthStarts leap).getD (monthAt leap r) 0) := by
  have hall : ∀ leap, ∀ r < 366, 1 ≤ monthAt leap r ∧ monthAt leap r ≤ 12 ∧
      (monthStarts leap).getD (monthAt leap r - 1) 0 ≤ r ∧
      (monthAt leap r < 12 → r < (monthStarts leap).getD (monthAt leap r) 0) := by
    decide +kernel
  exact hall leap r hr

theorem daysBeforeMonth_start {y m : ℕ} (hlow : 1 ≤ m) (hhigh : m ≤ 12) :
    daysBeforeMonth y m = (monthStarts (isLeapYear y)).getD (m - 1) 0 := by
  rw [daysBeforeMonth_eq hlow hhigh]
  cases isLeapYear y with
  | true => interval_cases m <;> rfl
  | false => interval_cases m <;> rfl

/-- A date. -/
structure Date where
  year : ℕ
  month : ℕ
  day : ℕ

/-- The date of a day, counted from the first of January of the year 0. -/
def dateAt (n : ℕ) : Date :=
  let y := yearAt n
  let r := n - yearStart y
  let m := monthAt (isLeapYear y) r
  ⟨y, m, r - (monthStarts (isLeapYear y)).getD (m - 1) 0 + 1⟩

/-- A date that the calendar has. -/
structure Date.Valid (d : Date) : Prop where
  month : 1 ≤ d.month ∧ d.month ≤ 12
  day : 1 ≤ d.day ∧ d.day ≤ monthLength d.year d.month

theorem monthLength_eq {y m : ℕ} (hlow : 1 ≤ m) (hhigh : m ≤ 12) : monthLength y m =
    (if m < 12 then (monthStarts (isLeapYear y)).getD m 0 else yearLength y) -
      (monthStarts (isLeapYear y)).getD (m - 1) 0 := by
  unfold monthLength yearLength
  cases isLeapYear y with
  | true => interval_cases m <;> rfl
  | false => interval_cases m <;> rfl

/-- The date of a day is a date of the calendar, and its number is the day. -/
theorem dateAt_spec (n : ℕ) : (dateAt n).Valid ∧
    dayNumber (dateAt n).year (dateAt n).month (dateAt n).day = n := by
  obtain ⟨hlow, hhigh⟩ := yearAt_spec n
  have hsum : daysBeforeYear (yearAt n + 1) = daysBeforeYear (yearAt n) + yearLength (yearAt n) :=
    Finset.sum_range_succ _ _
  have hlength : yearLength (yearAt n) ≤ 366 := by
    unfold yearLength
    split_ifs <;> omega
  have hstart := yearStart_eq (yearAt n)
  have hr : n - yearStart (yearAt n) < yearLength (yearAt n) := by omega
  obtain ⟨hm1, hm12, hbefore, hafter⟩ :=
    monthAt_bounds (isLeapYear (yearAt n)) (n - yearStart (yearAt n)) (by omega)
  have hdays := daysBeforeMonth_start (y := yearAt n) hm1 hm12
  have hmonth := monthLength_eq (y := yearAt n) hm1 hm12
  refine ⟨⟨⟨hm1, hm12⟩, ?_, ?_⟩, ?_⟩
  · exact Nat.le_add_left 1 _
  · change (dateAt n).day ≤ monthLength (yearAt n)
      (monthAt (isLeapYear (yearAt n)) (n - yearStart (yearAt n)))
    rw [hmonth]
    simp only [dateAt]
    split_ifs with h12
    · have hlt := hafter h12
      omega
    · omega
  · rw [dayNumber]
    simp only [dateAt]
    rw [hdays]
    push_cast
    omega

/-- The calendar repeats every four hundred years. -/
theorem daysBeforeYear_cycle (y k : ℕ) :
    daysBeforeYear (y + 400 * k) = daysBeforeYear y + 146097 * k := by
  rw [← yearStart_eq, ← yearStart_eq]
  unfold yearStart
  omega

theorem isLeapYear_cycle (y k : ℕ) : isLeapYear (y + 400 * k) = isLeapYear y := by
  have h4 : (y + 400 * k) % 4 = y % 4 := by omega
  have h100 : (y + 400 * k) % 100 = y % 100 := by omega
  have h400 : (y + 400 * k) % 400 = y % 400 := by omega
  rw [isLeapYear, h4, h100, h400, isLeapYear]

theorem daysBeforeYear_mono {y y' : ℕ} (h : y ≤ y') : daysBeforeYear y ≤ daysBeforeYear y' := by
  refine monotone_nat_of_le_succ (fun k => ?_) h
  rw [daysBeforeYear, daysBeforeYear, Finset.sum_range_succ]
  exact Nat.le_add_right _ _

theorem daysBeforeMonth_cycle {y m : ℕ} (k : ℕ) (hlow : 1 ≤ m) (hhigh : m ≤ 12) :
    daysBeforeMonth (y + 400 * k) m = daysBeforeMonth y m := by
  rw [daysBeforeMonth_start hlow hhigh, daysBeforeMonth_start hlow hhigh, isLeapYear_cycle]

theorem monthLength_cycle (y m k : ℕ) : monthLength (y + 400 * k) m = monthLength y m := by
  rw [monthLength, monthLength, isLeapYear_cycle]

theorem daysBeforeMonth_le {y m : ℕ} (hlow : 1 ≤ m) (hhigh : m ≤ 12) :
    daysBeforeMonth y m ≤ 335 := by
  rw [daysBeforeMonth_start hlow hhigh]
  cases isLeapYear y with
  | true => interval_cases m <;> decide
  | false => interval_cases m <;> decide

end Calendar

end QeReport
