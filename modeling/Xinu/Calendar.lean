import Mathlib

/-!
# The Gregorian calendar

A date is a year, a month counted from 0 and a day counted from 1. The calendar goes from one date
to the next. Days are numbered from the first of January of some first year on, and the number of
a date is the sum of the years, months and days before it.
-/

namespace Xinu.Calendar

/-- The years with a leap day. -/
def leap (year : Nat) : Bool := year % 4 == 0 && (year % 100 != 0 || year % 400 == 0)

/-- The days of a month. -/
def monthLength (year : Nat) : Nat → Nat
  | 1 => if leap year then 29 else 28
  | 3 | 5 | 8 | 10 => 30
  | _ => 31

/-- The days of a year. -/
def yearLength (year : Nat) : Nat := if leap year then 366 else 365

structure Date where
  year : Nat
  month : Nat
  day : Nat
  deriving DecidableEq, Repr

/-- A date that exists. -/
structure Date.Valid (date : Date) : Prop where
  month : date.month < 12
  first : 1 ≤ date.day
  last : date.day ≤ monthLength date.year date.month

/-- The date of the day after. -/
def Date.next (date : Date) : Date :=
  if date.day < monthLength date.year date.month then ⟨date.year, date.month, date.day + 1⟩
  else if date.month < 11 then ⟨date.year, date.month + 1, 1⟩
  else ⟨date.year + 1, 0, 1⟩

/-- The date some days after the first of January of a year. -/
def dateOf (first days : Nat) : Date := Date.next^[days] ⟨first, 0, 1⟩

/-- The days of the years before a year. -/
def daysBefore (first year : Nat) : Nat := ∑ past ∈ Finset.Ico first year, yearLength past

/-- The days of the months before a month. -/
def daysBeforeMonth (year month : Nat) : Nat := ∑ past ∈ Finset.range month, monthLength year past

/-- The days of its year before a date. -/
def Date.dayOfYear (date : Date) : Nat := daysBeforeMonth date.year date.month + (date.day - 1)

/-- The days from the first of January of a year to a date. -/
def dayNumber (first : Nat) (date : Date) : Nat := daysBefore first date.year + date.dayOfYear

@[simp] theorem daysBefore_first (first : Nat) : daysBefore first first = 0 := by
  simp [daysBefore]

theorem daysBefore_succ {first year : Nat} (started : first ≤ year) :
    daysBefore first (year + 1) = daysBefore first year + yearLength year :=
  Finset.sum_Ico_succ_top started yearLength

/-- The years from a first year on are that year and the years after it. -/
theorem daysBefore_from {first year : Nat} (started : first < year) :
    daysBefore first year = yearLength first + daysBefore (first + 1) year :=
  Finset.sum_eq_sum_Ico_succ_bot started yearLength

theorem daysBefore_mono {first year later : Nat} (order : year ≤ later) :
    daysBefore first year ≤ daysBefore first later :=
  Finset.sum_le_sum_of_subset (Finset.Ico_subset_Ico_right order)

@[simp] theorem daysBeforeMonth_zero (year : Nat) : daysBeforeMonth year 0 = 0 := rfl

theorem daysBeforeMonth_succ (year month : Nat) :
    daysBeforeMonth year (month + 1) = daysBeforeMonth year month + monthLength year month :=
  Finset.sum_range_succ (monthLength year) month

theorem daysBeforeMonth_mono (year : Nat) {month later : Nat} (order : month ≤ later) :
    daysBeforeMonth year month ≤ daysBeforeMonth year later :=
  Finset.sum_le_sum_of_subset (Finset.range_mono order)

/-- The twelve months make the year. -/
theorem daysBeforeMonth_twelve (year : Nat) : daysBeforeMonth year 12 = yearLength year := by
  cases leaping : leap year <;>
    simp [daysBeforeMonth, Finset.sum_range_succ, monthLength, yearLength, leaping]

theorem monthLength_pos (year month : Nat) : 1 ≤ monthLength year month := by
  unfold monthLength
  split <;> (try split) <;> omega

theorem Date.Valid.next {date : Date} (valid : date.Valid) : date.next.Valid := by
  unfold Date.next
  have inside := valid.month
  split
  case isTrue before => exact ⟨inside, Nat.le_add_left 1 _, before⟩
  case isFalse =>
    split
    case isTrue early => exact ⟨Nat.succ_lt_succ early, le_rfl, monthLength_pos _ _⟩
    case isFalse => exact ⟨Nat.zero_lt_succ 11, le_rfl, monthLength_pos _ _⟩

/-- A day of a month comes before the next month. -/
theorem Date.Valid.dayOfYear_lt_month {date : Date} (valid : date.Valid) :
    date.dayOfYear < daysBeforeMonth date.year (date.month + 1) := by
  have started := valid.first
  have ended := valid.last
  rw [daysBeforeMonth_succ, Date.dayOfYear]
  omega

theorem Date.Valid.dayOfYear_lt {date : Date} (valid : date.Valid) :
    date.dayOfYear < yearLength date.year := by
  have months := daysBeforeMonth_mono date.year (Nat.succ_le_of_lt valid.month)
  rw [daysBeforeMonth_twelve] at months
  exact lt_of_lt_of_le valid.dayOfYear_lt_month months

/-- The day after has the next number. -/
theorem dayNumber_next {first : Nat} {date : Date} (valid : date.Valid)
    (started : first ≤ date.year) : dayNumber first date.next = dayNumber first date + 1 := by
  obtain ⟨inside, positive, ended⟩ := valid
  unfold Date.next
  split
  case isTrue before =>
    simp only [dayNumber, Date.dayOfYear]
    lia
  case isFalse reached =>
    have last : date.day = monthLength date.year date.month := by lia
    have whole := daysBeforeMonth_succ date.year date.month
    split
    case isTrue early =>
      simp only [dayNumber, Date.dayOfYear]
      lia
    case isFalse late =>
      have december : date.month = 11 := by lia
      rw [december] at whole last
      rw [daysBeforeMonth_twelve] at whole
      simp only [dayNumber, Date.dayOfYear, december, daysBeforeMonth_zero,
        daysBefore_succ started]
      lia

theorem Date.year_next (date : Date) : date.year ≤ date.next.year := by
  unfold Date.next
  split
  · exact le_rfl
  · split
    · exact le_rfl
    · exact Nat.le_succ _

theorem dateOf_succ (first days : Nat) : dateOf first (days + 1) = (dateOf first days).next :=
  Function.iterate_succ_apply' Date.next days _

/-- The calendar runs over dates that exist, from the first year on. -/
theorem dateOf_valid (first days : Nat) :
    (dateOf first days).Valid ∧ first ≤ (dateOf first days).year := by
  induction days with
  | zero => exact ⟨⟨Nat.zero_lt_succ 11, le_rfl, monthLength_pos _ _⟩, le_rfl⟩
  | succ days inductionHypothesis =>
    obtain ⟨valid, started⟩ := inductionHypothesis
    rw [dateOf_succ]
    exact ⟨valid.next, started.trans (Date.year_next _)⟩

/-- The date some days after the first day has that number. -/
@[simp] theorem dayNumber_dateOf (first days : Nat) : dayNumber first (dateOf first days) = days := by
  induction days with
  | zero => simp [dateOf, dayNumber, Date.dayOfYear]
  | succ days inductionHypothesis =>
    obtain ⟨valid, started⟩ := dateOf_valid first days
    rw [dateOf_succ, dayNumber_next valid started, inductionHypothesis]

/-- A date of an earlier year has a smaller number. -/
theorem dayNumber_lt_of_year {first : Nat} {date other : Date} (valid : date.Valid)
    (started : first ≤ date.year) (earlier : date.year < other.year) :
    dayNumber first date < dayNumber first other := by
  have inside := valid.dayOfYear_lt
  have years := @daysBefore_mono first _ _ (Nat.succ_le_of_lt earlier)
  rw [daysBefore_succ started] at years
  unfold dayNumber
  lia

/-- A date of an earlier month of one year has a smaller number. -/
theorem dayOfYear_lt_of_month {date other : Date} (valid : date.Valid)
    (same : date.year = other.year) (earlier : date.month < other.month) :
    date.dayOfYear < other.dayOfYear := by
  have inside := valid.dayOfYear_lt_month
  have months := daysBeforeMonth_mono date.year (Nat.succ_le_of_lt earlier)
  rw [same] at inside months
  exact lt_of_lt_of_le (lt_of_lt_of_le inside months) (Nat.le_add_right _ _)

/-- Different dates have different numbers. -/
theorem dayNumber_injective {first : Nat} {date other : Date} (valid : date.Valid)
    (otherValid : other.Valid) (started : first ≤ date.year) (otherStarted : first ≤ other.year)
    (same : dayNumber first date = dayNumber first other) : date = other := by
  have years : date.year = other.year := by
    rcases lt_trichotomy date.year other.year with earlier | equal | later
    · exact absurd same (dayNumber_lt_of_year valid started earlier).ne
    · exact equal
    · exact absurd same (dayNumber_lt_of_year otherValid otherStarted later).ne'
  have numbers : date.dayOfYear = other.dayOfYear := by
    unfold dayNumber at same
    rw [years] at same
    lia
  have months : date.month = other.month := by
    rcases lt_trichotomy date.month other.month with earlier | equal | later
    · exact absurd numbers (dayOfYear_lt_of_month valid years earlier).ne
    · exact equal
    · exact absurd numbers (dayOfYear_lt_of_month otherValid years.symm later).ne'
  have started := valid.first
  have otherStarted := otherValid.first
  rw [Date.dayOfYear, Date.dayOfYear, years, months] at numbers
  obtain ⟨year, month, day⟩ := date
  obtain ⟨otherYear, otherMonth, otherDay⟩ := other
  simp only [Date.mk.injEq]
  simp only at *
  lia

/-- The number of a date finds the date. -/
theorem dateOf_dayNumber {first : Nat} {date : Date} (valid : date.Valid)
    (started : first ≤ date.year) : dateOf first (dayNumber first date) = date := by
  obtain ⟨otherValid, otherStarted⟩ := dateOf_valid first (dayNumber first date)
  exact dayNumber_injective otherValid valid otherStarted started (dayNumber_dateOf _ _)

end Xinu.Calendar
