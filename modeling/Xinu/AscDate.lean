import Xinu.Calendar

/-!
# A date in text

`ascdate` turns the seconds since 1970 into a date. The year and the month are found by taking
their seconds off what is left, the weekday by a closed formula over the years passed, and
daylight saving moves the finished fields forward by one hour. The result is compared with the
Gregorian calendar at the moment the hour is added to.
-/

namespace Xinu.AscDate

open Xinu.Calendar

/-- Leap years, as taken between 1970 and 2099. -/
def isleap (year : Nat) : Bool := year % 4 == 0

def secperdy : Nat := 60 * 60 * 24
def secperhr : Nat := 60 * 60
def secpermn : Nat := 60

def dateDstOff : Int := 0
def dateDstOn : Int := 1
def dateDstAuto : Int := 2

/-- `Date.dt_msize`: the days of the months of a common year. -/
def dtMsize : List Nat := [31, 28, 31, 30, 31, 30, 31, 31, 30, 31, 30, 31]

/-- `Date.dt_mnam`. -/
def dtMnam : List String :=
  ["Jan", "Feb", "Mar", "Apr", "May", "Jun", "Jul", "Aug", "Sep", "Oct", "Nov", "Dec"]

/-- `Date.dt_dnam`. -/
def dtDnam : List String := ["Sun", "Mon", "Tue", "Wed", "Thu", "Fri", "Sat"]

/-- `zones` and `dzones` at the time zone of the system, `ZONE_EST`. -/
def zone (dst : Bool) : String := if dst then "EDT" else "EST"

/-- The seconds of a year, `days * SECPERDY`. -/
def yearSeconds (year : Nat) : Nat := (if isleap year then 366 else 365) * secperdy

theorem yearSeconds_pos (year : Nat) : 0 < yearSeconds year := by
  unfold yearSeconds secperdy
  split <;> decide

/-- The year, and the seconds of it that have passed. -/
def yearLoop (now year : Nat) : Nat × Nat :=
  if yearSeconds year > now then (year, now) else yearLoop (now - yearSeconds year) (year + 1)
termination_by now
decreasing_by
  have positive := yearSeconds_pos year
  omega

/-- The month, and the seconds of it that have passed; the list holds the sizes of the months not
yet looked at. -/
def monthLoop (year : Nat) : List Nat → Nat → Nat → Nat × Nat
  | [], month, now => (month, now)
  | size :: sizes, month, now =>
    let tmp := size * secperdy + if month == 1 && isleap year then secperdy else 0
    if tmp > now then (month, now) else monthLoop year sizes (month + 1) (now - tmp)

/-- The day of the second Sunday in March. -/
def marss (jan1 year : Nat) : Nat :=
  let mar1 := (jan1 + dtMsize.getD 0 0 + dtMsize.getD 1 0 + if isleap year then 1 else 0) % 7
  if mar1 = 0 then 8 else 15 - mar1

/-- The day of the first Sunday in November. -/
def novfs (jan1 year : Nat) : Nat :=
  let nov1 := (jan1 + (dtMsize.take 10).sum + if isleap year then 1 else 0) % 7
  if nov1 = 0 then 1 else 8 - nov1

/-- Daylight saving by the time of the year, taken from standard time. -/
def automatic (jan1 year month day hour : Nat) : Bool :=
  if month = 11 ∨ month = 0 ∨ month = 1 then false
  else if 2 < month ∧ month < 10 then true
  else if month = 2 then
    if day > marss jan1 year then true
    else if day = marss jan1 year ∧ 2 ≤ hour then true
    else false
  else if month = 10 then
    if day > novfs jan1 year then false
    else if day = novfs jan1 year ∧ 1 ≤ hour then false
    else true
  else false

/-- The values that are printed. -/
structure Moment where
  dayofweek : Nat
  month : Nat
  day : Nat
  hour : Nat
  minute : Nat
  second : Nat
  year : Nat
  deriving DecidableEq, Repr

/-- One hour later, carried into the day and the month. -/
def Moment.moveAhead (shown : Moment) : Moment :=
  if shown.hour + 1 > 23 then
    if shown.day + 1 > dtMsize.getD shown.month 0 then
      { shown with hour := 0, day := 1, month := shown.month + 1 }
    else { shown with hour := 0, day := shown.day + 1 }
  else { shown with hour := shown.hour + 1 }

/-- The fields in standard time. -/
def standard (now : Nat) : Moment :=
  let (year, inYear) := yearLoop now 1970
  let days := inYear / secperdy
  let (month, inMonth) := monthLoop year dtMsize 0 inYear
  let leapyrs := (year - 1969) / 4
  let shift := 4 + (year - 1970) + leapyrs + days
  { dayofweek := shift % 7, month := month, day := inMonth / secperdy + 1
    hour := inMonth % secperdy / secperhr
    minute := inMonth % secperdy % secperhr / secpermn
    second := inMonth % secperdy % secperhr % secpermn
    year := year }

/-- The day of the week of the first of January. -/
def jan1 (year : Nat) : Nat := (4 + (year - 1970) + (year - 1969) / 4) % 7

/-- Whether the fields are moved forward; `daylight` is `Date.dt_daylight`. -/
def dst (now : Nat) (daylight : Int) : Bool :=
  if daylight = dateDstOn then true
  else if daylight = dateDstAuto then
    let fields := standard now
    automatic (jan1 fields.year) fields.year fields.month fields.day fields.hour
  else false

/-- The values handed to `sprintf`. -/
def printed (now : Nat) (daylight : Int) : Moment :=
  if dst now daylight then (standard now).moveAhead else standard now

/-- The text of some values: `"%3s  %3s %2d  %2d:%02d:%02d %s %d"`. Names outside of the tables are
not defined. -/
def Moment.text (shown : Moment) (summer : Bool) : Option String := do
  let dnam ← dtDnam[shown.dayofweek]?
  let mnam ← dtMnam[shown.month]?
  return dnam.leftpad 3 ' ' ++ "  " ++ mnam.leftpad 3 ' ' ++ " " ++
    (toString shown.day).leftpad 2 ' ' ++ "  " ++ (toString shown.hour).leftpad 2 ' ' ++ ":" ++
    (toString shown.minute).leftpad 2 '0' ++ ":" ++ (toString shown.second).leftpad 2 '0' ++ " " ++
    zone summer ++ " " ++ toString shown.year

/-- The text that a call writes into its buffer. -/
def ascdate (now : Nat) (daylight : Int) : Option String :=
  (printed now daylight).text (dst now daylight)

/-- The day of the week of a day; the first of January 1970 was a Thursday. -/
def weekday (days : Nat) : Nat := (4 + days) % 7

/-- What a clock and a calendar show at a moment. -/
def moment (seconds : Nat) : Moment :=
  let date := dateOf 1970 (seconds / secperdy)
  { dayofweek := weekday (seconds / secperdy), month := date.month, day := date.day
    hour := seconds / secperhr % 24, minute := seconds / secpermn % 60, second := seconds % 60
    year := date.year }

/-- The Sunday of a month that has some number. -/
def NthSunday (number year month day : Nat) : Prop :=
  7 * (number - 1) < day ∧ day ≤ 7 * number ∧ weekday (dayNumber 1970 ⟨year, month, day⟩) = 0

/-- Daylight saving by the rule: from 2:00 of the second Sunday of March until 1:00 of the first
Sunday of November, in standard time. -/
def Summer (now : Nat) : Prop :=
  ∃ march november, NthSunday 2 (moment now).year 2 march ∧
    NthSunday 1 (moment now).year 10 november ∧
    dayNumber 1970 ⟨(moment now).year, 2, march⟩ * secperdy + 2 * secperhr ≤ now ∧
    now < dayNumber 1970 ⟨(moment now).year, 10, november⟩ * secperdy + secperhr

/-- Daylight saving is in force under a setting. -/
def InForce (daylight : Int) (now : Nat) : Prop :=
  daylight = dateDstOn ∨ daylight = dateDstAuto ∧ Summer now

/-- The moment a clock shows under a setting. -/
def Shown (daylight : Int) (now shown : Nat) : Prop :=
  InForce daylight now ∧ shown = now + secperhr ∨ ¬ InForce daylight now ∧ shown = now

/-- The first second of 2100. -/
def year2100 : Nat := 47482 * secperdy

theorem leap_eq {year : Nat} (first : 1970 ≤ year) (last : year < 2100) :
    leap year = isleap year := by
  rw [leap, isleap, Bool.eq_iff_iff]
  simp only [Bool.and_eq_true, Bool.or_eq_true, beq_iff_eq, bne_iff_ne]
  lia

theorem yearSeconds_eq {year : Nat} (first : 1970 ≤ year) (last : year < 2100) :
    yearSeconds year = yearLength year * secperdy := by
  rw [yearSeconds, yearLength, leap_eq first last]

/-- The years passed, in days, as the leap years are counted. -/
theorem daysBefore_eq {year : Nat} (first : 1970 ≤ year) (last : year ≤ 2100) :
    daysBefore 1970 year = 365 * (year - 1970) + (year - 1969) / 4 := by
  induction year, first using Nat.le_induction with
  | base => simp
  | succ year first inductionHypothesis =>
    rw [daysBefore_succ first, inductionHypothesis (Nat.le_of_lt last), yearLength,
      leap_eq first last, isleap]
    split
    case isTrue divides =>
      rw [beq_iff_eq] at divides
      lia
    case isFalse rest =>
      rw [beq_iff_eq] at rest
      lia

/-- The loop over the years stops in the year of the moment. -/
theorem yearLoop_eq (count : Nat) {year rest : Nat} (first : 1970 ≤ year)
    (last : year + count < 2100) (inside : rest < yearLength (year + count) * secperdy) :
    yearLoop (daysBefore year (year + count) * secperdy + rest) year = (year + count, rest) := by
  induction count generalizing year with
  | zero =>
    rw [Nat.add_zero] at inside last ⊢
    rw [yearLoop, daysBefore_first, Nat.zero_mul, Nat.zero_add, yearSeconds_eq first last,
      if_pos inside]
  | succ count inductionHypothesis =>
    have shift : year + (count + 1) = year + 1 + count := by lia
    rw [shift] at inside last ⊢
    rw [yearLoop, yearSeconds_eq first (by omega), daysBefore_from (by omega), Nat.add_mul,
      if_neg (by lia), Nat.add_assoc, Nat.add_sub_cancel_left]
    exact inductionHypothesis (by omega) last inside

/-- The table and the leap day make the length of a month. -/
theorem month_days {year month : Nat} (inside : month < dtMsize.length)
    (first : 1970 ≤ year) (last : year < 2100) :
    dtMsize[month] + (if month == 1 && isleap year then 1 else 0) = monthLength year month := by
  have twelve : month < 12 := inside
  interval_cases month
  case «1» =>
    rw [monthLength, leap_eq first last]
    cases isleap year <;> rfl
  all_goals rfl

/-- The seconds taken off for a month are those of its days. -/
theorem month_seconds {year month : Nat} (inside : month < dtMsize.length)
    (first : 1970 ≤ year) (last : year < 2100) :
    dtMsize[month] * secperdy + (if month == 1 && isleap year then secperdy else 0) =
      monthLength year month * secperdy := by
  rw [← month_days inside first last, Nat.add_mul]
  split
  · rw [Nat.one_mul]
  · rw [Nat.zero_mul]

/-- One turn of the loop over the months. -/
theorem monthLoop_step {year month : Nat} (now : Nat) (inside : month < 12)
    (first : 1970 ≤ year) (last : year < 2100) :
    monthLoop year (dtMsize.drop month) month now =
      if monthLength year month * secperdy > now then (month, now)
      else monthLoop year (dtMsize.drop (month + 1)) (month + 1)
        (now - monthLength year month * secperdy) := by
  have listed : month < dtMsize.length := inside
  rw [List.drop_eq_getElem_cons listed, monthLoop, month_seconds listed first last]

/-- The loop over the months stops in the month of the moment. -/
theorem monthLoop_eq {year : Nat} (first : 1970 ≤ year) (last : year < 2100) (count : Nat)
    {month rest : Nat} (inside : month + count < 12)
    (within : rest < monthLength year (month + count) * secperdy) :
    monthLoop year (dtMsize.drop month) month
        ((daysBeforeMonth year (month + count) - daysBeforeMonth year month) * secperdy + rest) =
      (month + count, rest) := by
  induction count generalizing month with
  | zero =>
    rw [Nat.add_zero] at within inside ⊢
    rw [monthLoop_step _ inside first last, Nat.sub_self, Nat.zero_mul, Nat.zero_add,
      if_pos within]
  | succ count inductionHypothesis =>
    have shift : month + (count + 1) = month + 1 + count := by lia
    rw [shift] at within inside ⊢
    have one := daysBeforeMonth_succ year month
    have order := @daysBeforeMonth_mono year (month + 1) (month + 1 + count) (by lia)
    have split : daysBeforeMonth year (month + 1 + count) - daysBeforeMonth year month =
        monthLength year month +
          (daysBeforeMonth year (month + 1 + count) - daysBeforeMonth year (month + 1)) := by lia
    rw [monthLoop_step _ (by omega) first last, split, Nat.add_mul, if_neg (by lia),
      Nat.add_assoc, Nat.add_sub_cancel_left]
    exact inductionHypothesis (by omega) within

/-- A moment before 2100 lies in a year before 2100. -/
theorem year_lt {now : Nat} (before : now < year2100) :
    (dateOf 1970 (now / secperdy)).year < 2100 := by
  by_contra late
  have years := @daysBefore_mono 1970 2100 _ (Nat.le_of_not_lt late)
  have number := dayNumber_dateOf 1970 (now / secperdy)
  rw [daysBefore_eq (by decide) le_rfl] at years
  rw [dayNumber] at number
  unfold year2100 secperdy at *
  lia

/-- The fields in standard time are those of the calendar. -/
theorem standard_eq {now : Nat} (before : now < year2100) : standard now = moment now := by
  obtain ⟨valid, started⟩ := dateOf_valid 1970 (now / secperdy)
  have last := year_lt before
  have number := dayNumber_dateOf 1970 (now / secperdy)
  generalize found : dateOf 1970 (now / secperdy) = date at valid started last number
  obtain ⟨years, known⟩ := Nat.exists_eq_add_of_le started
  have parts : now = daysBefore 1970 date.year * secperdy +
      (date.dayOfYear * secperdy + now % secperdy) := by
    have whole := Nat.div_add_mod' now secperdy
    rw [← number, dayNumber, Nat.add_mul] at whole
    exact (Nat.add_assoc _ _ _ ▸ whole).symm
  have part : now % secperdy < secperdy := Nat.mod_lt _ (by decide)
  have inYear : date.dayOfYear * secperdy + now % secperdy < yearLength date.year * secperdy := by
    have inside := Nat.mul_le_mul_right secperdy (Nat.succ_le_of_lt valid.dayOfYear_lt)
    rw [Nat.succ_mul] at inside
    omega
  have byYear : yearLoop now 1970 = (date.year, date.dayOfYear * secperdy + now % secperdy) := by
    have loop := yearLoop_eq years (le_refl 1970) (by lia) (known ▸ inYear)
    rw [← known, ← parts] at loop
    exact loop
  have inMonth : (date.day - 1) * secperdy + now % secperdy <
      monthLength date.year date.month * secperdy := by
    have inside := Nat.mul_le_mul_right secperdy
      (show date.day - 1 + 1 ≤ monthLength date.year date.month by
        have first := valid.first
        have last := valid.last
        lia)
    rw [Nat.succ_mul] at inside
    lia
  have byMonth : monthLoop date.year dtMsize 0 (date.dayOfYear * secperdy + now % secperdy) =
      (date.month, (date.day - 1) * secperdy + now % secperdy) := by
    have loop := @monthLoop_eq _ started last date.month 0 _ (by simpa using valid.month)
      (by simpa using inMonth)
    rw [Nat.zero_add, daysBeforeMonth_zero, Nat.sub_zero, List.drop_zero, ← Nat.add_assoc,
      ← Nat.add_mul] at loop
    exact loop
  have week := daysBefore_eq started (Nat.le_of_lt last)
  have first := valid.first
  rw [dayNumber] at number
  simp only [standard, byYear, byMonth, moment, found, weekday, Moment.mk.injEq]
  unfold secperdy secperhr secpermn at *
  refine ⟨?_, trivial, ?_, ?_, ?_, ?_, trivial⟩
  · omega
  · omega
  · omega
  · omega
  · omega

/-- The closed formula gives the weekday of the first of January. -/
theorem jan1_eq {year : Nat} (first : 1970 ≤ year) (last : year < 2100) :
    jan1 year = weekday (daysBefore 1970 year) := by
  rw [jan1, weekday, daysBefore_eq first (Nat.le_of_lt last)]
  omega

/-- The days before March and before November. -/
theorem daysBefore_march_november {year : Nat} (first : 1970 ≤ year) (last : year < 2100) :
    daysBeforeMonth year 2 = 59 + (if isleap year then 1 else 0) ∧
      daysBeforeMonth year 10 = 304 + (if isleap year then 1 else 0) := by
  rw [← leap_eq first last]
  cases leaping : leap year <;>
    simp [daysBeforeMonth, Finset.sum_range_succ, monthLength, leaping]

/-- The day computed for March is its second Sunday. -/
theorem marss_sunday {year : Nat} (day : Nat) (first : 1970 ≤ year) (last : year < 2100) :
    NthSunday 2 year 2 day ↔ day = marss (jan1 year) year := by
  rw [NthSunday, marss, jan1_eq first last, dayNumber, Date.dayOfYear,
    (daysBefore_march_november first last).1]
  simp only [weekday, dtMsize, List.getD_cons_zero, List.getD_cons_succ]
  split
  all_goals
    split
    all_goals
      constructor
      all_goals
        intro known
        lia

/-- The day computed for November is its first Sunday. -/
theorem novfs_sunday {year : Nat} (day : Nat) (first : 1970 ≤ year) (last : year < 2100) :
    NthSunday 1 year 10 day ↔ day = novfs (jan1 year) year := by
  rw [NthSunday, novfs, jan1_eq first last, dayNumber, Date.dayOfYear,
    (daysBefore_march_november first last).2]
  have months : (dtMsize.take 10).sum = 304 := rfl
  simp only [weekday, months]
  split
  all_goals
    split
    all_goals
      constructor
      all_goals
        intro known
        lia

/-- The days computed lie in their weeks. -/
theorem marss_range (jan1 year : Nat) : 8 ≤ marss jan1 year ∧ marss jan1 year ≤ 14 := by
  unfold marss
  dsimp only
  generalize weekdayOf : (_ : Nat) % 7 = first
  have small : first < 7 := weekdayOf ▸ Nat.mod_lt _ (by decide)
  split <;> omega

theorem novfs_range (jan1 year : Nat) : 1 ≤ novfs jan1 year ∧ novfs jan1 year ≤ 7 := by
  unfold novfs
  dsimp only
  generalize weekdayOf : (_ : Nat) % 7 = first
  have small : first < 7 := weekdayOf ▸ Nat.mod_lt _ (by decide)
  split <;> omega

/-- An hour of a day of the year has come when the day is over, or it is that day and the clock is
that far. -/
theorem reached_iff (now day hour : Nat) (early : hour < 24) :
    (daysBefore 1970 (moment now).year + day) * secperdy + hour * secperhr ≤ now ↔
      day < (dateOf 1970 (now / secperdy)).dayOfYear ∨
        day = (dateOf 1970 (now / secperdy)).dayOfYear ∧ hour ≤ (moment now).hour := by
  have number := dayNumber_dateOf 1970 (now / secperdy)
  rw [dayNumber] at number
  simp only [moment]
  unfold secperdy secperhr at *
  constructor
  · intro passed
    lia
  · intro passed
    omega

/-- The rule in terms of the days computed. -/
theorem summer_iff {now : Nat} (before : now < year2100) {march november doy : Nat}
    (inMarch : march = daysBeforeMonth (moment now).year 2 +
      (marss (jan1 (moment now).year) (moment now).year - 1))
    (inNovember : november = daysBeforeMonth (moment now).year 10 +
      (novfs (jan1 (moment now).year) (moment now).year - 1))
    (today : doy = (dateOf 1970 (now / secperdy)).dayOfYear) :
    Summer now ↔ (march < doy ∨ march = doy ∧ 2 ≤ (moment now).hour) ∧
      ¬ (november < doy ∨ november = doy ∧ 1 ≤ (moment now).hour) := by
  have first := (dateOf_valid 1970 (now / secperdy)).2
  have last := year_lt before
  have begins := reached_iff now march 2 (by decide)
  have ends := reached_iff now november 1 (by decide)
  rw [← today] at begins ends
  rw [← begins, ← ends, Nat.one_mul, Nat.not_le, inMarch, inNovember]
  constructor
  · rintro ⟨march, november, second, firstSunday, begun, ending⟩
    obtain rfl := (marss_sunday march first last).mp second
    obtain rfl := (novfs_sunday november first last).mp firstSunday
    exact ⟨begun, ending⟩
  · rintro ⟨begun, ending⟩
    exact ⟨_, _, (marss_sunday _ first last).mpr rfl, (novfs_sunday _ first last).mpr rfl,
      begun, ending⟩

/-- The rule of the calendar is what the time of the year decides. -/
theorem automatic_eq {now : Nat} (before : now < year2100) :
    automatic (jan1 (moment now).year) (moment now).year (moment now).month (moment now).day
      (moment now).hour = true ↔ Summer now := by
  obtain ⟨valid, first⟩ := dateOf_valid 1970 (now / secperdy)
  have last := year_lt before
  rw [summer_iff before rfl rfl rfl]
  have marchDay := marss_range (jan1 (moment now).year) (moment now).year
  have novemberDay := novfs_range (jan1 (moment now).year) (moment now).year
  have months := daysBefore_march_november first last
  have positive := valid.first
  have within := valid.dayOfYear_lt_month
  have sofar : daysBeforeMonth (moment now).year (moment now).month ≤
      (dateOf 1970 (now / secperdy)).dayOfYear := Nat.le_add_right _ _
  have inside := valid.month
  have march : daysBeforeMonth (moment now).year 3 = daysBeforeMonth (moment now).year 2 + 31 :=
    daysBeforeMonth_succ _ 2
  have november : daysBeforeMonth (moment now).year 11 = daysBeforeMonth (moment now).year 10 + 30 :=
    daysBeforeMonth_succ _ 10
  have today : (dateOf 1970 (now / secperdy)).dayOfYear =
      daysBeforeMonth (moment now).year (moment now).month + ((moment now).day - 1) := rfl
  simp only [moment] at *
  generalize dateOf 1970 (now / secperdy) = date at *
  unfold automatic
  rcases lt_trichotomy date.month 2 with winter | inMarch | later
  · have early := @daysBeforeMonth_mono date.year (date.month + 1) 2 winter
    rw [if_pos (by lia)]
    simp only [Bool.false_eq_true, false_iff]
    lia
  · simp only [inMarch, Nat.reduceAdd] at today within sofar
    rw [if_neg (by lia), if_neg (by lia), if_pos inMarch]
    simp only [Bool.if_true_left, Bool.if_false_right, Bool.and_true, Bool.or_eq_true,
      decide_eq_true_eq]
    lia
  · have passed := @daysBeforeMonth_mono date.year 3 date.month later
    rcases lt_trichotomy date.month 10 with summer | inNovember | december
    · have early := @daysBeforeMonth_mono date.year (date.month + 1) 10 summer
      rw [if_neg (by lia), if_pos (by lia)]
      simp only [true_iff]
      lia
    · simp only [inNovember, Nat.reduceAdd] at today within sofar
      rw [if_neg (by lia), if_neg (by lia), if_neg (by lia), if_pos inNovember]
      simp only [Bool.if_false_left, Bool.and_true, Bool.and_eq_true, Bool.not_eq_true',
        decide_eq_false_iff_not]
      lia
    · have late := @daysBeforeMonth_mono date.year 11 date.month december
      rw [if_pos (by lia)]
      simp only [Bool.false_eq_true, false_iff]
      lia

/-- The fields are moved forward exactly when daylight saving is in force. -/
theorem dst_iff {now : Nat} (before : now < year2100) (daylight : Int) :
    dst now daylight = true ↔ InForce daylight now := by
  rw [dst, InForce, standard_eq before]
  by_cases forced : daylight = dateDstOn
  · simp [forced]
  · by_cases auto : daylight = dateDstAuto
    · rw [if_neg forced, if_pos auto]
      rw [automatic_eq before]
      exact ⟨fun summer => Or.inr ⟨auto, summer⟩,
        fun force => (force.resolve_left forced).2⟩
    · simp [forced, auto]

/-- What a calendar shows is a date that exists. -/
theorem moment_valid (seconds : Nat) :
    (moment seconds).dayofweek < 7 ∧
      Date.Valid ⟨(moment seconds).year, (moment seconds).month, (moment seconds).day⟩ :=
  ⟨Nat.mod_lt _ (by decide), (dateOf_valid 1970 (seconds / secperdy)).1⟩

/-- Values inside of the tables have a text. -/
theorem text_defined {shown : Moment} (week : shown.dayofweek < 7) (month : shown.month < 12)
    (summer : Bool) : ∃ text, shown.text summer = some text := by
  have dnam : dtDnam[shown.dayofweek]? = some dtDnam[shown.dayofweek] :=
    List.getElem?_eq_getElem week
  have mnam : dtMnam[shown.month]? = some dtMnam[shown.month] := List.getElem?_eq_getElem month
  rw [Moment.text, dnam, mnam]
  exact ⟨_, rfl⟩

/-- Before the last hour of a day, one hour later is the same day. -/
theorem moveAhead_eq {now : Nat} (early : (moment now).hour ≠ 23) :
    (moment now).moveAhead = moment (now + secperhr) := by
  have today : (now + secperhr) / secperdy = now / secperdy := by
    simp only [moment] at early
    unfold secperhr secperdy at *
    omega
  have bound : (moment now).hour < 24 := Nat.mod_lt _ (by decide)
  rw [Moment.moveAhead, if_neg (by lia)]
  simp only [moment, today, Moment.mk.injEq] at *
  unfold secperhr secpermn at *
  refine ⟨trivial, trivial, trivial, ?_, ?_, ?_, trivial⟩
  · omega
  · omega
  · lia

/-- Moving the fields forward leaves the day of the week. -/
@[simp] theorem moveAhead_dayofweek (shown : Moment) :
    shown.moveAhead.dayofweek = shown.dayofweek := by
  unfold Moment.moveAhead
  split
  · split <;> rfl
  · rfl

/-- In the last hour of a day, one hour later is another day of the week. -/
theorem moment_tomorrow {now : Nat} (late : (moment now).hour = 23) :
    (moment now).dayofweek ≠ (moment (now + secperhr)).dayofweek := by
  simp only [moment, weekday] at *
  unfold secperhr secperdy at *
  omega

/-- The call prints the date and the time that a calendar shows under the setting. -/
def PrintsDate (now : Nat) (daylight : Int) : Prop :=
  ∃ shown text, Shown daylight now shown ∧ printed now daylight = moment shown ∧
    ascdate now daylight = some text ∧ (printed now daylight).month ≤ 11 ∧
    Date.Valid ⟨(printed now daylight).year, (printed now daylight).month, (printed now daylight).day⟩

/-- A date is right unless daylight saving is in force in the last hour of a day: the hour is
carried into the day and the month, and the weekday stays behind. -/
theorem dates_are_right {now : Nat} (before : now < year2100) (daylight : Int) :
    PrintsDate now daylight ↔ ¬ (InForce daylight now ∧ now / secperhr % 24 = 23) := by
  have moved := dst_iff before daylight
  have right : ∀ shown, Shown daylight now shown → printed now daylight = moment shown →
      PrintsDate now daylight := by
    intro shown known equal
    obtain ⟨week, valid⟩ := moment_valid shown
    obtain ⟨text, written⟩ := text_defined week valid.month (dst now daylight)
    refine ⟨shown, text, known, equal, ?_, ?_, ?_⟩
    · rw [ascdate, equal, written]
    · rw [equal]
      exact Nat.le_of_lt_succ valid.month
    · rw [equal]
      exact valid
  by_cases force : InForce daylight now
  · have shifted : printed now daylight = (moment now).moveAhead := by
      rw [printed, moved.mpr force, standard_eq before, if_pos rfl]
    constructor
    · rintro ⟨shown, text, known, equal, -⟩ ⟨-, late⟩
      rcases known with ⟨-, rfl⟩ | ⟨calm, -⟩
      · have week := congrArg Moment.dayofweek (shifted.symm.trans equal)
        rw [moveAhead_dayofweek] at week
        exact moment_tomorrow late week
      · exact calm force
    · intro early
      exact right _ (Or.inl ⟨force, rfl⟩)
        (shifted.trans (moveAhead_eq fun late => early ⟨force, late⟩))
  · have still : printed now daylight = moment now := by
      rw [printed, if_neg (fun on => force (moved.mp on)), standard_eq before]
    constructor
    · rintro - ⟨on, -⟩
      exact force on
    · intro
      exact right _ (Or.inr ⟨force, rfl⟩) still

/-- Noon of a day of June under the automatic setting. -/
theorem june_is_right : 1528977600 < year2100 ∧
    (PrintsDate 1528977600 dateDstAuto ↔
      ¬ (InForce dateDstAuto 1528977600 ∧ 1528977600 / secperhr % 24 = 23)) :=
  ⟨by decide, dates_are_right (by decide) dateDstAuto⟩

/-- Eleven in the evening of October 31, 2018, in standard time. -/
theorem october_evening : standard 1541026800 = ⟨3, 9, 31, 23, 0, 0, 2018⟩ := by
  have number : dayNumber 1970 ⟨2018, 9, 31⟩ = 17835 := by decide +kernel
  have valid : Date.Valid ⟨2018, 9, 31⟩ := ⟨by decide, by decide, by decide⟩
  have date : dateOf 1970 17835 = ⟨2018, 9, 31⟩ := by
    rw [← number]
    exact dateOf_dayNumber valid (by decide)
  have day : 1541026800 / secperdy = 17835 := by decide
  rw [standard_eq (by decide), moment, day, date]
  rfl

/-- The first of November 2018 is a Thursday and is printed as a Wednesday. -/
theorem november_is_wrong :
    ascdate 1541026800 dateDstAuto = some "Wed  Nov  1   0:00:00 EDT 2018" ∧
      (moment (1541026800 + secperhr)).dayofweek = 4 ∧ ¬ PrintsDate 1541026800 dateDstAuto := by
  have on : dst 1541026800 dateDstAuto = true := by
    rw [dst, october_evening]
    decide
  have shown : printed 1541026800 dateDstAuto = ⟨3, 10, 1, 0, 0, 0, 2018⟩ := by
    rw [printed, on, october_evening]
    decide
  refine ⟨?_, rfl, ?_⟩
  · rw [ascdate, on, shown]
    decide +kernel
  · rintro ⟨later, text, known, equal, -⟩
    rcases known with ⟨-, rfl⟩ | ⟨calm, -⟩
    · rw [shown] at equal
      exact absurd (congrArg Moment.dayofweek equal) (by decide)
    · exact calm ((dst_iff (by decide) dateDstAuto).mp on)

end Xinu.AscDate
