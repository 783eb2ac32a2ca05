import Tellodb.Calendar.Gregorian
import Tellodb.Machine.Word

/-!
# Civil dates

`days_from_civil` and `civil_from_days` of the ingest side count days in eras of 400 years, the
first one in `i32`; `days_since_epoch` of the query side counts Julian days in `i64`. All of them
compute the day number of `Gregorian.Date`, the first one as far as `i32` reaches (`Reaches`). -/

namespace Tellodb

open Machine Gregorian

/-! ## The ingest side -/

/-- `days_from_civil`, for a month from 1 to 12 and a day from 1 to 31: then only the operations on
the year and the era can leave `i32`. -/
def daysFromCivil (overflowChecks : Bool) (year : ℤ) (month day : ℕ) : Option ℤ := do
  let year ← i32.result overflowChecks (year - if month ≤ 2 then 1 else 0)
  let era ← i32.floorDiv overflowChecks year 400
  let yoe ← i32.result overflowChecks (year - era * 400)
  let mp : ℤ := month + if 2 < month then -3 else 9
  let doy := (153 * mp + 2).tdiv 5 + day - 1
  let doe := yoe * 365 + yoe.tdiv 4 - yoe.tdiv 100 + doy
  let eraDays ← i32.result overflowChecks (era * 146097)
  let days ← i32.result overflowChecks (eraDays + doe)
  i32.result overflowChecks (days - 719468)

/-- `civil_from_days`. -/
def civilFromDays (overflowChecks : Bool) (daysSinceEpoch : ℤ) : Option (ℤ × ℕ × ℕ) := do
  let z ← i64.result overflowChecks (daysSinceEpoch + 719468)
  let era ← i64.floorDiv overflowChecks z 146097
  let doe := z - era * 146097
  let yoe := (doe - doe.tdiv 1460 + doe.tdiv 36524 - doe.tdiv 146096).tdiv 365
  let y := yoe + era * 400
  let doy := doe - (365 * yoe + yoe.tdiv 4 - yoe.tdiv 100)
  let mp := (5 * doy + 2).tdiv 153
  let d := doy - (153 * mp + 2).tdiv 5 + 1
  let m := mp + if mp < 10 then 3 else -9
  return (i32.cast (y + if m ≤ 2 then 1 else 0), (u32.cast m).toNat, (u32.cast d).toNat)

/-! ## The query side -/

/-- `days_in_month`. -/
def daysInMonth (year : ℤ) (month : ℕ) : ℕ :=
  if month = 1 ∨ month = 3 ∨ month = 5 ∨ month = 7 ∨ month = 8 ∨ month = 10 ∨ month = 12 then 31
  else if month = 2 then
    if year.tmod 4 = 0 ∧ year.tmod 100 ≠ 0 ∨ year.tmod 400 = 0 then 29 else 28
  else 30

/-- `days_since_epoch`: in `i64`, so that no year of an `i32` overflows. -/
def daysSinceEpoch (year : ℤ) (month day : ℕ) : ℤ :=
  let a := (14 - (month : ℤ)).tdiv 12
  let y := year + 4800 - a
  let m := month + 12 * a - 3
  let jdn := day + (153 * m + 2).tdiv 5 + 365 * y + y.tdiv 4 - y.tdiv 100 + y.tdiv 400 - 32045
  jdn - 2440588

/-- `days_in_month` is the length of the month. -/
theorem daysInMonth_eq {month : ℕ} (h : 1 ≤ month) (h' : month ≤ 12) (year : ℤ) :
    daysInMonth year month = monthLength year month := by
  have hleap : (year.tmod 4 = 0 ∧ year.tmod 100 ≠ 0 ∨ year.tmod 400 = 0) ↔ IsLeap year := by
    unfold IsLeap
    rw [← Int.dvd_iff_tmod_eq_zero, ← Int.dvd_iff_tmod_eq_zero, ne_eq,
      ← Int.dvd_iff_tmod_eq_zero]
    omega
  unfold daysInMonth monthLength
  simp only [hleap]
  interval_cases month <;> rfl

/-- The query side counts the days of the calendar. -/
theorem daysSinceEpoch_eq (date : Date) (h : 1 ≤ date.year) :
    daysSinceEpoch date.year date.month date.day = date.dayNumber := by
  -- The code moves January and February to the year before.
  have ha : (14 - (date.month : ℤ)).tdiv 12 = if date.month ≤ 2 then 1 else 0 := by
    have hm := date.month_pos
    have hm' := date.month_le
    interval_cases hmonth : date.month <;> rfl
  have hy : date.year + 4800 - (14 - (date.month : ℤ)).tdiv 12 = date.marchYear + 4800 := by
    rw [ha]
    unfold DayOfMonth.marchYear
    omega
  have hm : (date.month : ℤ) + 12 * (14 - (date.month : ℤ)).tdiv 12 - 3 = date.monthsPast := by
    rw [ha]
    unfold DayOfMonth.monthsPast
    split_ifs <;> omega
  -- Nothing is negative, so truncating division is the floor.
  have hyear : 0 ≤ date.marchYear + 4800 := by
    unfold DayOfMonth.marchYear
    split <;> omega
  have hmonth : 0 ≤ 153 * date.monthsPast + 2 := by
    unfold DayOfMonth.monthsPast
    split <;> omega
  unfold daysSinceEpoch
  dsimp only
  rw [hy, hm, date.dayNumber_eq, Int.tdiv_eq_ediv_of_nonneg hyear, Int.tdiv_eq_ediv_of_nonneg hyear,
    Int.tdiv_eq_ediv_of_nonneg hyear, Int.tdiv_eq_ediv_of_nonneg hmonth]
  unfold dayOfEra dayOfYear
  omega

/-! ## Where the ingest side can count -/

/-- `days_from_civil` reaches a day number: it is an `i32`, and with overflow checks it stays one
when it is counted from March of the year 0. -/
def Reaches (overflowChecks : Bool) (n : ℤ) : Prop :=
  i32.Has n ∧ (overflowChecks = true → i32.Has (n + 719468))

/-- A date within reach is of a year that `i32` has room for. -/
theorem year_of_has {date : DayOfMonth} (h : i32.Has date.dayNumber) :
    -5877642 ≤ date.year ∧ date.year ≤ 5881581 := by
  obtain ⟨hlo, hhi⟩ := h
  have hstart := date.yearStart_le
  have hend := date.dayNumber_lt_add
  unfold yearStart at hstart hend
  simp only [i32] at hlo hhi
  constructor
  · omega
  · omega

/-- The steps of `days_from_civil` that can fail on a date. -/
theorem daysFromCivil_steps (overflowChecks : Bool) (date : DayOfMonth)
    (hyear : i32.Has date.marchYear)
    (hera : 0 ≤ date.marchYear ∨ i32.Has (date.marchYear - (400 - 1))) :
    daysFromCivil overflowChecks date.year date.month date.day =
      (i32.result overflowChecks (date.marchYear / 400 * 146097)).bind fun eraDays =>
        (i32.result overflowChecks (eraDays +
          dayOfEra (date.marchYear % 400) (dayOfYear date.monthsPast date.day))).bind fun days =>
        i32.result overflowChecks (days - 719468) := by
  -- The year of the era is what is left of the year.
  have hyoe : i32.result overflowChecks (date.marchYear - date.marchYear / 400 * 400) =
      some (date.marchYear % 400) := by
    have hrest : date.marchYear - date.marchYear / 400 * 400 = date.marchYear % 400 := by omega
    rw [hrest]
    refine Word.result_of_has ?_
    unfold Word.Has i32
    dsimp only
    omega
  have hmonth : 0 ≤ 153 * date.monthsPast + 2 := by
    unfold DayOfMonth.monthsPast
    split <;> omega
  have hnonneg : 0 ≤ date.marchYear % 400 := by omega
  unfold daysFromCivil
  -- The era is found without overflow, and the rest is the same expression.
  change (i32.result overflowChecks date.marchYear).bind _ = _
  rw [Word.result_of_has hyear, Option.bind_some]
  dsimp only [bind]
  rw [Word.floorDiv_eq (by decide) hera, Option.bind_some, hyoe, Option.bind_some]
  change (i32.result overflowChecks (date.marchYear / 400 * 146097)).bind (fun eraDays =>
    (i32.result overflowChecks (eraDays + (date.marchYear % 400 * 365 +
      (date.marchYear % 400).tdiv 4 - (date.marchYear % 400).tdiv 100 +
      ((153 * date.monthsPast + 2).tdiv 5 + date.day - 1)))).bind fun days =>
    i32.result overflowChecks (days - 719468)) = _
  rw [Int.tdiv_eq_ediv_of_nonneg hnonneg, Int.tdiv_eq_ediv_of_nonneg hnonneg,
    Int.tdiv_eq_ediv_of_nonneg hmonth]
  rfl

/-- The day number, as the steps of `days_from_civil` sum it up. -/
theorem dayNumber_sum (date : DayOfMonth) :
    date.marchYear / 400 * 146097 +
      dayOfEra (date.marchYear % 400) (dayOfYear date.monthsPast date.day) =
        date.dayNumber + 719468 := by
  rw [date.dayNumber_eq]
  omega

/-- A date within reach lets every operation on its year fit. -/
theorem marchYear_of_has {date : DayOfMonth} (h : i32.Has date.dayNumber) :
    i32.Has date.marchYear ∧ i32.Has (date.marchYear - (400 - 1)) := by
  have hyear := year_of_has h
  have hmarch : date.marchYear = date.year ∨ date.marchYear = date.year - 1 := by
    unfold DayOfMonth.marchYear
    split <;> omega
  unfold Word.Has i32
  dsimp only
  constructor
  · omega
  · omega

/-- The days of a date's eras come to the date's day number at most. -/
theorem eraDays_of_has {date : DayOfMonth} (h : i32.Has date.dayNumber)
    (hsum : i32.Has (date.dayNumber + 719468)) : i32.Has (date.marchYear / 400 * 146097) := by
  have hyear := (marchYear_of_has h).1
  have hday := date.dayNumber_eq
  have hmonths : 0 ≤ date.monthsPast ∧ date.monthsPast ≤ 11 := by
    have hm := date.month_pos
    have hm' := date.month_le
    unfold DayOfMonth.monthsPast
    split <;> omega
  have hdays : 1 ≤ date.day ∧ date.day ≤ 31 := ⟨date.day_pos, date.day_le⟩
  have hera : 0 ≤ dayOfEra (date.marchYear % 400) (dayOfYear date.monthsPast date.day) ∧
      dayOfEra (date.marchYear % 400) (dayOfYear date.monthsPast date.day) ≤ 146127 := by
    unfold dayOfEra dayOfYear
    constructor
    · omega
    · omega
  unfold Word.Has i32 at *
  dsimp only at *
  omega

/-- A date within reach is counted. -/
theorem daysFromCivil_of_reaches {overflowChecks : Bool} (date : DayOfMonth)
    (h : Reaches overflowChecks date.dayNumber) :
    daysFromCivil overflowChecks date.year date.month date.day = some date.dayNumber := by
  obtain ⟨hday, hsum⟩ := h
  obtain ⟨hyear, hshift⟩ := marchYear_of_has hday
  rw [daysFromCivil_steps overflowChecks date hyear (.inr hshift)]
  cases overflowChecks with
  | true =>
    have hsum := hsum rfl
    rw [Word.result_of_has (eraDays_of_has hday hsum), Option.bind_some, dayNumber_sum,
      Word.result_of_has hsum, Option.bind_some, Int.add_sub_cancel, Word.result_of_has hday]
  | false =>
    -- Wrapped operations are exact up to a multiple of `2^32`, and the day number fits.
    rw [Word.result_unchecked, Option.bind_some, Word.result_unchecked, Option.bind_some,
      Word.result_unchecked, Word.cast_cast_add, dayNumber_sum, sub_eq_add_neg,
      Word.cast_cast_add, ← sub_eq_add_neg, Int.add_sub_cancel, Word.cast_of_has hday]

/-- What `days_from_civil` gives is an `i32`. -/
theorem has_of_daysFromCivil {overflowChecks : Bool} {year n : ℤ} {month day : ℕ}
    (h : daysFromCivil overflowChecks year month day = some n) : i32.Has n := by
  unfold daysFromCivil at h
  obtain ⟨_, -, h⟩ := Option.bind_eq_some_iff.mp h
  obtain ⟨_, -, h⟩ := Option.bind_eq_some_iff.mp h
  obtain ⟨_, -, h⟩ := Option.bind_eq_some_iff.mp h
  obtain ⟨_, -, h⟩ := Option.bind_eq_some_iff.mp h
  obtain ⟨_, -, h⟩ := Option.bind_eq_some_iff.mp h
  exact Word.has_of_result h

/-- With checks, what is counted is the day number, and the sum before the last step fits too. -/
theorem checked_of_daysFromCivil (date : DayOfMonth) {n : ℤ}
    (h : daysFromCivil true date.year date.month date.day = some n) :
    n = date.dayNumber ∧ i32.Has (date.dayNumber + 719468) := by
  have hsteps : i32.Has date.marchYear ∧
      (0 ≤ date.marchYear ∨ i32.Has (date.marchYear - (400 - 1))) := by
    unfold daysFromCivil at h
    obtain ⟨year, hyear, h⟩ := Option.bind_eq_some_iff.mp h
    obtain ⟨hfits, rfl⟩ := Word.result_checked.mp hyear
    obtain ⟨era, hera, -⟩ := Option.bind_eq_some_iff.mp h
    refine ⟨hfits, Decidable.or_iff_not_imp_left.mpr fun hneg => ?_⟩
    unfold Word.floorDiv at hera
    change (if 0 ≤ date.marchYear then _ else _) = _ at hera
    rw [if_neg hneg] at hera
    obtain ⟨shifted, hshifted, -⟩ := Option.map_eq_some_iff.mp hera
    exact (Word.result_checked.mp hshifted).1
  rw [daysFromCivil_steps true date hsteps.1 hsteps.2] at h
  obtain ⟨eraDays, hera, h⟩ := Option.bind_eq_some_iff.mp h
  obtain ⟨-, rfl⟩ := Word.result_checked.mp hera
  obtain ⟨days, hdays, h⟩ := Option.bind_eq_some_iff.mp h
  rw [dayNumber_sum] at hdays
  obtain ⟨hsum, rfl⟩ := Word.result_checked.mp hdays
  obtain ⟨-, hn⟩ := Word.result_checked.mp h
  exact ⟨by omega, hsum⟩

/-- `days_from_civil` counts a date right exactly if it reaches it. -/
theorem daysFromCivil_eq_iff {overflowChecks : Bool} {date : DayOfMonth} :
    daysFromCivil overflowChecks date.year date.month date.day = some date.dayNumber ↔
      Reaches overflowChecks date.dayNumber := by
  refine ⟨fun h => ⟨has_of_daysFromCivil h, fun hchecks => ?_⟩, daysFromCivil_of_reaches date⟩
  subst hchecks
  exact (checked_of_daysFromCivil date h).2

/-! ## Back to the date -/

/-- The day number of a date with a year that `i32` has is far from the ends of `i64`. -/
theorem dayNumber_bounds {date : Date} (h : i32.Has date.year) :
    -784353734400 ≤ date.dayNumber ∧ date.dayNumber ≤ 784353734400 := by
  obtain ⟨hlo, hhi⟩ := h
  have hstart := date.yearStart_le
  have hend := date.dayNumber_lt_yearStart
  unfold yearStart at hstart hend
  simp only [i32] at hlo hhi
  constructor
  · omega
  · omega

/-- A day of an era is read back. -/
theorem civilFromDays_eraDay (overflowChecks : Bool) {n doe c q r doy : ℤ}
    (h : EraDay doe c q r doy) (hdoe : doe = (n + 719468) % 146097)
    (hn : -784353734400 ≤ n ∧ n ≤ 784353734400)
    (hyear : i32.Has (h.date ((n + 719468) / 146097)).year) :
    civilFromDays overflowChecks n =
      some ((h.date ((n + 719468) / 146097)).year, (h.date ((n + 719468) / 146097)).month,
        (h.date ((n + 719468) / 146097)).day) := by
  -- The shift to the era's start does not overflow.
  have hz : i64.Has (n + 719468) := by
    unfold Word.Has i64
    dsimp only
    omega
  have hshift : i64.Has (n + 719468 - (146097 - 1)) := by
    unfold Word.Has i64
    dsimp only
    omega
  have hrest : n + 719468 - (n + 719468) / 146097 * 146097 = doe := by omega
  have hdoe0 : 0 ≤ doe := by omega
  have hcorrected : 0 ≤ doe - doe / 1460 + doe / 36524 - doe / 146096 := by omega
  -- The corrected year of the era is the year that the day falls into.
  have hdayOfYear : doe - (365 * (100 * c + 4 * q + r) + (100 * c + 4 * q + r) / 4 -
      (100 * c + 4 * q + r) / 100) = doy := by
    have hday := h.dayOfEra
    unfold dayOfEra at hday
    omega
  have hyoe : 0 ≤ 100 * c + 4 * q + r := by
    have hcentury := h.century
    have hcycle := h.cycle
    have hlast := h.year
    omega
  -- The month and the day of the month are read off the day of the year.
  have hdoy := h.day
  have hmonths : 0 ≤ monthsOf doy ∧ monthsOf doy ≤ 11 := by
    unfold monthsOf
    omega
  have hfive : 0 ≤ 5 * doy + 2 := by omega
  have hmonth : 0 ≤ 153 * monthsOf doy + 2 := by omega
  -- What is cast to 32 bits is small.
  have hm : u32.cast (monthsOf doy + if monthsOf doy < 10 then 3 else -9) =
      monthsOf doy + if monthsOf doy < 10 then 3 else -9 := by
    refine Word.cast_of_has ?_
    unfold Word.Has u32
    dsimp only
    split_ifs <;> omega
  have hd : u32.cast (doy - (153 * monthsOf doy + 2) / 5 + 1) =
      doy - (153 * monthsOf doy + 2) / 5 + 1 := by
    refine Word.cast_of_has ?_
    unfold Word.Has u32 monthsOf
    dsimp only
    omega
  have hturn : (if monthsOf doy + (if monthsOf doy < 10 then 3 else -9) ≤ 2 then (1 : ℤ) else 0) =
      if monthsOf doy < 10 then 0 else 1 := by
    split_ifs <;> omega
  have hy : 100 * c + 4 * q + r + (n + 719468) / 146097 * 400 +
      (if monthsOf doy < 10 then 0 else 1) = (h.date ((n + 719468) / 146097)).year := by
    unfold EraDay.date
    dsimp only
    omega
  -- The code is unfolded along these facts.
  unfold civilFromDays
  dsimp only [bind]
  rw [Word.result_of_has hz, Option.bind_some, Word.floorDiv_eq (by decide) (.inr hshift),
    Option.bind_some, hrest, Int.tdiv_eq_ediv_of_nonneg hdoe0, Int.tdiv_eq_ediv_of_nonneg hdoe0,
    Int.tdiv_eq_ediv_of_nonneg hdoe0, Int.tdiv_eq_ediv_of_nonneg hcorrected, h.yearOfEra,
    Int.tdiv_eq_ediv_of_nonneg hyoe, Int.tdiv_eq_ediv_of_nonneg hyoe, hdayOfYear,
    Int.tdiv_eq_ediv_of_nonneg hfive]
  change some (i32.cast (100 * c + 4 * q + r + (n + 719468) / 146097 * 400 +
      if monthsOf doy + (if monthsOf doy < 10 then 3 else -9) ≤ 2 then (1 : ℤ) else 0),
    (u32.cast (monthsOf doy + if monthsOf doy < 10 then 3 else -9)).toNat,
    (u32.cast (doy - (153 * monthsOf doy + 2).tdiv 5 + 1)).toNat) = _
  rw [hturn, hy, Word.cast_of_has hyear, hm, Int.tdiv_eq_ediv_of_nonneg hmonth, hd]
  rfl

/-- Every day number of a year that `i32` has is read back as its date. -/
theorem civilFromDays_dayNumber {overflowChecks : Bool} {date : Date} (h : i32.Has date.year) :
    civilFromDays overflowChecks date.dayNumber = some (date.year, date.month, date.day) := by
  have hnonneg : 0 ≤ (date.dayNumber + 719468) % 146097 := Int.emod_nonneg _ (by decide)
  have hlt : (date.dayNumber + 719468) % 146097 < 146097 := Int.emod_lt_of_pos _ (by decide)
  obtain ⟨c, q, r, doy, hday⟩ := exists_eraDay hnonneg (by omega)
  have hsame : hday.date ((date.dayNumber + 719468) / 146097) = date := by
    apply Date.dayNumber_injective
    dsimp only
    rw [hday.dayNumber_date]
    omega
  have hread := civilFromDays_eraDay overflowChecks hday rfl
    (dayNumber_bounds h) (by rw [hsame]; exact h)
  rw [hsame] at hread
  exact hread

/-! ## The laws of the conversions -/

/-- The month after a month. -/
def nextMonth (year : ℤ) (month : ℕ) : ℤ × ℕ :=
  if month = 12 then (year + 1, 1) else (year, month + 1)

/-- The first day of a month. -/
def Gregorian.Date.first (year : ℤ) {month : ℕ} (h : 1 ≤ month) (h' : month ≤ 12) : Date :=
  { year, month
    day := 1
    month_pos := h
    month_le := h'
    day_pos := le_rfl
    day_le := by decide
    day_le_length := by unfold monthLength; split_ifs <;> decide }

/-- The first day of a month begins it. -/
theorem dayNumber_first (year : ℤ) {month : ℕ} (h : 1 ≤ month) (h' : month ≤ 12) :
    (Date.first year h h').dayNumber = monthStart year month := by
  simp [DayOfMonth.dayNumber, Date.first]

/-- From the first day of a month of the common era it is `days_in_month` to the next one. -/
theorem daysSinceEpoch_nextMonth {year : ℤ} {month : ℕ} (hy : 1 ≤ year) (h : 1 ≤ month)
    (h' : month ≤ 12) :
    daysSinceEpoch (nextMonth year month).1 (nextMonth year month).2 1 =
      daysSinceEpoch year month 1 + daysInMonth year month := by
  have hstart : daysSinceEpoch year month 1 = monthStart year month :=
    (daysSinceEpoch_eq (Date.first year h h') hy).trans (dayNumber_first year h h')
  rw [hstart, daysInMonth_eq h h', ← monthStart_succ year h]
  unfold nextMonth
  split
  · rename_i hlast
    have hnext := daysSinceEpoch_eq (Date.first (year + 1) le_rfl (by decide)) (by
      change 1 ≤ year + 1
      omega)
    rw [dayNumber_first, monthStart_one] at hnext
    rw [hlast, monthStart_thirteen]
    exact hnext
  · rename_i hlast
    have hnext := daysSinceEpoch_eq (Date.first year (by omega) (by omega : month + 1 ≤ 12)) hy
    rw [dayNumber_first] at hnext
    exact hnext

/-- A date is counted and read back exactly if `days_from_civil` reaches it. -/
theorem civilFromDays_daysFromCivil {overflowChecks : Bool} {date : Date}
    (h : i32.Has date.year) :
    (daysFromCivil overflowChecks date.year date.month date.day).bind
        (civilFromDays overflowChecks) = some (date.year, date.month, date.day) ↔
      Reaches overflowChecks date.dayNumber := by
  constructor
  · intro hread
    obtain ⟨n, hn, hback⟩ := Option.bind_eq_some_iff.mp hread
    -- What was counted is an `i32`, so that the date read back is the one of that day number.
    obtain ⟨date', rfl⟩ := exists_date n
    have hyear := year_of_has (has_of_daysFromCivil hn)
    rw [civilFromDays_dayNumber (by unfold Word.Has i32; dsimp only; omega)] at hback
    have hsame : date' = date := by
      have hfields := Option.some.inj hback
      exact Date.ext (congrArg Prod.fst hfields) (congrArg (fun f => f.2.1) hfields)
        (congrArg (fun f => f.2.2) hfields)
    rw [hsame] at hn
    exact daysFromCivil_eq_iff.mp hn
  · intro hreaches
    rw [daysFromCivil_of_reaches date.toDayOfMonth hreaches, Option.bind_some,
      civilFromDays_dayNumber h]

/-- For every date with a year that `i32` has: it is counted and read back, its day number is read
and counted back, and, in the common era, both sides count it alike, exactly if `days_from_civil`
reaches it. Month starts of the query side are always a month apart. -/
theorem civil_conversions (overflowChecks : Bool) :
    (∀ date : Date, i32.Has date.year →
      ((daysFromCivil overflowChecks date.year date.month date.day).bind
          (civilFromDays overflowChecks) = some (date.year, date.month, date.day) ↔
        Reaches overflowChecks date.dayNumber) ∧
      ((civilFromDays overflowChecks date.dayNumber).bind
          (fun read => daysFromCivil overflowChecks read.1 read.2.1 read.2.2) =
            some date.dayNumber ↔
        Reaches overflowChecks date.dayNumber) ∧
      (1 ≤ date.year →
        (daysFromCivil overflowChecks date.year date.month date.day =
            some (daysSinceEpoch date.year date.month date.day) ↔
          Reaches overflowChecks date.dayNumber))) ∧
    (∀ n : ℤ, yearStart i32.least ≤ n → n < yearStart (i32.least + i32.size) →
      ∃ date : Date, i32.Has date.year ∧ date.dayNumber = n) ∧
    ∀ year : ℤ, ∀ month : ℕ, 1 ≤ year → 1 ≤ month → month ≤ 12 →
      daysSinceEpoch (nextMonth year month).1 (nextMonth year month).2 1 =
        daysSinceEpoch year month 1 + daysInMonth year month := by
  refine ⟨fun date h => ⟨civilFromDays_daysFromCivil h, ?_, fun hera => ?_⟩, fun n hlo hhi => ?_,
    fun year month => daysSinceEpoch_nextMonth⟩
  · rw [civilFromDays_dayNumber h]
    exact daysFromCivil_eq_iff
  · rw [daysSinceEpoch_eq date hera]
    exact daysFromCivil_eq_iff
  -- Every day number is the number of a date, and its year is in range since years start in order.
  · obtain ⟨date, rfl⟩ := exists_date n
    refine ⟨date, ⟨?_, ?_⟩, rfl⟩
    · by_contra hlt
      have hend := yearStart_mono (Int.add_one_le_iff.mpr (not_le.mp hlt))
      exact absurd (date.dayNumber_lt_yearStart.trans_le hend) (not_lt.mpr hlo)
    · by_contra hle
      exact absurd (hhi.trans_le ((yearStart_mono (not_lt.mp hle)).trans date.yearStart_le))
        (lt_irrefl _)

/-- New Year's Day of a year that `days_from_civil` does not reach. -/
def farDate : Date := .first 6000000 le_rfl (by decide)

/-- A day there and back. -/
theorem civil_conversions_newYear :
    (daysFromCivil true 2024 1 1).bind (civilFromDays true) = some (2024, 1, 1) := by
  have hreaches : Reaches true (Date.first 2024 le_rfl (by decide : 1 ≤ 12)).dayNumber := by
    unfold Reaches
    decide +kernel
  exact ((civil_conversions true).1 (.first 2024 le_rfl (by decide)) (by decide +kernel)).1.mpr
    hreaches

/-- The era of the year 6000000 has more days than `i32` counts. -/
theorem civil_conversions_far :
    i32.Has farDate.year ∧
      ∀ overflowChecks : Bool,
        (daysFromCivil overflowChecks farDate.year farDate.month farDate.day).bind
            (civilFromDays overflowChecks) ≠ some (farDate.year, farDate.month, farDate.day) := by
  decide +kernel

end Tellodb
