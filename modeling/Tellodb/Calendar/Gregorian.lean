import Mathlib.Algebra.Order.Group.Int
import Mathlib.Order.Monotone.Basic
import Mathlib.Order.SuccPred.IntervalSucc
import Mathlib.Tactic.IntervalCases

/-!
# The Gregorian calendar

Dates of the proleptic Gregorian calendar and their day numbers, counted from 1 January 1970. A
day number is the days of the years before, of the months before and of the month. A `DayOfMonth`
may lie past the end of its month and rolls over into the next one; a `Date` is one that exists, and
its day number determines it (`dayNumber_injective`). -/

namespace Tellodb.Gregorian

/-- Every fourth year is a leap year, but of the years that end a century only every fourth. -/
def IsLeap (y : ℤ) : Prop :=
  y % 4 = 0 ∧ y % 100 ≠ 0 ∨ y % 400 = 0

instance IsLeap.decidable (y : ℤ) : Decidable (IsLeap y) :=
  inferInstanceAs (Decidable (y % 4 = 0 ∧ y % 100 ≠ 0 ∨ y % 400 = 0))

/-- The days of a month. -/
def monthLength (y : ℤ) (m : ℕ) : ℕ :=
  if m = 2 then if IsLeap y then 29 else 28
  else if m = 4 ∨ m = 6 ∨ m = 9 ∨ m = 11 then 30
  else 31

/-- A day from 1 to 31 of a month. -/
structure DayOfMonth where
  year : ℤ
  month : ℕ
  day : ℕ
  month_pos : 1 ≤ month
  month_le : month ≤ 12
  day_pos : 1 ≤ day
  day_le : day ≤ 31

/-- A date that exists. -/
@[ext] structure Date extends DayOfMonth where
  day_le_length : day ≤ monthLength year month

/-- The day number of the first day of a year. -/
def yearStart (y : ℤ) : ℤ :=
  365 * (y - 1) + (y - 1) / 4 - (y - 1) / 100 + (y - 1) / 400 - 719162

/-- The days of a year before a month. -/
def daysBefore (y : ℤ) : ℕ → ℕ
  | 0 => 0
  | m + 1 => if m = 0 then 0 else daysBefore y m + monthLength y m

/-- The day number of the first day of a month. -/
def monthStart (y : ℤ) (m : ℕ) : ℤ :=
  yearStart y + daysBefore y m

/-- The day number of a day of a month. -/
def DayOfMonth.dayNumber (date : DayOfMonth) : ℤ :=
  monthStart date.year date.month + (date.day - 1)

/-! ## Years and months -/

/-- Months are counted on. -/
theorem daysBefore_succ (y : ℤ) {m : ℕ} (hm : 1 ≤ m) :
    daysBefore y (m + 1) = daysBefore y m + monthLength y m :=
  if_neg (Nat.ne_of_gt hm)

/-- A month is as long as from its start to that of the next one. -/
theorem monthStart_succ (y : ℤ) {m : ℕ} (hm : 1 ≤ m) :
    monthStart y (m + 1) = monthStart y m + monthLength y m := by
  unfold monthStart
  rw [daysBefore_succ y hm]
  push_cast
  exact (add_assoc _ _ _).symm

/-- The first month starts the year. -/
theorem monthStart_one (y : ℤ) : monthStart y 1 = yearStart y := by
  simp [monthStart, daysBefore]

/-- Twelve months make a year. -/
theorem monthStart_thirteen (y : ℤ) : monthStart y 13 = yearStart (y + 1) := by
  have hdays : daysBefore y 13 = if IsLeap y then 366 else 365 := by
    by_cases hleap : IsLeap y
    · simp [daysBefore, monthLength, hleap]
    · simp [daysBefore, monthLength, hleap]
  unfold monthStart yearStart
  rw [hdays]
  by_cases hleap : IsLeap y
  · rw [if_pos hleap]
    unfold IsLeap at hleap
    omega
  · rw [if_neg hleap]
    unfold IsLeap at hleap
    omega

/-- Later months start later. -/
theorem monthStart_mono (y : ℤ) {m m' : ℕ} (h : m ≤ m') : monthStart y m ≤ monthStart y m' := by
  refine monotone_nat_of_le_succ (fun k => ?_) h
  rcases Nat.eq_zero_or_pos k with rfl | hk
  · exact le_rfl
  · rw [monthStart_succ y hk]
    omega

/-- So do later years. -/
theorem yearStart_mono {y y' : ℤ} (h : y ≤ y') : yearStart y ≤ yearStart y' := by
  refine monotone_int_of_le_succ (fun z => ?_) h
  rw [← monthStart_thirteen, ← monthStart_one]
  exact monthStart_mono z (by decide)

namespace DayOfMonth

/-- No day is before its month. -/
theorem monthStart_le (date : DayOfMonth) :
    monthStart date.year date.month ≤ date.dayNumber := by
  have hday := date.day_pos
  unfold dayNumber
  omega

/-- No day is before its year. -/
theorem yearStart_le (date : DayOfMonth) : yearStart date.year ≤ date.dayNumber := by
  have hmonth := monthStart_mono date.year date.month_pos
  rw [monthStart_one] at hmonth
  exact hmonth.trans date.monthStart_le

/-- A day that does not exist is a few days into the next month. -/
theorem dayNumber_lt_add (date : DayOfMonth) :
    date.dayNumber < yearStart (date.year + 1) + 31 := by
  have hday := date.day_le
  have hmonth : monthStart date.year date.month ≤ monthStart date.year 13 :=
    monthStart_mono date.year (Nat.le_succ_of_le date.month_le)
  rw [← monthStart_thirteen]
  unfold dayNumber
  omega

end DayOfMonth

namespace Date

/-- A date lies in its month. -/
theorem dayNumber_lt (date : Date) :
    date.dayNumber < monthStart date.year (date.month + 1) := by
  have hday := date.day_le_length
  rw [monthStart_succ _ date.month_pos]
  unfold DayOfMonth.dayNumber
  omega

/-- A date lies in its year. -/
theorem dayNumber_lt_yearStart (date : Date) : date.dayNumber < yearStart (date.year + 1) := by
  rw [← monthStart_thirteen]
  exact date.dayNumber_lt.trans_le (monthStart_mono _ (Nat.succ_le_succ date.month_le))

/-- Later years have larger day numbers. -/
theorem dayNumber_lt_of_year_lt {a b : Date} (h : a.year < b.year) :
    a.dayNumber < b.dayNumber :=
  calc a.dayNumber < yearStart (a.year + 1) := a.dayNumber_lt_yearStart
    _ ≤ yearStart b.year := yearStart_mono h
    _ ≤ b.dayNumber := b.yearStart_le

/-- In a year, later months have larger day numbers. -/
theorem dayNumber_lt_of_month_lt {a b : Date} (hy : a.year = b.year) (h : a.month < b.month) :
    a.dayNumber < b.dayNumber :=
  calc a.dayNumber < monthStart a.year (a.month + 1) := a.dayNumber_lt
    _ ≤ monthStart a.year b.month := monthStart_mono _ h
    _ = monthStart b.year b.month := by rw [hy]
    _ ≤ b.dayNumber := b.monthStart_le

/-- A day number determines its date. -/
theorem dayNumber_injective : Function.Injective fun date : Date => date.dayNumber := by
  intro a b h
  dsimp only at h
  have hyear : a.year = b.year := by
    rcases lt_trichotomy a.year b.year with hlt | heq | hlt
    · exact absurd h (dayNumber_lt_of_year_lt hlt).ne
    · exact heq
    · exact absurd h (dayNumber_lt_of_year_lt hlt).ne'
  have hmonth : a.month = b.month := by
    rcases lt_trichotomy a.month b.month with hlt | heq | hlt
    · exact absurd h (dayNumber_lt_of_month_lt hyear hlt).ne
    · exact heq
    · exact absurd h (dayNumber_lt_of_month_lt hyear.symm hlt).ne'
  have hday : a.day = b.day := by
    unfold DayOfMonth.dayNumber at h
    rw [hyear, hmonth] at h
    omega
  exact Date.ext hyear hmonth hday

end Date

/-! ## Eras of 400 years that begin in March -/

/-- The day of the year that begins in March, from the months since March and the day. -/
def dayOfYear (mp : ℤ) (d : ℕ) : ℤ :=
  (153 * mp + 2) / 5 + d - 1

/-- The day of the era, from its year and the day of that year. -/
def dayOfEra (yoe doy : ℤ) : ℤ :=
  yoe * 365 + yoe / 4 - yoe / 100 + doy

/-- The year that begins in March of a date, and the months since then. -/
def DayOfMonth.marchYear (date : DayOfMonth) : ℤ := date.year - if date.month ≤ 2 then 1 else 0

/-- The months since March, where the year of the era begins. -/
def DayOfMonth.monthsPast (date : DayOfMonth) : ℤ := date.month + if 2 < date.month then -3 else 9

/-- The day number, counted in eras. -/
theorem DayOfMonth.dayNumber_eq (date : DayOfMonth) :
    date.dayNumber = date.marchYear / 400 * 146097 +
      dayOfEra (date.marchYear % 400) (dayOfYear date.monthsPast date.day) - 719468 := by
  obtain ⟨y, m, d, hm, hm', -, -⟩ := date
  unfold dayNumber marchYear monthsPast monthStart dayOfEra dayOfYear yearStart
  dsimp only
  by_cases hleap : IsLeap y
  · have hdiv := hleap
    unfold IsLeap at hdiv
    interval_cases m <;> simp [daysBefore, monthLength, hleap] <;> omega
  · have hdiv := hleap
    unfold IsLeap at hdiv
    interval_cases m <;> simp [daysBefore, monthLength, hleap] <;> omega

/-- A day of an era as centuries, four-year cycles, years and days: only the last year of a cycle
has a day 365, and in the last cycle of a century only if the century is the last one. -/
structure EraDay (doe c q r doy : ℤ) : Prop where
  century : 0 ≤ c ∧ c ≤ 3
  cycle : 0 ≤ q ∧ q ≤ 24
  year : 0 ≤ r ∧ r ≤ 3
  day : 0 ≤ doy ∧ doy ≤ 365
  leap : doy = 365 → r = 3 ∧ (q = 24 → c = 3)
  eq : doe = 36524 * c + 1461 * q + 365 * r + doy

/-- Every day of an era is in one of its centuries, cycles of four years, and years. -/
theorem exists_eraDay {doe : ℤ} (h : 0 ≤ doe) (h' : doe ≤ 146096) :
    ∃ c q r doy, EraDay doe c q r doy := by
  obtain ⟨c, hc⟩ : ∃ c, c = min 3 (doe / 36524) := ⟨_, rfl⟩
  obtain ⟨q, hq⟩ : ∃ q, q = (doe - 36524 * c) / 1461 := ⟨_, rfl⟩
  obtain ⟨r, hr⟩ : ∃ r, r = min 3 ((doe - 36524 * c - 1461 * q) / 365) := ⟨_, rfl⟩
  exact ⟨c, q, r, doe - 36524 * c - 1461 * q - 365 * r, by omega, by omega, by omega, by omega,
    by omega, by omega⟩

/-- The year of the era: one day less for each cycle, one more for each century and one less for the
era make every year 365 days long. -/
theorem EraDay.yearOfEra {doe c q r doy : ℤ} (h : EraDay doe c q r doy) :
    (doe - doe / 1460 + doe / 36524 - doe / 146096) / 365 = 100 * c + 4 * q + r := by
  obtain ⟨hc, hq, hr, hday, hleap, heq⟩ := h
  have hcentury : doe / 36524 - doe / 146096 = c := by
    by_cases hlast : doe = 146096
    · omega
    · have hlt : doe < 36524 * c + 36524 := by omega
      have hera : doe / 146096 = 0 := by omega
      omega
  have hcycle : doe / 1460 = 25 * c + q + (24 * c + q + 365 * r + doy) / 1460 := by omega
  omega

/-- The day of the year is what its years leave of the era. -/
theorem EraDay.dayOfEra {doe c q r doy : ℤ} (h : EraDay doe c q r doy) :
    dayOfEra (100 * c + 4 * q + r) doy = doe := by
  obtain ⟨hc, hq, hr, hday, hleap, heq⟩ := h
  unfold Gregorian.dayOfEra
  omega

/-- The months since March. -/
def monthsOf (doy : ℤ) : ℤ := (5 * doy + 2) / 153

/-- The date of a day of an era. -/
def EraDay.date {doe c q r doy : ℤ} (h : EraDay doe c q r doy) (era : ℤ) : Date where
  year := 400 * era + (100 * c + 4 * q + r) + if monthsOf doy < 10 then 0 else 1
  month := (monthsOf doy + if monthsOf doy < 10 then 3 else -9).toNat
  day := (doy - (153 * monthsOf doy + 2) / 5 + 1).toNat
  month_pos := by
    have hday := h.day
    unfold monthsOf
    split <;> omega
  month_le := by
    have hday := h.day
    unfold monthsOf
    split <;> omega
  day_pos := by
    have hday := h.day
    unfold monthsOf
    omega
  day_le := by
    have hday := h.day
    unfold monthsOf
    omega
  day_le_length := by
    obtain ⟨hc, hq, hr, hday, hleap, heq⟩ := h
    obtain ⟨mp, hmp⟩ : ∃ mp, mp = monthsOf doy := ⟨_, rfl⟩
    rw [← hmp]
    unfold monthsOf at hmp
    have hrange : 0 ≤ mp ∧ mp ≤ 11 := by omega
    obtain ⟨hlo, hhi⟩ := hrange
    interval_cases mp <;> simp [monthLength, IsLeap] <;> omega

/-- The day number of the date of a day of an era. -/
theorem EraDay.dayNumber_date {doe c q r doy : ℤ} (h : EraDay doe c q r doy) (era : ℤ) :
    (h.date era).dayNumber = era * 146097 + doe - 719468 := by
  have hmonths : 0 ≤ monthsOf doy ∧ monthsOf doy ≤ 11 := by
    have hday := h.day
    unfold monthsOf
    omega
  -- The months count from March.
  have hpast : (h.date era).monthsPast = monthsOf doy := by
    unfold DayOfMonth.monthsPast date
    dsimp only
    split_ifs <;> omega
  have hyear : (h.date era).marchYear = 400 * era + (100 * c + 4 * q + r) := by
    unfold DayOfMonth.marchYear date
    dsimp only
    split_ifs <;> omega
  -- The day of the month is the rest after the months before.
  have hday : dayOfYear (h.date era).monthsPast (h.date era).day = doy := by
    have hrange := h.day
    rw [hpast]
    unfold dayOfYear date monthsOf
    dsimp only
    omega
  have hcentury := h.century
  have hcycle := h.cycle
  have hrest := h.year
  -- What is left is below a whole era.
  have hera : (400 * era + (100 * c + 4 * q + r)) / 400 = era := by omega
  have hyoe : (400 * era + (100 * c + 4 * q + r)) % 400 = 100 * c + 4 * q + r := by omega
  rw [DayOfMonth.dayNumber_eq, hday, hyear, hera, hyoe, h.dayOfEra]

/-- Every day number is the one of a date. -/
theorem exists_date (n : ℤ) : ∃ date : Date, date.dayNumber = n := by
  have hnonneg : 0 ≤ (n + 719468) % 146097 := Int.emod_nonneg _ (by decide)
  have hlt : (n + 719468) % 146097 < 146097 := Int.emod_lt_of_pos _ (by decide)
  obtain ⟨c, q, r, doy, h⟩ := exists_eraDay hnonneg (by omega)
  refine ⟨h.date ((n + 719468) / 146097), ?_⟩
  rw [h.dayNumber_date]
  omega

end Tellodb.Gregorian
