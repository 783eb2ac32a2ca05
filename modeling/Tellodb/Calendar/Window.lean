import Tellodb.Calendar.Dates

/-!
# Windows of time in queries

`parse_temporal_window` looks for a phrase that names a time (`phraseOf`) and computes the window of
that phrase (`Phrase.window`). Dates, months and seasons of the years that it reads stay far from
the ends of `u64`; a phrase relative to the reference time may leave it, if the reference is in the
last day that a `u64` can name or a count is large (`Phrase.Fits`). -/

namespace Tellodb

open Machine Gregorian

/-- `MILLIS_PER_DAY`. -/
def millisPerDay : ℤ := 86400000

/-- `str::contains`. -/
def containsPhrase (text : List Char) (phrase : String) : Bool :=
  text.tails.any fun rest => phrase.toList.isPrefixOf rest

/-- `month_index`. -/
def monthIndex (value : List Char) : Option ℕ :=
  monthNumber ((trimMatches (fun c => !c.isAlpha) value).map Char.toLower)

/-- `month_to_ms`. -/
def monthToMs (overflowChecks : Bool) (year : ℤ) (month day : ℕ) : Option ℤ :=
  u64.result overflowChecks (u64.cast (daysSinceEpoch year month day) * millisPerDay)

/-- A year between `MIN_YEAR` and `MAX_YEAR`. -/
def inQueryYears (year : ℤ) : Bool := 1990 ≤ year && year ≤ 2100

/-! ## The phrases -/

/-- What `parse_temporal_window` looks for, in this order. -/
inductive Phrase
  /-- A full numeric date. -/
  | date (year : ℤ) (month day : ℕ)
  /-- A season of a year, by its first and its last month. -/
  | season (year : ℤ) (startMonth endMonth : ℕ)
  | lastWeekOf (year : ℤ) (month : ℕ)
  | firstWeekOf (year : ℤ) (month : ℕ)
  | dayOf (year : ℤ) (month day : ℕ)
  | monthOf (year : ℤ) (month : ℕ)
  | yesterday
  | today
  | lastWeek
  | thisWeek
  | lastMonth
  | thisMonth
  | lastYear
  /-- The last `n` units of so many days. -/
  | lastUnits (n : ℤ) (days : ℤ)
deriving DecidableEq

/-- The numeric date that a token is, with `/` or `-` between its parts. -/
def parseNumericDate (token : List Char) : Option (ℤ × ℕ × ℕ) :=
  match token.splitOnP fun c => c == '/' || c == '-' with
  | [year, month, day] => do
    let year ← i32.parse year
    let month ← u32.parse month
    let day ← u32.parse day
    if inQueryYears year ∧ 1 ≤ month ∧ month ≤ 12 ∧ 1 ≤ day ∧ day ≤ 31 then
      some (year, month.toNat, day.toNat)
    else none
  | _ => none

/-- The first token that is a numeric date. -/
def numericDate (tokens : List (List Char)) : Option (ℤ × ℕ × ℕ) :=
  tokens.findSome? fun token =>
    parseNumericDate (trimMatches (fun c => !c.isAlphanum && c != '/' && c != '-') token)

/-- The first token whose digits are a year. -/
def yearOf (tokens : List (List Char)) : Option ℤ :=
  tokens.findSome? fun token =>
    let digits := token.filter Char.isDigit
    if digits.length = 4 then (i32.parse digits).filter inQueryYears else none

/-- The first token whose digits are a day of a month. -/
def dayOf (tokens : List (List Char)) : Option ℤ :=
  tokens.findSome? fun token =>
    let digits := token.filter Char.isDigit
    if digits.length ≤ 2 then (u32.parse digits).filter fun day => 1 ≤ day && day ≤ 31 else none

/-- The seasons, by their first and their last month. -/
def seasons : List (String × ℕ × ℕ) :=
  [("spring", 3, 5), ("summer", 6, 8), ("fall", 9, 11), ("autumn", 9, 11), ("winter", 12, 2)]

/-- `MONTHS`. -/
def fullMonthNames : List String :=
  ["january", "february", "march", "april", "may", "june", "july", "august", "september",
    "october", "november", "december"]

/-- The month that a token is, else the first one of the calendar that the text contains. -/
def foundMonth (lower : List Char) (tokens : List (List Char)) : Option ℕ :=
  (tokens.findSome? monthIndex).or ((fullMonthNames.findIdx? (containsPhrase lower)).map (· + 1))

/-- What is said of a month of a year. -/
def monthPhrase (lower : List Char) (tokens : List (List Char)) (year : ℤ) (month : ℕ) : Phrase :=
  if containsPhrase lower "last week" then .lastWeekOf year month
  else if containsPhrase lower "first week" then .firstWeekOf year month
  else match dayOf tokens with
    | some day => .dayOf year month day.toNat
    | none => .monthOf year month

/-- The season or the month that is named with a year. -/
def yearPhrase (lower : List Char) (tokens : List (List Char)) (year : ℤ) : Option Phrase :=
  match seasons.find? fun season => containsPhrase lower season.1 with
  | some season => some (.season year season.2.1 season.2.2)
  | none => (foundMonth lower tokens).map (monthPhrase lower tokens year)

/-- The last or past so many days, weeks or months, from the token at `i` on. -/
def lastUnitsAt (isAlphabetic : Char → Bool) (tokens : List (List Char)) (i : ℕ) :
    Option Phrase := do
  let word ← tokens[i]?
  if word = "last".toList ∨ word = "past".toList then
    let n ← (tokens[i + 1]?).bind u64.parse
    let unit ← (tokens[i + 2]?).map (trimMatches fun c => !isAlphabetic c)
    if "day".toList.isPrefixOf unit then some (.lastUnits n 1)
    else if "week".toList.isPrefixOf unit then some (.lastUnits n 7)
    else if "month".toList.isPrefixOf unit then some (.lastUnits n 30)
    else none
  else none

/-- The phrase that is relative to the reference time. -/
def relativePhrase (isAlphabetic : Char → Bool) (lower : List Char) (tokens : List (List Char)) :
    Option Phrase :=
  let contains := containsPhrase lower
  if contains "yesterday" then some .yesterday
  else if contains "today" then some .today
  else if contains "last week" || contains "past week" then some .lastWeek
  else if contains "this week" then some .thisWeek
  else if contains "last month" || contains "past month" then some .lastMonth
  else if contains "this month" then some .thisMonth
  else if contains "last year" || contains "past year" then some .lastYear
  else (List.range (tokens.length - 2)).findSome? (lastUnitsAt isAlphabetic tokens)

/-- The phrase that decides. -/
def phraseOf (isAlphabetic : Char → Bool) (query : List Char) : Option Phrase :=
  let lower := query.map Char.toLower
  let tokens := splitWhitespace lower
  match numericDate tokens with
  | some read => some (.date read.1 read.2.1 read.2.2)
  | none =>
    ((yearOf tokens).bind (yearPhrase lower tokens)).or (relativePhrase isAlphabetic lower tokens)

/-! ## Their windows -/

/-- From the first of two days to the end of the other one. -/
def daysWindow (overflowChecks : Bool) (year : ℤ) (month day : ℕ) (year' : ℤ) (month' day' : ℕ) :
    Option (ℤ × ℤ) := do
  let start ← monthToMs overflowChecks year month day
  let last ← monthToMs overflowChecks year' month' day'
  let stop ← u64.result overflowChecks (last + millisPerDay)
  return (start, stop)

/-- The start of the reference's day. -/
def dayStart (referenceMs : ℤ) : ℤ := referenceMs.tdiv millisPerDay * millisPerDay

/-- `saturating_sub` of `u64`. -/
def saturatingSub (a b : ℤ) : ℤ := max 0 (a - b)

/-- The window of a phrase: none if an operation overflows. -/
def Phrase.window (overflowChecks : Bool) (referenceMs : ℤ) : Phrase → Option (ℤ × ℤ)
  | date year month day =>
    let day := min day (daysInMonth year month)
    daysWindow overflowChecks year month day year month day
  | season year startMonth endMonth =>
    let endYear := if endMonth < startMonth then year + 1 else year
    daysWindow overflowChecks year startMonth 1 endYear endMonth (daysInMonth endYear endMonth)
  | lastWeekOf year month =>
    let lastDay := daysInMonth year month
    daysWindow overflowChecks year month (max (lastDay - 6) 1) year month lastDay
  | firstWeekOf year month => daysWindow overflowChecks year month 1 year month 7
  | dayOf year month day =>
    let day := min day (daysInMonth year month)
    daysWindow overflowChecks year month day year month day
  | monthOf year month =>
    daysWindow overflowChecks year month 1 year month (daysInMonth year month)
  | yesterday =>
    some (saturatingSub (dayStart referenceMs) millisPerDay, dayStart referenceMs)
  | today =>
    (u64.result overflowChecks (dayStart referenceMs + millisPerDay)).map fun stop =>
      (dayStart referenceMs, stop)
  | lastWeek => some (saturatingSub referenceMs (7 * millisPerDay), referenceMs)
  | thisWeek =>
    (u64.result overflowChecks (dayStart referenceMs + millisPerDay)).map fun stop =>
      (saturatingSub (dayStart referenceMs) (6 * millisPerDay), stop)
  | lastMonth => some (saturatingSub referenceMs (30 * millisPerDay), referenceMs)
  | thisMonth =>
    (u64.result overflowChecks (referenceMs + millisPerDay)).map fun stop =>
      (saturatingSub referenceMs (30 * millisPerDay), stop)
  | lastYear => some (saturatingSub referenceMs (365 * millisPerDay), referenceMs)
  | lastUnits n days => do
    let length ← u64.result overflowChecks (n * days)
    let length ← u64.result overflowChecks (length * millisPerDay)
    return (saturatingSub referenceMs length, referenceMs)

/-- `parse_temporal_window`: none if an operation overflows. `char::is_alphabetic` of the standard
library and the clock, read where there is no reference time, are parameters. -/
def parseTemporalWindow (isAlphabetic : Char → Bool) (overflowChecks : Bool) (now : ℤ)
    (query : List Char) (referenceTimeMs : Option ℤ) : Option (Option (ℤ × ℤ)) :=
  match phraseOf isAlphabetic query with
  | some phrase => (phrase.window overflowChecks (referenceTimeMs.getD now)).map some
  | none => some none

/-! ## What a phrase can be -/

/-- A phrase that is found names months of the calendar in the years that are read. -/
def Phrase.WellFormed : Phrase → Prop
  | date year month day => inQueryYears year ∧ 1 ≤ month ∧ month ≤ 12 ∧ 1 ≤ day
  | season year startMonth endMonth => inQueryYears year ∧ 1 ≤ startMonth ∧ startMonth ≤ 12 ∧
      1 ≤ endMonth ∧ endMonth ≤ 12
  | lastWeekOf year month => inQueryYears year ∧ 1 ≤ month ∧ month ≤ 12
  | firstWeekOf year month => inQueryYears year ∧ 1 ≤ month ∧ month ≤ 12
  | dayOf year month day => inQueryYears year ∧ 1 ≤ month ∧ month ≤ 12 ∧ 1 ≤ day
  | monthOf year month => inQueryYears year ∧ 1 ≤ month ∧ month ≤ 12
  | lastUnits n days => 0 ≤ n ∧ 1 ≤ days
  | _ => True

/-- A numeric date is a day of the calendar, in a year that a query may name. -/
theorem parseNumericDate_bounds {token : List Char} {read : ℤ × ℕ × ℕ}
    (h : parseNumericDate token = some read) : IsDay read ∧ inQueryYears read.1 = true := by
  unfold parseNumericDate at h
  split at h
  · obtain ⟨year, -, h⟩ := Option.bind_eq_some_iff.mp h
    obtain ⟨month, -, h⟩ := Option.bind_eq_some_iff.mp h
    obtain ⟨day, -, h⟩ := Option.bind_eq_some_iff.mp h
    split at h
    · rename_i hrange
      obtain ⟨hyear, hm, hm', hd, hd'⟩ := hrange
      rw [← Option.some.inj h]
      refine ⟨⟨?_, ?_, ?_, ?_⟩, hyear⟩
      · dsimp only
        omega
      · dsimp only
        omega
      · dsimp only
        omega
      · dsimp only
        omega
    · cases h
  · cases h

/-- So is the first such date among the words. -/
theorem numericDate_bounds {tokens : List (List Char)} {read : ℤ × ℕ × ℕ}
    (h : numericDate tokens = some read) : IsDay read ∧ inQueryYears read.1 = true := by
  obtain ⟨token, -, htoken⟩ := List.exists_of_findSome?_eq_some h
  exact parseNumericDate_bounds htoken

/-- The year that is found is one that a query may name. -/
theorem yearOf_bounds {tokens : List (List Char)} {year : ℤ} (h : yearOf tokens = some year) :
    inQueryYears year = true := by
  obtain ⟨token, -, htoken⟩ := List.exists_of_findSome?_eq_some h
  dsimp only at htoken
  split at htoken
  · exact (Option.filter_eq_some_iff.mp htoken).2
  · cases htoken

/-- The day that is found is positive. -/
theorem dayOf_bounds {tokens : List (List Char)} {day : ℤ} (h : dayOf tokens = some day) :
    1 ≤ day := by
  obtain ⟨token, -, htoken⟩ := List.exists_of_findSome?_eq_some h
  dsimp only at htoken
  split at htoken
  · have hrange := (Option.filter_eq_some_iff.mp htoken).2
    have hday : 1 ≤ day ∧ day ≤ 31 := by simpa using hrange
    exact hday.1
  · cases htoken

/-- The month that is found is from 1 to 12. -/
theorem foundMonth_bounds {lower : List Char} {tokens : List (List Char)} {month : ℕ}
    (h : foundMonth lower tokens = some month) : 1 ≤ month ∧ month ≤ 12 := by
  rcases Option.or_eq_some_iff.mp h with htoken | ⟨-, hname⟩
  · obtain ⟨token, -, hmonth⟩ := List.exists_of_findSome?_eq_some htoken
    exact monthNumber_bounds hmonth
  · obtain ⟨i, hi, rfl⟩ := Option.map_eq_some_iff.mp hname
    have hlt : i < fullMonthNames.length := (List.findIdx?_eq_some_iff_findIdx_eq.mp hi).1
    have hlength : fullMonthNames.length = 12 := rfl
    omega

/-- A phrase with a month has its parts in their bounds. -/
theorem wellFormed_monthPhrase {lower : List Char} {tokens : List (List Char)} {year : ℤ}
    {month : ℕ} (hyear : inQueryYears year = true) (hmonth : 1 ≤ month ∧ month ≤ 12) :
    (monthPhrase lower tokens year month).WellFormed := by
  unfold monthPhrase
  split
  · exact ⟨hyear, hmonth⟩
  · split
    · exact ⟨hyear, hmonth⟩
    · split
      · rename_i day hday
        have hpos := dayOf_bounds hday
        exact ⟨hyear, hmonth.1, hmonth.2, by omega⟩
      · exact ⟨hyear, hmonth⟩

/-- So has a phrase with a year alone. -/
theorem wellFormed_yearPhrase {lower : List Char} {tokens : List (List Char)} {year : ℤ}
    {phrase : Phrase} (hyear : inQueryYears year = true)
    (h : yearPhrase lower tokens year = some phrase) : phrase.WellFormed := by
  unfold yearPhrase at h
  split at h
  · rename_i season hseason
    rw [← Option.some.inj h]
    have hmem := List.mem_of_find?_eq_some hseason
    have hmonths : ∀ season ∈ seasons, 1 ≤ season.2.1 ∧ season.2.1 ≤ 12 ∧ 1 ≤ season.2.2 ∧
        season.2.2 ≤ 12 := by decide
    exact ⟨hyear, hmonths season hmem⟩
  · obtain ⟨month, hmonth, rfl⟩ := Option.map_eq_some_iff.mp h
    exact wellFormed_monthPhrase hyear (foundMonth_bounds hmonth)

/-- So has a number of units that are past. -/
theorem wellFormed_lastUnitsAt {isAlphabetic : Char → Bool} {tokens : List (List Char)} {i : ℕ}
    {phrase : Phrase} (h : lastUnitsAt isAlphabetic tokens i = some phrase) :
    phrase.WellFormed := by
  obtain ⟨word, -, h⟩ := Option.bind_eq_some_iff.mp h
  split at h
  · obtain ⟨n, hn, h⟩ := Option.bind_eq_some_iff.mp h
    obtain ⟨unit, -, h⟩ := Option.bind_eq_some_iff.mp h
    obtain ⟨digits, -, hparse⟩ := Option.bind_eq_some_iff.mp hn
    have hpos : 0 ≤ n := (Word.has_of_parse hparse).1
    have hunits : ∀ days : ℤ, 1 ≤ days → (Phrase.lastUnits n days).WellFormed :=
      fun days hdays => ⟨hpos, hdays⟩
    split at h
    · rw [← Option.some.inj h]
      exact hunits 1 (by decide)
    · split at h
      · rw [← Option.some.inj h]
        exact hunits 7 (by decide)
      · split at h
        · rw [← Option.some.inj h]
          exact hunits 30 (by decide)
        · cases h
  · cases h

/-- So has a phrase that is relative to the reference. -/
theorem wellFormed_relativePhrase {isAlphabetic : Char → Bool} {lower : List Char}
    {tokens : List (List Char)} {phrase : Phrase}
    (h : relativePhrase isAlphabetic lower tokens = some phrase) : phrase.WellFormed := by
  unfold relativePhrase at h
  dsimp only at h
  split_ifs at h
  all_goals first
    | (rw [← Option.some.inj h]; trivial)
    | skip
  obtain ⟨i, -, hi⟩ := List.exists_of_findSome?_eq_some h
  exact wellFormed_lastUnitsAt hi

/-- Every phrase that is found is well formed. -/
theorem wellFormed_of_phraseOf {isAlphabetic : Char → Bool} {query : List Char} {phrase : Phrase}
    (h : phraseOf isAlphabetic query = some phrase) : phrase.WellFormed := by
  unfold phraseOf at h
  dsimp only at h
  split at h
  · rename_i read hread
    obtain ⟨hday, hyear⟩ := numericDate_bounds hread
    rw [← Option.some.inj h]
    exact ⟨hyear, hday.month_pos, hday.month_le, hday.day_pos⟩
  · rcases Option.or_eq_some_iff.mp h with hphrase | ⟨-, hphrase⟩
    · obtain ⟨year, hyear, hphrase⟩ := Option.bind_eq_some_iff.mp hphrase
      exact wellFormed_yearPhrase (yearOf_bounds hyear) hphrase
    · exact wellFormed_relativePhrase hphrase

/-! ## The windows of dates -/

/-- A time of the years that are read, or of the year after them. -/
theorem monthToMs_eq (overflowChecks : Bool) (date : Date) (h : 1990 ≤ date.year)
    (h' : date.year ≤ 2101) :
    monthToMs overflowChecks date.year date.month date.day =
      some (date.dayNumber * millisPerDay) ∧
    0 ≤ date.dayNumber ∧ date.dayNumber < 100000 := by
  have hstart := date.yearStart_le
  have hend := date.dayNumber_lt_yearStart
  unfold yearStart at hstart hend
  have hdays : u64.Has date.dayNumber := by
    unfold Word.Has u64
    dsimp only
    omega
  have hms : u64.Has (date.dayNumber * millisPerDay) := by
    unfold Word.Has u64 millisPerDay
    dsimp only
    omega
  unfold monthToMs
  rw [daysSinceEpoch_eq date (by omega), Word.cast_of_has hdays, Word.result_of_has hms]
  exact ⟨rfl, by omega, by omega⟩

/-- A window from one date to the end of another one that is not earlier. -/
theorem daysWindow_eq (overflowChecks : Bool) {a b : Date} (ha : 1990 ≤ a.year)
    (ha' : a.year ≤ 2101) (hb : 1990 ≤ b.year) (hb' : b.year ≤ 2101)
    (hle : a.dayNumber ≤ b.dayNumber) :
    ∃ w, daysWindow overflowChecks a.year a.month a.day b.year b.month b.day = some w ∧
      w = (a.dayNumber * millisPerDay, (b.dayNumber + 1) * millisPerDay) ∧ w.1 ≤ w.2 := by
  obtain ⟨hstart, hpos, -⟩ := monthToMs_eq overflowChecks a ha ha'
  obtain ⟨hlast, -, hlt⟩ := monthToMs_eq overflowChecks b hb hb'
  have hsum : b.dayNumber * millisPerDay + millisPerDay = (b.dayNumber + 1) * millisPerDay := by
    rw [Int.add_mul, Int.one_mul]
  have hstop : u64.Has ((b.dayNumber + 1) * millisPerDay) := by
    unfold Word.Has u64 millisPerDay
    dsimp only
    omega
  refine ⟨_, ?_, rfl, ?_⟩
  · unfold daysWindow
    rw [hstart, hlast]
    change (u64.result overflowChecks (b.dayNumber * millisPerDay + millisPerDay)).bind _ = _
    rw [hsum, Word.result_of_has hstop]
    rfl
  · unfold millisPerDay
    dsimp only
    omega

/-- A month has 28 to 31 days. -/
theorem daysInMonth_bounds (year : ℤ) (month : ℕ) :
    28 ≤ daysInMonth year month ∧ daysInMonth year month ≤ 31 := by
  unfold daysInMonth
  split_ifs <;> omega

/-- A date of a month of the calendar. -/
def dateOf (year : ℤ) {month day : ℕ} (h : 1 ≤ month) (h' : month ≤ 12) (hd : 1 ≤ day)
    (hd' : day ≤ daysInMonth year month) : Date where
  year := year
  month := month
  day := day
  month_pos := h
  month_le := h'
  day_pos := hd
  day_le := hd'.trans (daysInMonth_bounds year month).2
  day_le_length := by
    rw [← daysInMonth_eq h h']
    exact hd'

/-- A window that ends where it starts or later. -/
def Window.Proper (outcome : Option (ℤ × ℤ)) : Prop :=
  ∃ w, outcome = some w ∧ w.1 ≤ w.2

/-- The years that a query may name, as integers. -/
theorem inQueryYears_iff {year : ℤ} : inQueryYears year = true ↔ 1990 ≤ year ∧ year ≤ 2100 := by
  simp [inQueryYears]

/-- A part of a month. -/
theorem proper_month (overflowChecks : Bool) {year : ℤ} {month a b : ℕ}
    (hyear : inQueryYears year = true) (h : 1 ≤ month) (h' : month ≤ 12) (ha : 1 ≤ a)
    (hab : a ≤ b) (hb : b ≤ daysInMonth year month) :
    Window.Proper (daysWindow overflowChecks year month a year month b) := by
  obtain ⟨hlo, hhi⟩ := inQueryYears_iff.mp hyear
  have hwindow := daysWindow_eq overflowChecks (a := dateOf year h h' ha (hab.trans hb))
    (b := dateOf year h h' (ha.trans hab) hb) hlo (by change year ≤ 2101; omega) hlo
    (by change year ≤ 2101; omega) (by unfold DayOfMonth.dayNumber dateOf; dsimp only; omega)
  obtain ⟨w, hw, -, hle⟩ := hwindow
  exact ⟨w, hw, hle⟩

/-- The months of a season, which may end in the next year. -/
theorem proper_season (overflowChecks : Bool) {year : ℤ} {startMonth endMonth : ℕ}
    (hyear : inQueryYears year = true) (hs : 1 ≤ startMonth) (hs' : startMonth ≤ 12)
    (he : 1 ≤ endMonth) (he' : endMonth ≤ 12) :
    Window.Proper ((Phrase.season year startMonth endMonth).window overflowChecks 0) := by
  obtain ⟨hlo, hhi⟩ := inQueryYears_iff.mp hyear
  -- The window is from the first day of the first month to the last day of the last one.
  have hlength := daysInMonth_bounds
  obtain ⟨first, hfirst⟩ : ∃ first, first = dateOf year hs hs' le_rfl
      (by have hstart := hlength year startMonth; omega) := ⟨_, rfl⟩
  obtain ⟨endYear, hendYear⟩ : ∃ endYear, endYear =
      if endMonth < startMonth then year + 1 else year := ⟨_, rfl⟩
  obtain ⟨last, hlast⟩ : ∃ last, last = dateOf endYear he he'
      (by have hend := hlength endYear endMonth; omega) (le_refl (daysInMonth endYear endMonth)) :=
    ⟨_, rfl⟩
  have hfirstYear : first.year = year := by rw [hfirst]; rfl
  have hfirstMonth : first.month = startMonth := by rw [hfirst]; rfl
  have hfirstDay : first.day = 1 := by rw [hfirst]; rfl
  have hlastYear : last.year = endYear := by rw [hlast]; rfl
  have hlastMonth : last.month = endMonth := by rw [hlast]; rfl
  have hlastDay : last.day = daysInMonth endYear endMonth := by rw [hlast]; rfl
  -- A season that ends in an earlier month ends in the next year.
  have hle : first.dayNumber ≤ last.dayNumber := by
    split at hendYear
    · exact (Date.dayNumber_lt_of_year_lt (by omega)).le
    · rcases Nat.lt_or_ge startMonth endMonth with hlt | hge
      · exact (Date.dayNumber_lt_of_month_lt (by omega) (by omega)).le
      · have hend := hlength endYear endMonth
        have hmonth : first.month = last.month := by omega
        have hsame : first.year = last.year := by omega
        unfold DayOfMonth.dayNumber
        rw [hsame, hmonth]
        omega
  have hrange : endYear = year ∨ endYear = year + 1 := by
    split at hendYear
    · exact .inr hendYear
    · exact .inl hendYear
  -- Both days are in range, and the first is not later.
  have hwindow := daysWindow_eq overflowChecks (a := first) (b := last) (by omega) (by omega)
    (by omega) (by omega) hle
  obtain ⟨w, hw, -, hwle⟩ := hwindow
  rw [hfirstYear, hfirstMonth, hfirstDay, hlastYear, hlastMonth, hlastDay, hendYear] at hw
  exact ⟨w, hw, hwle⟩

/-! ## The windows of phrases -/

/-- What a relative phrase asks of the reference time and of its count. -/
def Phrase.Fits (referenceMs : ℤ) : Phrase → Prop
  | today => dayStart referenceMs + millisPerDay < 2 ^ 64
  | thisWeek => dayStart referenceMs + millisPerDay < 2 ^ 64
  | thisMonth => referenceMs + millisPerDay < 2 ^ 64
  | lastUnits n days => n * days * millisPerDay < 2 ^ 64
  | _ => True

/-- A window that ends at its last sum. -/
theorem proper_of_sum {a b from_ : ℤ} (hsum : 0 ≤ a + b) (hfrom : from_ ≤ a + b) :
    Window.Proper ((u64.result true (a + b)).map fun stop => (from_, stop)) ↔ a + b < 2 ^ 64 := by
  constructor
  · rintro ⟨w, hw, -⟩
    obtain ⟨stop, hstop, -⟩ := Option.map_eq_some_iff.mp hw
    have hlt := (Word.result_checked.mp hstop).1.2
    simpa [u64] using hlt
  · intro hlt
    have hhas : u64.Has (a + b) := by
      unfold Word.Has u64
      dsimp only
      omega
    rw [Word.result_of_has hhas]
    exact ⟨_, rfl, hfrom⟩

/-- A difference is at most what it is taken from. -/
theorem saturatingSub_le {a b : ℤ} (ha : 0 ≤ a) (hb : 0 ≤ b) : saturatingSub a b ≤ a := by
  unfold saturatingSub
  omega

/-- A day starts between zero and its moments. -/
theorem dayStart_bounds {referenceMs : ℤ} (h : 0 ≤ referenceMs) :
    0 ≤ dayStart referenceMs ∧ dayStart referenceMs ≤ referenceMs := by
  unfold dayStart millisPerDay
  rw [Int.tdiv_eq_ediv_of_nonneg h]
  omega

/-- The last so many units before the reference. -/
theorem proper_lastUnits {referenceMs n days : ℤ} (h : 0 ≤ referenceMs) (hn : 0 ≤ n)
    (hdays : 1 ≤ days) :
    Window.Proper ((Phrase.lastUnits n days).window true referenceMs) ↔
      n * days * millisPerDay < 2 ^ 64 := by
  have hpos : 0 ≤ n * days := Int.mul_nonneg hn (by omega)
  have hms : 0 ≤ n * days * millisPerDay := by
    unfold millisPerDay
    omega
  constructor
  · rintro ⟨w, hw, -⟩
    -- A window means that both products fit.
    obtain ⟨length, hlength, hw⟩ := Option.bind_eq_some_iff.mp hw
    obtain ⟨-, rfl⟩ := Word.result_checked.mp hlength
    obtain ⟨length', hlength', -⟩ := Option.bind_eq_some_iff.mp hw
    have hlt := (Word.result_checked.mp hlength').1.2
    simpa [u64] using hlt
  · intro hlt
    -- If the product of both fits, so does the first one.
    have hcount : u64.Has (n * days) := by
      unfold millisPerDay at hlt
      unfold Word.Has u64
      dsimp only
      omega
    have hlength : u64.Has (n * days * millisPerDay) := by
      unfold Word.Has u64
      dsimp only
      omega
    refine ⟨(saturatingSub referenceMs (n * days * millisPerDay), referenceMs), ?_,
      saturatingSub_le h hms⟩
    change (u64.result true (n * days)).bind (fun length =>
      (u64.result true (length * millisPerDay)).bind fun length =>
        some (saturatingSub referenceMs length, referenceMs)) = _
    rw [Word.result_of_has hcount, Option.bind_some, Word.result_of_has hlength, Option.bind_some]

/-- A window is computed without overflow, and ends where it starts or later, exactly if its phrase
fits. -/
theorem proper_window_iff {phrase : Phrase} (hphrase : phrase.WellFormed) {referenceMs : ℤ}
    (h : u64.Has referenceMs) :
    Window.Proper (phrase.window true referenceMs) ↔ phrase.Fits referenceMs := by
  have hpos : 0 ≤ referenceMs := h.1
  obtain ⟨hday, hdayLe⟩ := dayStart_bounds hpos
  have hmillis : 0 ≤ millisPerDay := by decide
  have hlength := daysInMonth_bounds
  -- Phrases that name a month or a day have proper windows in all years of a query.
  cases phrase with
  | date year month day =>
    obtain ⟨hyear, hm, hm', hd⟩ := hphrase
    have hdays := hlength year month
    exact iff_of_true (proper_month true hyear hm hm' (by omega) le_rfl (by omega)) trivial
  | season year startMonth endMonth =>
    obtain ⟨hyear, hs, hs', he, he'⟩ := hphrase
    exact iff_of_true (proper_season true hyear hs hs' he he') trivial
  | lastWeekOf year month =>
    obtain ⟨hyear, hm, hm'⟩ := hphrase
    have hdays := hlength year month
    exact iff_of_true (proper_month true hyear hm hm' (by omega) (by omega) le_rfl) trivial
  | firstWeekOf year month =>
    obtain ⟨hyear, hm, hm'⟩ := hphrase
    have hdays := hlength year month
    exact iff_of_true (proper_month true hyear hm hm' le_rfl (by omega) (by omega)) trivial
  | dayOf year month day =>
    obtain ⟨hyear, hm, hm', hd⟩ := hphrase
    have hdays := hlength year month
    exact iff_of_true (proper_month true hyear hm hm' (by omega) le_rfl (by omega)) trivial
  | monthOf year month =>
    obtain ⟨hyear, hm, hm'⟩ := hphrase
    have hdays := hlength year month
    exact iff_of_true (proper_month true hyear hm hm' le_rfl (by omega) le_rfl) trivial
  -- Those that count back from the reference saturate, and the others must not overflow.
  | yesterday => exact iff_of_true ⟨_, rfl, saturatingSub_le hday hmillis⟩ trivial
  | today => exact proper_of_sum (by omega) (by omega)
  | lastWeek => exact iff_of_true ⟨_, rfl, saturatingSub_le hpos (by decide)⟩ trivial
  | thisWeek =>
    have hback := saturatingSub_le (b := 6 * millisPerDay) hday (by decide)
    exact proper_of_sum (by omega) (by omega)
  | lastMonth => exact iff_of_true ⟨_, rfl, saturatingSub_le hpos (by decide)⟩ trivial
  | thisMonth =>
    have hback := saturatingSub_le (b := 30 * millisPerDay) hpos (by decide)
    exact proper_of_sum (by omega) (by omega)
  | lastYear => exact iff_of_true ⟨_, rfl, saturatingSub_le hpos (by decide)⟩ trivial
  | lastUnits n days => exact proper_lastUnits hpos hphrase.1 hphrase.2

/-- For every query and every reference time: the bounds are computed without overflow and are in
order exactly if the phrase that decides, if there is one, fits. -/
theorem parseTemporalWindow_iff (isAlphabetic : Char → Bool) (now : ℤ) (query : List Char)
    (referenceTimeMs : Option ℤ) (h : u64.Has (referenceTimeMs.getD now)) :
    (∃ result, parseTemporalWindow isAlphabetic true now query referenceTimeMs = some result ∧
        ∀ w, result = some w → w.1 ≤ w.2) ↔
      ∀ phrase, phraseOf isAlphabetic query = some phrase →
        phrase.Fits (referenceTimeMs.getD now) := by
  unfold parseTemporalWindow
  cases hphrase : phraseOf isAlphabetic query with
  | none =>
    refine ⟨fun _ phrase hnone => (by cases hnone), fun _ => ⟨none, rfl, fun w hw => ?_⟩⟩
    cases hw
  | some phrase =>
    have hproper := proper_window_iff (wellFormed_of_phraseOf hphrase) h
    constructor
    · rintro ⟨result, hresult, hle⟩ phrase' hphrase'
      obtain rfl := Option.some.inj hphrase'
      obtain ⟨w, hw, rfl⟩ := Option.map_eq_some_iff.mp hresult
      exact hproper.mp ⟨w, hw, hle w rfl⟩
    · intro hfits
      obtain ⟨w, hw, hle⟩ := hproper.mpr (hfits phrase rfl)
      refine ⟨some w, ?_, fun w' hw' => ?_⟩
      · dsimp only
        rw [hw, Option.map_some]
      · rw [← Option.some.inj hw']
        exact hle

/-- The theorem at a query for the past five days. -/
theorem parseTemporalWindow_fiveDays :
    u64.Has 1700000000000 ∧
      ((∃ result, parseTemporalWindow Char.isAlpha true 0 "past 5 days".toList
          (some 1700000000000) = some result ∧ ∀ w, result = some w → w.1 ≤ w.2) ↔
        ∀ phrase, phraseOf Char.isAlpha "past 5 days".toList = some phrase →
          phrase.Fits 1700000000000) := by
  have hreference : u64.Has 1700000000000 := by decide
  exact ⟨hreference, parseTemporalWindow_iff Char.isAlpha 0 "past 5 days".toList
    (some 1700000000000) hreference⟩

/-- A count with more days than `u64` has milliseconds for. -/
theorem parseTemporalWindow_manyDays :
    ¬ ∃ result, parseTemporalWindow Char.isAlpha true 0 "past 999999999999 days".toList
      (some 1700000000000) = some result ∧ ∀ w, result = some w → w.1 ≤ w.2 := by
  have hnone : parseTemporalWindow Char.isAlpha true 0 "past 999999999999 days".toList
      (some 1700000000000) = none := by
    decide +kernel
  rintro ⟨result, hresult, -⟩
  rw [hnone] at hresult
  cases hresult

end Tellodb
