import Tellodb.Calendar.Civil
import Tellodb.Core.Text

/-!
# Dates in ingested text

`parse_date_to_epoch_ms` reads the first date in a text: a token in the ISO form, else the name of a
month with the numbers next to it, else a lone year. Only the name of a month takes its year from
the reference time, which a client chooses freely, and only that year can be out of reach
(`parseDateToEpochMs_iff`). -/

namespace Tellodb

open Machine Gregorian

/-- `epoch_ms_from_ymd`: none if a day number overflows, no time for no day or one before 1970. -/
def epochMsFromYmd (overflowChecks : Bool) (year : ℤ) (month day : ℕ) : Option (Option ℤ) :=
  if 1 ≤ month ∧ month ≤ 12 ∧ 1 ≤ day ∧ day ≤ 31 then
    (daysFromCivil overflowChecks year month day).bind fun days =>
      if days < 0 then some none
      else (u64.result overflowChecks (days * 86400000)).map some
  else some none

/-- `civil_from_epoch_ms`. -/
def civilFromEpochMs (overflowChecks : Bool) (ms : ℤ) : Option (ℤ × ℕ × ℕ) :=
  civilFromDays overflowChecks (i64.cast (ms.tdiv 86400000))

/-- `parse_iso_date`. -/
def parseIsoDate (token : List Char) : Option (ℤ × ℕ × ℕ) :=
  match token.splitOn '-' with
  | [year, month, day] => do
    let year ← i32.parse year
    let month ← u32.parse month
    let day ← u32.parse day
    if 1900 ≤ year ∧ year ≤ 2200 ∧ 1 ≤ month ∧ month ≤ 12 ∧ 1 ≤ day ∧ day ≤ 31 then
      some (year, month.toNat, day.toNat)
    else none
  | _ => none

/-- The names of the months and their short forms. -/
def monthNames : List (List String) :=
  [["jan", "january"], ["feb", "february"], ["mar", "march"], ["apr", "april"], ["may"],
    ["jun", "june"], ["jul", "july"], ["aug", "august"], ["sep", "sept", "september"],
    ["oct", "october"], ["nov", "november"], ["dec", "december"]]

/-- `month_number`. -/
def monthNumber (token : List Char) : Option ℕ :=
  (monthNames.findIdx? fun names => names.contains (String.ofList token)).map (· + 1)

/-- The first token of the text in the ISO form. -/
def isoDate (text : List Char) : Option (ℤ × ℕ × ℕ) :=
  (splitWhitespace text).findSome? fun raw =>
    parseIsoDate (trimMatches (fun c => !c.isAlphanum && c != '-') raw)

/-- The words that the other forms are read from. -/
def dateWords (text : List Char) : List (List Char) :=
  ((text.splitOnP fun c => !c.isAlphanum).filter fun token => !token.isEmpty).map fun token =>
    token.map Char.toLower

/-- A year that is taken as one. -/
def inYears (year : ℤ) : Bool := 1900 ≤ year && year ≤ 2200

/-- What the numbers next to the name of a month say. -/
structure NumericPart where
  day : ℤ
  year : ℤ
  explicit : Bool

/-- The numbers after the name of a month at `idx`: a day, perhaps with a year, or a year. -/
def numbersAfter (words : List (List Char)) (referenceYear : ℤ) (idx : ℕ) : NumericPart :=
  match (words[idx + 1]?).bind u32.parse with
  | none => ⟨1, referenceYear, false⟩
  | some parsedDay =>
    if 1 ≤ parsedDay ∧ parsedDay ≤ 31 then
      ⟨parsedDay, (((words[idx + 2]?).bind i32.parse).filter inYears).getD referenceYear, true⟩
    else if inYears (i32.cast parsedDay) then ⟨1, i32.cast parsedDay, true⟩
    else ⟨1, referenceYear, false⟩

/-- A day before the name of the month takes precedence. -/
def numericPart (words : List (List Char)) (referenceYear : ℤ) (idx : ℕ) : NumericPart :=
  match if 0 < idx then (words[idx - 1]?).bind u32.parse else none with
  | none => numbersAfter words referenceYear idx
  | some prevDay =>
    if 1 ≤ prevDay ∧ prevDay ≤ 31 then
      { numbersAfter words referenceYear idx with day := prevDay, explicit := true }
    else numbersAfter words referenceYear idx

/-- The date at the name of a month, where `may` needs a number to be one. -/
def monthDateAt (words : List (List Char)) (referenceYear : ℤ) (idx : ℕ) :
    Option (ℤ × ℕ × ℕ) := do
  let token ← words[idx]?
  let month ← monthNumber token
  let part := numericPart words referenceYear idx
  if token = "may".toList ∧ part.explicit = false then none
  else some (part.year, month, part.day.toNat)

/-- The first name of a month with its numbers. -/
def monthDate (words : List (List Char)) (referenceYear : ℤ) : Option (ℤ × ℕ × ℕ) :=
  (List.range words.length).findSome? (monthDateAt words referenceYear)

/-- The first word that is a year, for its first day. -/
def loneYear (words : List (List Char)) : Option (ℤ × ℕ × ℕ) :=
  words.findSome? fun token =>
    if token.length = 4 then ((i32.parse token).filter inYears).map fun year => (year, 1, 1)
    else none

/-- `parse_date_to_epoch_ms`: none if an operation overflows. -/
def parseDateToEpochMs (overflowChecks : Bool) (text : List Char) (referenceMs : ℤ) :
    Option (Option ℤ) :=
  match isoDate text with
  | some read => epochMsFromYmd overflowChecks read.1 read.2.1 read.2.2
  | none =>
    if (dateWords text).isEmpty then some none
    else (civilFromEpochMs overflowChecks referenceMs).bind fun reference =>
      match (monthDate (dateWords text) reference.1).or (loneYear (dateWords text)) with
      | some read => epochMsFromYmd overflowChecks read.1 read.2.1 read.2.2
      | none => some none

/-! ## What is read -/

/-- A reading names a day from 1 to 31 of a month. -/
structure IsDay (read : ℤ × ℕ × ℕ) : Prop where
  month_pos : 1 ≤ read.2.1
  month_le : read.2.1 ≤ 12
  day_pos : 1 ≤ read.2.2
  day_le : read.2.2 ≤ 31

/-- The day that a reading names. -/
def IsDay.day {read : ℤ × ℕ × ℕ} (h : IsDay read) : DayOfMonth :=
  ⟨read.1, read.2.1, read.2.2, h.month_pos, h.month_le, h.day_pos, h.day_le⟩

/-- The day number of a reading. A day past the end of its month rolls over. -/
def dayNumberOf (read : ℤ × ℕ × ℕ) : ℤ :=
  monthStart read.1 read.2.1 + (read.2.2 - 1)

/-- A day that is read has the number that is computed from it. -/
theorem IsDay.dayNumber_day {read : ℤ × ℕ × ℕ} (h : IsDay read) :
    h.day.dayNumber = dayNumberOf read := rfl

/-- What a date in the ISO form can be. -/
theorem isDay_of_parseIsoDate {token : List Char} {read : ℤ × ℕ × ℕ}
    (h : parseIsoDate token = some read) : IsDay read ∧ inYears read.1 = true := by
  unfold parseIsoDate at h
  split at h
  · obtain ⟨year, -, h⟩ := Option.bind_eq_some_iff.mp h
    obtain ⟨month, -, h⟩ := Option.bind_eq_some_iff.mp h
    obtain ⟨day, -, h⟩ := Option.bind_eq_some_iff.mp h
    split at h
    · rename_i hrange
      obtain ⟨hy, hy', hm, hm', hd, hd'⟩ := hrange
      rw [← Option.some.inj h]
      refine ⟨⟨?_, ?_, ?_, ?_⟩, ?_⟩
      · dsimp only
        omega
      · dsimp only
        omega
      · dsimp only
        omega
      · dsimp only
        omega
      · simp [inYears, hy, hy']
    · cases h
  · cases h

/-- A date with hyphens is a day of the calendar, in a year that is allowed. -/
theorem isDay_of_isoDate {text : List Char} {read : ℤ × ℕ × ℕ} (h : isoDate text = some read) :
    IsDay read ∧ inYears read.1 = true := by
  obtain ⟨raw, -, hraw⟩ := List.exists_of_findSome?_eq_some h
  exact isDay_of_parseIsoDate hraw

/-- The number of a month is from 1 to 12. -/
theorem monthNumber_bounds {token : List Char} {month : ℕ} (h : monthNumber token = some month) :
    1 ≤ month ∧ month ≤ 12 := by
  obtain ⟨i, hi, rfl⟩ := Option.map_eq_some_iff.mp h
  have hlt : i < monthNames.length := (List.findIdx?_eq_some_iff_findIdx_eq.mp hi).1
  have hlength : monthNames.length = 12 := rfl
  omega

/-- The numbers next to the name of a month give a day, and a year or none. -/
theorem numbersAfter_bounds (words : List (List Char)) (referenceYear : ℤ) (idx : ℕ) :
    1 ≤ (numbersAfter words referenceYear idx).day ∧
      (numbersAfter words referenceYear idx).day ≤ 31 ∧
      (inYears (numbersAfter words referenceYear idx).year = true ∨
        (numbersAfter words referenceYear idx).year = referenceYear) := by
  have one_le : (1 : ℤ) ≤ 31 := by decide
  unfold numbersAfter
  split
  · exact ⟨le_rfl, one_le, .inr rfl⟩
  · split
    · rename_i hday
      refine ⟨hday.1, hday.2, ?_⟩
      dsimp only
      cases hafter : ((words[idx + 2]?).bind i32.parse).filter inYears with
      | none => exact .inr rfl
      | some after => exact .inl (Option.filter_eq_some_iff.mp hafter).2
    · split
      · rename_i hyear
        exact ⟨le_rfl, one_le, .inl hyear⟩
      · exact ⟨le_rfl, one_le, .inr rfl⟩

/-- The parts of a numeric date are a day from 1 to 31 and a year that is allowed or that of the
reference. -/
theorem numericPart_bounds (words : List (List Char)) (referenceYear : ℤ) (idx : ℕ) :
    1 ≤ (numericPart words referenceYear idx).day ∧
      (numericPart words referenceYear idx).day ≤ 31 ∧
      (inYears (numericPart words referenceYear idx).year = true ∨
        (numericPart words referenceYear idx).year = referenceYear) := by
  have hafter := numbersAfter_bounds words referenceYear idx
  unfold numericPart
  split
  · exact hafter
  · split
    · rename_i hday
      exact ⟨hday.1, hday.2, hafter.2.2⟩
    · exact hafter

/-- What a date at the name of a month can be. -/
theorem isDay_of_monthDate {words : List (List Char)} {referenceYear : ℤ} {read : ℤ × ℕ × ℕ}
    (h : monthDate words referenceYear = some read) :
    IsDay read ∧ (inYears read.1 = true ∨ read.1 = referenceYear) := by
  obtain ⟨idx, -, hat⟩ := List.exists_of_findSome?_eq_some h
  obtain ⟨token, -, hat⟩ := Option.bind_eq_some_iff.mp hat
  obtain ⟨month, hmonth, hat⟩ := Option.bind_eq_some_iff.mp hat
  obtain ⟨hday, hday', hyear⟩ := numericPart_bounds words referenceYear idx
  obtain ⟨hm, hm'⟩ := monthNumber_bounds hmonth
  dsimp only at hat
  split at hat
  · cases hat
  · rw [← Option.some.inj hat]
    refine ⟨⟨hm, hm', ?_, ?_⟩, hyear⟩
    · dsimp only
      omega
    · dsimp only
      omega

/-- A year alone stands for its first day. -/
theorem isDay_of_loneYear {words : List (List Char)} {read : ℤ × ℕ × ℕ}
    (h : loneYear words = some read) : IsDay read ∧ inYears read.1 = true := by
  obtain ⟨token, -, htoken⟩ := List.exists_of_findSome?_eq_some h
  split at htoken
  · obtain ⟨year, hyear, rfl⟩ := Option.map_eq_some_iff.mp htoken
    have one_le : 1 ≤ 31 := by decide
    exact ⟨⟨le_rfl, Nat.le_add_left 1 11, le_rfl, one_le⟩, (Option.filter_eq_some_iff.mp hyear).2⟩
  · cases htoken

/-! ## What is computed -/

/-- The years that texts name are within reach. -/
theorem reaches_of_inYears {read : ℤ × ℕ × ℕ} (h : IsDay read) (hyear : inYears read.1 = true)
    (overflowChecks : Bool) : Reaches overflowChecks (dayNumberOf read) := by
  have hstart := h.day.yearStart_le
  have hend := h.day.dayNumber_lt_add
  have hrange : 1900 ≤ read.1 ∧ read.1 ≤ 2200 := by simpa [inYears] using hyear
  have hday : h.day.year = read.1 := rfl
  rw [h.dayNumber_day, hday] at hstart hend
  unfold yearStart at hstart hend
  unfold Reaches Word.Has i32
  dsimp only
  constructor
  · omega
  · intro _
    omega

/-- The time of a day within reach, if it is not before 1970. -/
theorem epochMsFromYmd_of_reaches {read : ℤ × ℕ × ℕ} (h : IsDay read) {overflowChecks : Bool}
    (hreaches : Reaches overflowChecks (dayNumberOf read)) :
    epochMsFromYmd overflowChecks read.1 read.2.1 read.2.2 =
      some (if dayNumberOf read < 0 then none else some (dayNumberOf read * 86400000)) := by
  have hdays : daysFromCivil overflowChecks read.1 read.2.1 read.2.2 = some (dayNumberOf read) :=
    daysFromCivil_of_reaches h.day hreaches
  unfold epochMsFromYmd
  rw [if_pos ⟨h.month_pos, h.month_le, h.day_pos, h.day_le⟩, hdays, Option.bind_some]
  split
  · rfl
  · rename_i hnonneg
    have hlt := hreaches.1.2
    have hms : u64.Has (dayNumberOf read * 86400000) := by
      simp only [i32] at hlt
      unfold Word.Has u64
      dsimp only
      omega
    rw [Word.result_of_has hms, Option.map_some]

/-- With checks, no time is computed of a day out of reach. -/
theorem reaches_of_epochMsFromYmd {read : ℤ × ℕ × ℕ} (h : IsDay read) {result : Option ℤ}
    (hresult : epochMsFromYmd true read.1 read.2.1 read.2.2 = some result) :
    Reaches true (dayNumberOf read) := by
  unfold epochMsFromYmd at hresult
  rw [if_pos ⟨h.month_pos, h.month_le, h.day_pos, h.day_le⟩] at hresult
  obtain ⟨n, hn, -⟩ := Option.bind_eq_some_iff.mp hresult
  obtain ⟨hsame, hsum⟩ := checked_of_daysFromCivil h.day hn
  rw [← h.dayNumber_day]
  refine ⟨?_, fun _ => hsum⟩
  rw [← hsame]
  exact has_of_daysFromCivil hn

/-- Every time of a `u64` is read as a date that exists. -/
theorem civilFromEpochMs_eq (overflowChecks : Bool) {ms : ℤ} (h : u64.Has ms) :
    ∃ date : Date, civilFromEpochMs overflowChecks ms = some (date.year, date.month, date.day) ∧
      date.dayNumber = ms / 86400000 ∧ 1970 ≤ date.year := by
  obtain ⟨date, hdate⟩ := exists_date (ms / 86400000)
  obtain ⟨hlo, hhi⟩ := h
  simp only [u64] at hlo hhi
  have hstart := date.yearStart_le
  have hend := date.dayNumber_lt_yearStart
  unfold yearStart at hstart hend
  have hyear : i32.Has date.year := by
    unfold Word.Has i32
    dsimp only
    omega
  have hcast : i64.cast (ms.tdiv 86400000) = date.dayNumber := by
    rw [Int.tdiv_eq_ediv_of_nonneg hlo, hdate]
    refine Word.cast_of_has ?_
    unfold Word.Has i64
    dsimp only
    omega
  refine ⟨date, ?_, hdate, by omega⟩
  unfold civilFromEpochMs
  rw [hcast, civilFromDays_dayNumber hyear]

/-- A time is the start of a day, and that day is read back as a date that exists. -/
def StartsDay (overflowChecks : Bool) (ms : ℤ) : Prop :=
  ∃ date : Date, civilFromEpochMs overflowChecks ms = some (date.year, date.month, date.day) ∧
    ms = 86400000 * date.dayNumber

/-- Nothing overflows, and the time that is given, if one is, starts a day. -/
def GivesDay (outcome : Option (Option ℤ)) : Prop :=
  ∃ result, outcome = some result ∧ ∀ ms, result = some ms → StartsDay true ms

/-- The time of a day within reach starts that day. -/
theorem givesDay_of_reaches {read : ℤ × ℕ × ℕ} (h : IsDay read)
    (hreaches : Reaches true (dayNumberOf read)) :
    GivesDay (epochMsFromYmd true read.1 read.2.1 read.2.2) := by
  rw [epochMsFromYmd_of_reaches h hreaches]
  refine ⟨_, rfl, fun ms hms => ?_⟩
  split at hms
  · cases hms
  · rename_i hnonneg
    have hlt := hreaches.1.2
    simp only [i32] at hlt
    obtain rfl := Option.some.inj hms
    have hms : u64.Has (dayNumberOf read * 86400000) := by
      unfold Word.Has u64
      dsimp only
      omega
    obtain ⟨date, hread, hday, -⟩ := civilFromEpochMs_eq true hms
    exact ⟨date, hread, by omega⟩

/-- The year of a month that is named without one comes from the reference: if it is within reach,
so is the date. -/
theorem reaches_of_monthDate {words : List (List Char)} {reference : ℤ} {read : ℤ × ℕ × ℕ}
    (h : monthDate words reference = some read) (hreference : 1970 ≤ reference)
    (hlt : dayNumberOf read + 719468 < 2 ^ 31) : Reaches true (dayNumberOf read) := by
  obtain ⟨hday, hyear⟩ := isDay_of_monthDate h
  have hstart := hday.day.yearStart_le
  have hread : hday.day.year = read.1 := rfl
  have hlate : 1900 ≤ read.1 := by
    rcases hyear with hyear | hyear
    · have hrange : 1900 ≤ read.1 ∧ read.1 ≤ 2200 := by simpa [inYears] using hyear
      exact hrange.1
    · omega
  rw [hday.dayNumber_day, hread] at hstart
  unfold yearStart at hstart
  unfold Reaches Word.Has i32
  dsimp only
  constructor
  · omega
  · intro _
    omega

/-- For every text and reference time, the reference is read as a date that exists, and the text is
read without overflow and as a day that exists exactly if the date at the name of a month, where the
text has no date in the ISO form, is within reach. -/
theorem parseDateToEpochMs_iff (text : List Char) (referenceMs : ℤ) (h : u64.Has referenceMs) :
    ∃ reference : Date,
      civilFromEpochMs true referenceMs =
        some (reference.year, reference.month, reference.day) ∧
      (GivesDay (parseDateToEpochMs true text referenceMs) ↔
        (isoDate text = none → ∀ read, monthDate (dateWords text) reference.year = some read →
          dayNumberOf read + 719468 < 2 ^ 31)) := by
  obtain ⟨reference, hreference, -, hyear⟩ := civilFromEpochMs_eq true h
  refine ⟨reference, hreference, ?_⟩
  unfold parseDateToEpochMs
  cases hiso : isoDate text with
  -- An ISO date is in the years that the day count reaches.
  | some read =>
    obtain ⟨hday, hread⟩ := isDay_of_isoDate hiso
    have hgives := givesDay_of_reaches hday (reaches_of_inYears hday hread true)
    exact ⟨fun _ hnone => (by cases hnone), fun _ => hgives⟩
  | none =>
    rw [hreference]
    dsimp only [Option.bind_some]
    -- Without words there is no other date.
    by_cases hempty : (dateWords text).isEmpty = true
    · rw [if_pos hempty]
      have hwords : dateWords text = [] := List.isEmpty_iff.mp hempty
      refine ⟨fun _ _ read hread => ?_, fun _ => ⟨none, rfl, fun ms hms => by cases hms⟩⟩
      rw [hwords] at hread
      cases hread
    · rw [if_neg hempty]
      cases hmonth : monthDate (dateWords text) reference.year with
      | some read =>
        have hday := (isDay_of_monthDate hmonth).1
        rw [Option.some_or]
        constructor
        -- A month date may have a year beyond the reach of the day count.
        · rintro ⟨result, hresult, -⟩ - read' hread'
          rw [← Option.some.inj hread']
          have hlt := ((reaches_of_epochMsFromYmd hday hresult).2 rfl).2
          simp only [i32] at hlt
          omega
        · intro hlt
          exact givesDay_of_reaches hday (reaches_of_monthDate hmonth hyear (hlt rfl read rfl))
      | none =>
        rw [Option.none_or]
        refine ⟨fun _ _ read hread => (by cases hread), fun _ => ?_⟩
        cases hlone : loneYear (dateWords text) with
        | none => exact ⟨none, rfl, fun ms hms => by cases hms⟩
        -- A lone year has four digits.
        | some read =>
          obtain ⟨hday, hread⟩ := isDay_of_loneYear hlone
          exact givesDay_of_reaches hday (reaches_of_inYears hday hread true)

/-- The theorem at a day in June without a year. -/
theorem parseDateToEpochMs_june :
    u64.Has 1718409600000 ∧ ∃ reference : Date,
      civilFromEpochMs true 1718409600000 =
        some (reference.year, reference.month, reference.day) ∧
      (GivesDay (parseDateToEpochMs true "June 3".toList 1718409600000) ↔
        (isoDate "June 3".toList = none →
          ∀ read, monthDate (dateWords "June 3".toList) reference.year = some read →
            dayNumberOf read + 719468 < 2 ^ 31)) := by
  have hreference : u64.Has 1718409600000 := by decide
  exact ⟨hreference, parseDateToEpochMs_iff "June 3".toList 1718409600000 hreference⟩

/-- With the largest reference time, a month without a year overflows. -/
theorem parseDateToEpochMs_far :
    u64.Has (2 ^ 64 - 1) ∧ ¬ GivesDay (parseDateToEpochMs true "January 5".toList (2 ^ 64 - 1)) := by
  have hnone : parseDateToEpochMs true "January 5".toList (2 ^ 64 - 1) = none := by
    decide +kernel
  refine ⟨by decide, fun hgives => ?_⟩
  obtain ⟨result, hresult, -⟩ := hgives
  rw [hnone] at hresult
  cases hresult

end Tellodb
