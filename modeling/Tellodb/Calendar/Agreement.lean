import Tellodb.Calendar.Window

/-!
# Dates that both sides read

The query side reads the first token that is a numeric date, with `/` or `-` between its parts, and
cuts its day to the length of the month. The ingest side reads the first token in the ISO form, with
`-` only and in more years, and lets a day past the end of its month roll over; without such a token
it goes on to the names of months and to lone years. `numericDate_inside_iff` says when the time of
the one is inside the window of the other. -/

namespace Tellodb

open Machine Gregorian

/-- The date that the ingest side reads. -/
def ingestDate (text : List Char) (referenceYear : ℤ) : Option (ℤ × ℕ × ℕ) :=
  (isoDate text).or ((monthDate (dateWords text) referenceYear).or (loneYear (dateWords text)))

/-- The numeric date that the query side reads. -/
def queryDate (text : List Char) : Option (ℤ × ℕ × ℕ) :=
  numericDate (splitWhitespace (text.map Char.toLower))

/-- A date whose day is cut to the length of its month. -/
def cutDay (read : ℤ × ℕ × ℕ) : ℤ × ℕ × ℕ :=
  (read.1, read.2.1, min read.2.2 (daysInMonth read.1 read.2.1))

/-- The ingest side reads a time that is inside the query side's window. -/
def Inside (time : Option (Option ℤ)) (window : Option (Option (ℤ × ℤ))) : Prop :=
  ∃ ms w, time = some (some ms) ∧ window = some (some w) ∧ w.1 ≤ ms ∧ ms < w.2

/-- What the ingest side computes of the date that it reads. -/
theorem parseDateToEpochMs_eq {text : List Char} {referenceMs : ℤ} {reference : Date}
    (h : civilFromEpochMs true referenceMs =
      some (reference.year, reference.month, reference.day)) :
    parseDateToEpochMs true text referenceMs =
      ((ingestDate text reference.year).map fun read =>
        epochMsFromYmd true read.1 read.2.1 read.2.2).getD (some none) := by
  unfold parseDateToEpochMs ingestDate
  cases isoDate text with
  | some read => rfl
  | none =>
    rw [h, Option.none_or]
    dsimp only [Option.bind_some]
    by_cases hempty : (dateWords text).isEmpty = true
    · rw [if_pos hempty, List.isEmpty_iff.mp hempty]
      rfl
    · rw [if_neg hempty]
      cases (monthDate (dateWords text) reference.year).or (loneYear (dateWords text)) with
      | some read => rfl
      | none => rfl

/-- The first parser reads days of the calendar only. -/
theorem isDay_of_ingestDate {text : List Char} {referenceYear : ℤ} {read : ℤ × ℕ × ℕ}
    (h : ingestDate text referenceYear = some read) : IsDay read := by
  rcases Option.or_eq_some_iff.mp h with hiso | ⟨-, hrest⟩
  · exact (isDay_of_isoDate hiso).1
  · rcases Option.or_eq_some_iff.mp hrest with hmonth | ⟨-, hlone⟩
    · exact (isDay_of_monthDate hmonth).1
    · exact (isDay_of_loneYear hlone).1

/-- The day that the query side reads. -/
theorem queryDate_window {text : List Char} {read : ℤ × ℕ × ℕ} (h : queryDate text = some read)
    (isAlphabetic : Char → Bool) (now : ℤ) (referenceTimeMs : Option ℤ) :
    parseTemporalWindow isAlphabetic true now text referenceTimeMs =
        some (some (dayNumberOf (cutDay read) * millisPerDay,
          (dayNumberOf (cutDay read) + 1) * millisPerDay)) ∧
      0 ≤ dayNumberOf (cutDay read) ∧ dayNumberOf (cutDay read) < 100000 := by
  obtain ⟨hday, hyear⟩ := numericDate_bounds h
  obtain ⟨hlo, hhi⟩ := inQueryYears_iff.mp hyear
  have hlength := daysInMonth_bounds read.1 read.2.1
  -- A day beyond the end of its month is read as the last one of the month.
  have hpos : 1 ≤ min read.2.2 (daysInMonth read.1 read.2.1) := by
    have hd := hday.day_pos
    omega
  obtain ⟨date, hdate⟩ : ∃ date, date =
      dateOf read.1 hday.month_pos hday.month_le hpos (min_le_right _ _) := ⟨_, rfl⟩
  have hnumber : date.dayNumber = dayNumberOf (cutDay read) := by rw [hdate]; rfl
  have hyear : date.year = read.1 := by rw [hdate]; rfl
  obtain ⟨-, hnonneg, hlt⟩ := monthToMs_eq true date (by omega) (by omega)
  obtain ⟨w, hw, heq, -⟩ := daysWindow_eq true (a := date) (b := date) (by omega) (by omega)
    (by omega) (by omega) le_rfl
  rw [hnumber] at hnonneg hlt heq
  refine ⟨?_, hnonneg, hlt⟩
  -- The text is the date alone, so the phrase is the date.
  have hphrase : phraseOf isAlphabetic text = some (.date read.1 read.2.1 read.2.2) := by
    unfold phraseOf
    unfold queryDate at h
    dsimp only
    rw [h]
  have hwindow : (Phrase.date read.1 read.2.1 read.2.2).window true (referenceTimeMs.getD now) =
      some w := by
    rw [hdate] at hw
    exact hw
  unfold parseTemporalWindow
  rw [hphrase]
  dsimp only
  rw [hwindow, heq, Option.map_some]

/-- A time that the ingest side computes is inside a day exactly if it is of that day. -/
theorem epochMsFromYmd_inside {read : ℤ × ℕ × ℕ} (h : IsDay read) {n : ℤ} (hn : 0 ≤ n)
    (hlt : n < 100000) :
    Inside (epochMsFromYmd true read.1 read.2.1 read.2.2)
        (some (some (n * millisPerDay, (n + 1) * millisPerDay))) ↔ dayNumberOf read = n := by
  constructor
  · rintro ⟨ms, w, hms, hw, hstart, hstop⟩
    obtain rfl := Option.some.inj (Option.some.inj hw)
    -- The time is the start of the day that the other parser reads.
    rw [epochMsFromYmd_of_reaches h (reaches_of_epochMsFromYmd h hms)] at hms
    have hms := Option.some.inj hms
    split at hms
    · cases hms
    · obtain rfl := Option.some.inj hms
      unfold millisPerDay at hstart hstop
      dsimp only at hstart hstop
      omega
  · intro hsame
    -- The day is within the window, and with it within the 32 bits of the day count.
    have hreaches : Reaches true (dayNumberOf read) := by
      unfold Reaches Word.Has i32
      dsimp only
      constructor
      · omega
      · intro _
        omega
    refine ⟨n * 86400000, _, ?_, rfl, le_rfl, ?_⟩
    · rw [epochMsFromYmd_of_reaches h hreaches, hsame, if_neg (by omega)]
    · unfold millisPerDay
      dsimp only
      omega

/-- Both sides read one date, and its day exists; or the ingest side reads another date, which
happens to be the same day. -/
def SameDay (text : List Char) (referenceYear : ℤ) (read : ℤ × ℕ × ℕ) : Prop :=
  (isoDate text = some read ∧ read.2.2 ≤ daysInMonth read.1 read.2.1) ∨
    (isoDate text ≠ some read ∧ ∃ other, ingestDate text referenceYear = some other ∧
      dayNumberOf other = dayNumberOf (cutDay read))

/-- A day is cut exactly if it does not exist. -/
theorem dayNumberOf_cutDay {read : ℤ × ℕ × ℕ} :
    dayNumberOf read = dayNumberOf (cutDay read) ↔
      read.2.2 ≤ daysInMonth read.1 read.2.1 := by
  unfold dayNumberOf cutDay
  dsimp only
  omega

end Tellodb
