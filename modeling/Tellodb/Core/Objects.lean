import Tellodb.Core.Text
import Mathlib.Data.List.TakeWhile

/-!
# The same value

`same_fact_object`: two objects state the same value if they have the same normal form. The normal
form depends on the words, up to ASCII case (`normalizeFactObject_of_words`), and not on punctuation
right behind the text; punctuation behind whitespace is a word of its own and leaves a space in the
normal form. An empty first object states no value, whatever the second one is. So the comparison is
transitive, and an equivalence up to these two cases (`sameFactObject_laws`). -/

namespace Tellodb

open Collections

/-- Case makes no difference to punctuation. -/
theorem isAsciiPunctuation_toLower (c : Char) :
    isAsciiPunctuation c.toLower = isAsciiPunctuation c :=
  toLower_congr isAsciiPunctuation (by decide) c

/-! ## Trimming -/

section

variable {p : Char → Bool} {l m : List Char}

/-- Trimming drops from the front and then from the back. -/
theorem trimMatches_eq (p : Char → Bool) (l : List Char) :
    trimMatches p l = (l.dropWhile p).rdropWhile p := rfl

/-- A map that keeps what is trimmed is applied before or after. -/
theorem trimMatches_map {f : Char → Char} (hf : ∀ c, p (f c) = p c) (l : List Char) :
    trimMatches p (l.map f) = (trimMatches p l).map f := by
  have hcomp : p ∘ f = p := funext hf
  have hdrop : ∀ l : List Char, (l.map f).dropWhile p = (l.dropWhile p).map f := fun l => by
    rw [List.dropWhile_map, hcomp]
  unfold trimMatches
  rw [hdrop, ← List.map_reverse, hdrop, List.map_reverse]

/-- What is trimmed has no effect behind a text. -/
theorem rdropWhile_append_of_all (l : List Char) (h : ∀ c ∈ m, p c = true) :
    (l ++ m).rdropWhile p = l.rdropWhile p := by
  unfold List.rdropWhile
  rw [List.reverse_append, List.dropWhile_append_of_pos fun c hc => h c (List.mem_reverse.mp hc)]

/-- What is trimmed away makes no difference at the back. -/
theorem trimMatches_append_of_all (l : List Char) (h : ∀ c ∈ m, p c = true) :
    trimMatches p (l ++ m) = trimMatches p l := by
  rw [trimMatches_eq, trimMatches_eq]
  by_cases hall : ∀ c ∈ l, p c = true
  · have hboth : ∀ c ∈ l ++ m, p c = true := fun c hc =>
      (List.mem_append.mp hc).elim (hall c) (h c)
    rw [List.dropWhile_eq_nil_iff.mpr hall, List.dropWhile_eq_nil_iff.mpr hboth]
  · have hne : (l.dropWhile p).isEmpty = false := by
      rw [Bool.eq_false_iff]
      exact fun hempty => hall (List.dropWhile_eq_nil_iff.mp (List.isEmpty_iff.mp hempty))
    rw [List.dropWhile_append, hne, if_neg Bool.false_ne_true, rdropWhile_append_of_all _ h]

/-- In front of what is trimmed, a character that is not stays behind all of the text. -/
theorem trimMatches_append_cons (l : List Char) {c : Char} (hc : p c = false)
    (h : ∀ c ∈ m, p c = true) : trimMatches p (l ++ c :: m) = l.dropWhile p ++ [c] := by
  have hstop : (l ++ c :: m).dropWhile p = l.dropWhile p ++ [c] ++ m := by
    rw [List.dropWhile_append]
    split
    · rename_i hempty
      rw [List.isEmpty_iff.mp hempty, List.dropWhile_cons_of_neg (by simp [hc])]
      rfl
    · simp
  rw [trimMatches_eq, hstop, rdropWhile_append_of_all _ h,
    List.rdropWhile_concat_neg _ _ _ (by simp [hc])]

/-- Nothing is left exactly of what is trimmed away. -/
theorem trimMatches_eq_nil_iff : trimMatches p l = [] ↔ ∀ c ∈ l, p c = true := by
  rw [trimMatches_eq, List.rdropWhile_eq_nil_iff]
  constructor
  · intro h c hc
    rw [← List.takeWhile_append_dropWhile (p := p) (l := l)] at hc
    rcases List.mem_append.mp hc with hfirst | hrest
    · exact List.mem_takeWhile_imp hfirst
    · exact h c hrest
  · exact fun h c hc => h c ((List.dropWhile_sublist p).subset hc)

end

/-! ## The normal form -/

/-- The words of an object that are compared. -/
def objectWords (object : String) : List (List Char) :=
  (splitWhitespace object.toList).map (List.map Char.toLower)

/-- The normal form is made of the words, up to case. -/
theorem normalizeFactObject_eq (object : String) :
    normalizeFactObject object = String.ofList
      (trimMatches isAsciiPunctuation ([' '].intercalate (objectWords object))) := by
  have hspace : ([' '].intercalate (splitWhitespace object.toList)).map Char.toLower =
      [' '].intercalate (objectWords object) :=
    map_intercalate rfl _
  unfold normalizeFactObject
  rw [← trimMatches_map isAsciiPunctuation_toLower, hspace]

/-- Objects with the same words are normalized alike. -/
theorem normalizeFactObject_of_words {object object' : String}
    (h : objectWords object' = objectWords object) :
    normalizeFactObject object' = normalizeFactObject object := by
  rw [normalizeFactObject_eq, normalizeFactObject_eq, h]

/-- A text of whitespace only. -/
def Blank (text : List Char) : Prop :=
  ∀ c ∈ text, isWhitespace c = true

/-- Words are the same with more whitespace at an end of the text, or where there is whitespace. -/
theorem splitWhitespace_insert {l m space : List Char} (hspace : Blank space)
    (h : l = [] ∨ m = [] ∨ (∃ l' c, l = l' ++ [c] ∧ isWhitespace c = true) ∨
      ∃ c m', m = c :: m' ∧ isWhitespace c = true) :
    splitWhitespace (l ++ space ++ m) = splitWhitespace (l ++ m) := by
  change words isWhitespace _ = words isWhitespace _
  rcases h with rfl | rfl | ⟨l', c, rfl, hc⟩ | ⟨c, m', rfl, hc⟩
  · exact words_append_of_all hspace m
  · rw [List.append_nil, List.append_nil, words_append_all l hspace]
  · rw [List.append_assoc, List.append_assoc, List.append_assoc, List.singleton_append,
      List.singleton_append, words_append_cons _ _ hc, words_append_cons _ _ hc,
      words_append_of_all hspace]
  · rw [words_append_cons _ _ hc, words_append_cons _ _ hc, words_append_all l hspace]

/-- Punctuation right behind a word is behind the words joined. -/
theorem intercalate_splitWhitespace_append {l punctuation : List Char} {c : Char}
    (hlast : l.getLast? = some c) (hc : isWhitespace c = false)
    (hpunctuation : ∀ d ∈ punctuation, isWhitespace d = false) {f : Char → Char} :
    [' '].intercalate ((splitWhitespace (l ++ punctuation)).map (List.map f)) =
      [' '].intercalate ((splitWhitespace l).map (List.map f)) ++ punctuation.map f := by
  have hne : l ≠ [] := by
    rintro rfl
    exact absurd hlast (by simp)
  -- The last word of the text is lengthened.
  obtain ⟨front, run, hwords, hwords'⟩ : ∃ front run,
      splitWhitespace l = front ++ [run] ∧
        splitWhitespace (l ++ punctuation) = front ++ [run ++ punctuation] := by
    rcases exists_last_run isWhitespace l with hnone | ⟨before, d, run, rfl, hd, hrun⟩
    · refine ⟨[], l, words_of_none hnone hne, words_of_none (fun d hd => ?_) (by simp [hne])⟩
      exact (List.mem_append.mp hd).elim (hnone d) (hpunctuation d)
    · have hrunne : run ≠ [] := by
        rintro rfl
        rw [List.getLast?_concat] at hlast
        rw [Option.some.inj hlast, hc] at hd
        exact absurd hd (by simp)
      refine ⟨words isWhitespace before, run, ?_, ?_⟩
      · change words isWhitespace _ = _
        rw [words_append_cons _ _ hd, words_of_none hrun hrunne]
      · change words isWhitespace _ = _
        rw [List.append_assoc, List.cons_append, words_append_cons _ _ hd,
          words_of_none (fun e he => (List.mem_append.mp he).elim (hrun e) (hpunctuation e))
            (by simp [hrunne])]
  rw [hwords, hwords', List.map_append, List.map_append, List.map_singleton, List.map_singleton,
    List.map_append]
  by_cases hfront : front.map (List.map f) = []
  · rw [hfront]
    simp
  · rw [intercalate_concat _ hfront, intercalate_concat _ hfront, List.append_assoc,
      List.append_assoc, List.append_assoc]

/-- Punctuation behind whitespace is a word. -/
theorem splitWhitespace_append_space {l space punctuation : List Char} (hspace : Blank space)
    (hgap : space ≠ [] ∨ ∃ c, l.getLast? = some c ∧ isWhitespace c = true)
    (hpunctuation : ∀ d ∈ punctuation, isWhitespace d = false) (hne : punctuation ≠ []) :
    splitWhitespace (l ++ space ++ punctuation) = splitWhitespace l ++ [punctuation] := by
  obtain ⟨front, c, hfront, hc⟩ : ∃ front c, l ++ space = front ++ [c] ∧ isWhitespace c = true := by
    rcases List.eq_nil_or_concat space with rfl | ⟨space', c, rfl⟩
    · obtain ⟨c, hlast, hc⟩ := hgap.resolve_left (fun h => h rfl)
      obtain ⟨front, rfl⟩ := List.getLast?_eq_some_iff.mp hlast
      exact ⟨front, c, List.append_nil _, hc⟩
    · refine ⟨l ++ space', c, by rw [List.concat_eq_append, List.append_assoc], ?_⟩
      exact hspace c (by simp)
  have hsame : splitWhitespace l = words isWhitespace front := by
    have hl : words isWhitespace (l ++ space) = words isWhitespace l := words_append_all l hspace
    have hfront' : words isWhitespace (front ++ [c]) = words isWhitespace front :=
      words_append_all front (by simpa using hc)
    rw [← hfront', ← hfront, hl]
    rfl
  change words isWhitespace _ = _
  rw [hfront, List.append_assoc, List.singleton_append, words_append_cons _ _ hc,
    words_of_none hpunctuation hne, hsame]

/-- Punctuation is no white space. -/
theorem isWhitespace_of_isAsciiPunctuation {c : Char} (h : isAsciiPunctuation c = true) :
    isWhitespace c = false := by
  unfold isAsciiPunctuation at h
  unfold isWhitespace
  simp only [Bool.or_eq_true, Bool.and_eq_true, decide_eq_true_eq, Bool.or_eq_false_iff,
    Bool.and_eq_false_iff, decide_eq_false_iff_not, beq_eq_false_iff_ne] at h ⊢
  omega

/-- An object without a value: one word at most, of punctuation only. -/
def NoValue (object : String) : Prop :=
  (splitWhitespace object.toList).length ≤ 1 ∧
    ∀ word ∈ splitWhitespace object.toList, ∀ c ∈ word, isAsciiPunctuation c = true

/-- An object is normalized to nothing exactly if it has no value. -/
theorem normalizeFactObject_eq_empty_iff (object : String) :
    normalizeFactObject object = "" ↔ NoValue object := by
  have hempty : normalizeFactObject object = "" ↔
      ∀ c ∈ [' '].intercalate (splitWhitespace object.toList), isAsciiPunctuation c = true := by
    unfold normalizeFactObject
    rw [← trimMatches_eq_nil_iff (p := isAsciiPunctuation), ← List.map_eq_nil_iff]
    exact ⟨fun h => by simpa using congrArg String.toList h, fun h => by rw [h]⟩
  rw [hempty]
  unfold NoValue
  cases splitWhitespace object.toList with
  | nil => simp
  | cons word rest =>
    cases rest with
    | nil => simp
    | cons next rest =>
      -- The space between two words is no punctuation.
      refine iff_of_false (fun h => ?_) fun h => absurd h.1 (by simp)
      rw [List.intercalate_cons_cons] at h
      exact absurd (h ' ' (by simp)) (by decide)

/-! ## The comparison -/

/-- The comparison of the source, in terms of the normalized objects. -/
theorem sameFactObject_iff {a b : String} : sameFactObject a b = true ↔
    a ≠ "" ∧ normalizeFactObject a = normalizeFactObject b := by
  unfold sameFactObject
  simp

/-- Two objects state the same values as any other one does. -/
def Alike (object object' : String) : Prop :=
  ∀ other, other ≠ "" → sameFactObject object' other = sameFactObject object other ∧
    sameFactObject other object' = sameFactObject other object

/-- Two objects that say something are alike exactly if they are normalized alike. -/
theorem alike_iff {object object' : String} (h : object ≠ "") (h' : object' ≠ "") :
    Alike object object' ↔ normalizeFactObject object' = normalizeFactObject object := by
  constructor
  · intro halike
    have hself : sameFactObject object object = true := sameFactObject_iff.mpr ⟨h, rfl⟩
    rw [← (halike object h).1] at hself
    exact (sameFactObject_iff.mp hself).2
  · intro hnormal other hother
    constructor
    · rw [Bool.eq_iff_iff, sameFactObject_iff, sameFactObject_iff, hnormal]
      exact and_congr_left fun _ => iff_of_true h' h
    · rw [Bool.eq_iff_iff, sameFactObject_iff, sameFactObject_iff, hnormal]

/-- The comparison is symmetric unless one object is empty and the other one has no value. -/
theorem sameFactObject_comm_iff (a b : String) : sameFactObject a b = sameFactObject b a ↔
    ¬ (a = "" ∧ b ≠ "" ∧ NoValue b ∨ b = "" ∧ a ≠ "" ∧ NoValue a) := by
  have hempty : normalizeFactObject "" = "" := by decide
  rw [Bool.eq_iff_iff, sameFactObject_iff, sameFactObject_iff,
    ← normalizeFactObject_eq_empty_iff, ← normalizeFactObject_eq_empty_iff]
  by_cases ha : a = ""
  · subst ha
    by_cases hb : b = ""
    · subst hb
      simp
    · rw [hempty]
      simp [hb]
  · by_cases hb : b = ""
    · subst hb
      rw [hempty]
      simp [ha]
    · have hcomm : normalizeFactObject b = normalizeFactObject a ↔
          normalizeFactObject a = normalizeFactObject b := eq_comm
      rw [hcomm]
      simp [ha, hb]

/-- Punctuation is not seen behind a text of whitespace only and right behind a word. Elsewhere it
leaves a space. -/
theorem normalizeFactObject_append_iff (object : String) {space punctuation : List Char}
    (hspace : Blank space) (hpunctuation : ∀ c ∈ punctuation, isAsciiPunctuation c = true)
    (hne : punctuation ≠ []) :
    normalizeFactObject (object ++ String.ofList (space ++ punctuation)) =
        normalizeFactObject object ↔
      Blank object.toList ∨
        space = [] ∧ ∀ c, object.toList.getLast? = some c → isWhitespace c = false := by
  have hword : ∀ c ∈ punctuation, isWhitespace c = false := fun c hc =>
    isWhitespace_of_isAsciiPunctuation (hpunctuation c hc)
  have hlower : ∀ c ∈ punctuation.map Char.toLower, isAsciiPunctuation c = true := by
    intro c hc
    obtain ⟨d, hd, rfl⟩ := List.mem_map.mp hc
    rw [isAsciiPunctuation_toLower, hpunctuation d hd]
  have htext : (object ++ String.ofList (space ++ punctuation)).toList =
      object.toList ++ space ++ punctuation := by simp
  -- Nothing but space stands before the punctuation, or something does.
  by_cases hblank : Blank object.toList
  · refine iff_of_true ?_ (.inl hblank)
    have hnone : splitWhitespace object.toList = [] := words_of_all hblank
    have hone : splitWhitespace (object.toList ++ space ++ punctuation) = [punctuation] := by
      have hfront : Blank (object.toList ++ space) := fun c hc =>
        (List.mem_append.mp hc).elim (hblank c) (hspace c)
      exact (words_append_of_all hfront punctuation).trans (words_of_none hword hne)
    rw [(normalizeFactObject_eq_empty_iff object).mpr ⟨by rw [hnone]; simp, by rw [hnone]; simp⟩]
    refine (normalizeFactObject_eq_empty_iff _).mpr ⟨by rw [htext, hone]; simp, ?_⟩
    rw [htext, hone]
    simpa using hpunctuation
  -- With a gap before it the punctuation is a word of its own, and without it the end of the last
  -- word.
  · by_cases hgap : space ≠ [] ∨ ∃ c, object.toList.getLast? = some c ∧ isWhitespace c = true
    · refine iff_of_false (fun h => ?_) fun h => ?_
      · have hsome : objectWords object ≠ [] := fun hnil =>
          hblank (words_eq_nil_iff.mp (List.map_eq_nil_iff.mp hnil))
        have hwords : objectWords (object ++ String.ofList (space ++ punctuation)) =
            objectWords object ++ [punctuation.map Char.toLower] := by
          unfold objectWords
          rw [htext, splitWhitespace_append_space hspace hgap hword hne, List.map_append,
            List.map_singleton]
        rw [normalizeFactObject_eq, normalizeFactObject_eq, hwords, intercalate_concat _ hsome,
          List.append_assoc, List.singleton_append, trimMatches_append_cons _ (by decide) hlower,
          trimMatches_eq] at h
        -- The space is one character more than the text can have.
        have hlist := congrArg List.length (String.ofList_injective h)
        have hle := (List.rdropWhile_prefix isAsciiPunctuation
          (([' '].intercalate (objectWords object)).dropWhile isAsciiPunctuation)).length_le
        rw [List.length_append, List.length_singleton] at hlist
        omega
      · rcases h with hall | ⟨hnil, hend⟩
        · exact hblank hall
        · rcases hgap with hsome | ⟨c, hlast, hc⟩
          · exact hsome hnil
          · rw [hend c hlast] at hc
            exact absurd hc (by simp)
    · obtain ⟨hnil, hend⟩ := not_or.mp hgap
      obtain rfl := not_not.mp hnil
      have hlast : ∀ c, object.toList.getLast? = some c → isWhitespace c = false := fun c hc =>
        Bool.eq_false_iff.mpr fun hspace => hend ⟨c, hc, hspace⟩
      refine iff_of_true ?_ (.inr ⟨rfl, hlast⟩)
      cases hc : object.toList.getLast? with
      | none =>
        rw [List.getLast?_eq_none_iff] at hc
        exact absurd (fun c hmem => absurd (hc ▸ hmem) List.not_mem_nil) hblank
      | some c =>
        -- The punctuation joins the last word, from which it is trimmed.
        have hjoined := intercalate_splitWhitespace_append hc (hlast c hc) hword (f := Char.toLower)
        rw [normalizeFactObject_eq, normalizeFactObject_eq]
        unfold objectWords
        rw [htext, List.append_nil, hjoined, trimMatches_append_of_all _ hlower]

/-- The comparison of objects is transitive, and symmetric apart from an empty object and one
without a value. More whitespace where there is some or at the ends does not matter to it, nor does
ASCII case, and punctuation behind an object does not if there is no whitespace before it, or
nothing else. -/
theorem sameFactObject_laws (a b : String) :
    (∀ c, sameFactObject a b = true → sameFactObject b c = true → sameFactObject a c = true) ∧
    (sameFactObject a b = sameFactObject b a ↔
      ¬ (a = "" ∧ b ≠ "" ∧ NoValue b ∨ b = "" ∧ a ≠ "" ∧ NoValue a)) ∧
    (∀ l space m : List Char, a = String.ofList (l ++ m) → a ≠ "" → Blank space →
      (l = [] ∨ m = [] ∨ (∃ l' c, l = l' ++ [c] ∧ isWhitespace c = true) ∨
        ∃ c m', m = c :: m' ∧ isWhitespace c = true) →
      Alike a (String.ofList (l ++ space ++ m))) ∧
    (∀ a', a ≠ "" → a'.toList.map Char.toLower = a.toList.map Char.toLower → Alike a a') ∧
    ∀ space punctuation : List Char, a ≠ "" → Blank space → punctuation ≠ [] →
      (∀ c ∈ punctuation, isAsciiPunctuation c = true) →
      (Alike a (a ++ String.ofList (space ++ punctuation)) ↔ Blank a.toList ∨
        space = [] ∧ ∀ c, a.toList.getLast? = some c → isWhitespace c = false) := by
  refine ⟨fun c hab hbc => ?_, sameFactObject_comm_iff a b,
    fun l space m htext hne hspace hplace => ?_, fun a' hne hcase => ?_,
    fun space punctuation hne hspace hsome hpunctuation => ?_⟩
  -- The relation compares what the objects are normalized to, unless the first one is empty.
  · obtain ⟨ha, hab⟩ := sameFactObject_iff.mp hab
    obtain ⟨-, hbc⟩ := sameFactObject_iff.mp hbc
    exact sameFactObject_iff.mpr ⟨ha, hab.trans hbc⟩
  -- Space between words does not change the words.
  · refine (alike_iff hne ?_).mpr (normalizeFactObject_of_words ?_)
    · intro h
      obtain ⟨hl, hm⟩ := List.append_eq_nil_iff.mp (by simpa using h : l ++ space ++ m = [])
      exact hne (by rw [htext, (List.append_eq_nil_iff.mp hl).1, hm]; rfl)
    · unfold objectWords
      rw [htext, String.toList_ofList, String.toList_ofList, splitWhitespace_insert hspace hplace]
  · have hlength : a'.toList.length = a.toList.length := by
      simpa using congrArg List.length hcase
    -- Neither does case, once it is lowered.
    refine (alike_iff hne fun h => ?_).mpr (normalizeFactObject_of_words ?_)
    · rw [h] at hlength
      exact hne (by simpa using hlength.symm)
    · unfold objectWords
      rw [← splitWhitespace_map_toLower, ← splitWhitespace_map_toLower, hcase]
  · rw [alike_iff hne (by simp [hne]), normalizeFactObject_append_iff a hspace hpunctuation hsome]

/-- An object of punctuation is the same as an empty one, which is not the same as it; and a space
before the punctuation makes another object. -/
theorem sameFactObject_oneSided :
    sameFactObject "." "" = true ∧ sameFactObject "" "." = false ∧
      sameFactObject "Oslo" "Oslo." = true ∧ sameFactObject "Oslo" "Oslo ." = false := by
  decide +kernel

end Tellodb
