import Tellodb.Expansion.Chunks

/-!
# Packed pieces

What packing does with the pieces of a text. Each chunk is some of them joined, which are within the
limit if they are more than one (`joined_of_mem_pack`), and the chunks have the words of the pieces
(`flatMap_words_pack`). A chunk is blank where a blank piece is followed by one that does not fit
with it (`splitByCharLimit_blank`). -/

namespace Tellodb

open Collections

/-! ## Words -/

/-- The words of a text without whitespace at its ends. -/
theorem words_trim {p : Char → Bool} (hp : ∀ c, isWhitespace c = true → p c = true)
    (text : List Char) : words p (trim text) = words p text := by
  have hspace : words isWhitespace (trim text) = words isWhitespace text :=
    (words_rdropWhile _).trans (words_dropWhile _)
  rw [← flatMap_words hp, hspace, flatMap_words hp]

/-- A text is blank if it has no words. -/
theorem words_eq_nil_iff_isBlank {text : List Char} :
    words isWhitespace text = [] ↔ isBlank text = true :=
  words_eq_nil_iff.trans List.all_eq_true.symm

/-- Trimming does not make a text blank. -/
theorem isBlank_trim (text : List Char) : isBlank (trim text) = isBlank text := by
  rw [Bool.eq_iff_iff, ← words_eq_nil_iff_isBlank, ← words_eq_nil_iff_isBlank,
    words_trim fun _ h => h]

/-- Nothing is left of a blank text. -/
theorem trim_of_isBlank {text : List Char} (h : isBlank text = true) : trim text = [] := by
  have hdrop : text.dropWhile isWhitespace = [] :=
    List.dropWhile_eq_nil_iff.mpr (List.all_eq_true.mp h)
  unfold trim trimMatches
  rw [hdrop]
  rfl

/-- A line is a line without its carriage return. -/
theorem stripCr_cases (line : List Char) : stripCr line = line ∨ line = stripCr line ++ ['\r'] := by
  unfold stripCr
  split
  · rename_i hlast
    exact .inr (List.dropLast_append_getLast? '\r' hlast).symm
  · exact .inl rfl

/-- The lines of a text are its parts between line feeds, but for carriage returns and an empty
part at the end. -/
theorem lines_cases (text : List Char) : ∃ init last, text.splitOn '\n' = init ++ [last] ∧
    lines text = init.map stripCr ++ if last.isEmpty then [] else [last] := by
  obtain ⟨init, last, hpieces⟩ := (List.eq_nil_or_concat (text.splitOn '\n')).resolve_left
    (List.splitOn_ne_nil _ _)
  rw [List.concat_eq_append] at hpieces
  refine ⟨init, last, hpieces, ?_⟩
  unfold lines
  dsimp only
  rw [hpieces, List.dropLast_concat, List.getLast?_concat]
  cases last <;> rfl

section

variable {p : Char → Bool} (hp : ∀ c, isWhitespace c = true → p c = true)

include hp

/-- The words of a text are those of its lines. -/
theorem flatMap_words_lines (text : List Char) :
    (lines text).flatMap (words p) = words p text := by
  have hcr : ∀ line, words p (stripCr line) = words p line := by
    intro line
    rcases stripCr_cases line with hsame | hcr
    · rw [hsame]
    · conv_rhs => rw [hcr]
      refine (words_append_all _ fun c hc => hp c ?_).symm
      rw [List.mem_singleton.mp hc]
      rfl
  obtain ⟨init, last, hpieces, hlines⟩ := lines_cases text
  have hcut : words p text = (text.splitOn '\n').flatMap (words p) :=
    words_eq_flatMap_splitOnP (q := fun c => c == '\n')
      (fun c hc => hp c (by rw [eq_of_beq hc]; rfl)) text
  rw [hcut, hlines, hpieces, List.flatMap_append, List.flatMap_append, List.flatMap_map]
  congr 1
  · exact List.flatMap_congr fun line _ => hcr line
  · split
    · rename_i hempty
      rw [List.isEmpty_iff.mp hempty]
      rfl
    · rfl

end

/-! ## Packing -/

section

variable {separator : List Char} {limit : ℕ}

/-- What a step does: the piece is added to the open chunk if it fits there, and else the chunk is
closed and the piece begins a new one. -/
theorem packStep_cases (separator : List Char) (limit : ℕ) (s : List (List Char) × List Char)
    (piece : List Char) :
    (s.2 = [] ∧ packStep separator limit s piece = (s.1, piece)) ∨
      (s.2 ≠ [] ∧ utf8Len s.2 + utf8Len separator + utf8Len piece ≤ limit ∧
        packStep separator limit s piece = (s.1, s.2 ++ separator ++ piece)) ∨
      (s.2 ≠ [] ∧ limit < utf8Len s.2 + utf8Len separator + utf8Len piece ∧
        packStep separator limit s piece = (s.1 ++ [trim s.2], piece)) := by
  unfold packStep
  by_cases hempty : s.2 = []
  · exact .inl ⟨hempty, by simp [hempty]⟩
  · have hsome : s.2.isEmpty = false := by simpa using hempty
    by_cases hlimit : limit < utf8Len s.2 + utf8Len separator + utf8Len piece
    · exact .inr (.inr ⟨hempty, hlimit, by simp [hsome, hlimit]⟩)
    · exact .inr (.inl ⟨hempty, not_lt.mp hlimit, by simp [hsome, hlimit]⟩)

/-- A chunk is some pieces joined, of which the first is not empty. It is within the limit if there
is more than one. -/
structure Joined (separator : List Char) (limit : ℕ) (run : List (List Char)) (chunk : List Char) :
    Prop where
  joined : chunk = separator.intercalate run
  begins : run.head? ≠ some []
  fits : run.length ≤ 1 ∨ utf8Len chunk ≤ limit

/-- A chunk that is closed: the piece after it did not fit. -/
def ClosedIn (separator : List Char) (limit : ℕ) (pieces : List (List Char)) (c : List Char) :
    Prop :=
  ∃ before run next after chunk, pieces = before ++ run ++ next :: after ∧
    Joined separator limit run chunk ∧ run ≠ [] ∧ c = trim chunk ∧
      limit < utf8Len chunk + utf8Len separator + utf8Len next

/-- The chunk that is open: the last pieces. -/
def OpenIn (separator : List Char) (limit : ℕ) (pieces : List (List Char)) (chunk : List Char) :
    Prop :=
  ∃ before run, pieces = before ++ run ∧ Joined separator limit run chunk

/-- No piece joins to no chunk. -/
theorem Joined.nil : Joined separator limit [] [] :=
  ⟨rfl, by simp, .inl (Nat.zero_le _)⟩

/-- Pieces that are joined are nothing only if there are none. -/
theorem Joined.eq_nil_iff {run : List (List Char)} {chunk : List Char}
    (h : Joined separator limit run chunk) : chunk = [] ↔ run = [] := by
  constructor
  · intro hempty
    cases run with
    | nil => rfl
    | cons piece rest =>
      have hjoined := h.joined
      rw [hempty] at hjoined
      cases rest with
      | nil =>
        rw [List.intercalate_singleton] at hjoined
        exact absurd (congrArg some hjoined.symm) h.begins
      | cons next rest =>
        rw [List.intercalate_cons_cons, List.append_assoc] at hjoined
        exact absurd (congrArg some (List.append_eq_nil_iff.mp hjoined.symm).1) h.begins
  · rintro rfl
    exact h.joined

/-- A piece begins a chunk, unless it is empty. -/
theorem openIn_singleton (pieces : List (List Char)) (piece : List Char) :
    OpenIn separator limit (pieces ++ [piece]) piece := by
  by_cases hempty : piece = []
  · exact ⟨pieces ++ [piece], [], by simp, hempty ▸ Joined.nil⟩
  · exact ⟨pieces, [piece], rfl, by simp, by simpa using hempty, .inl (by simp)⟩

/-- Lengths add up. -/
theorem utf8Len_append (a b : List Char) : utf8Len (a ++ b) = utf8Len a + utf8Len b := by
  unfold utf8Len
  rw [List.map_append, List.sum_append]

/-- What a step leaves: closed chunks and an open one. -/
theorem packStep_inv {pieces : List (List Char)} {s : List (List Char) × List Char}
    (hclosed : ∀ c ∈ s.1, ClosedIn separator limit pieces c)
    (hopen : OpenIn separator limit pieces s.2) (piece : List Char) :
    (∀ c ∈ (packStep separator limit s piece).1,
        ClosedIn separator limit (pieces ++ [piece]) c) ∧
      OpenIn separator limit (pieces ++ [piece]) (packStep separator limit s piece).2 := by
  -- The chunks that are closed stay what they were.
  have hkept : ∀ c ∈ s.1, ClosedIn separator limit (pieces ++ [piece]) c := by
    intro c hc
    obtain ⟨before, run, next, after, chunk, rfl, h⟩ := hclosed c hc
    exact ⟨before, run, next, after ++ [piece], chunk, by simp, h⟩
  obtain ⟨before, run, hpieces, hjoined⟩ := hopen
  -- The piece starts a chunk, joins the open one or closes it.
  rcases packStep_cases separator limit s piece with
    ⟨-, hstep⟩ | ⟨hsome, hfits, hstep⟩ | ⟨hsome, hfull, hstep⟩
  · rw [hstep]
    exact ⟨hkept, openIn_singleton _ _⟩
  · rw [hstep]
    have hrun : run ≠ [] := fun h => hsome (hjoined.eq_nil_iff.mpr h)
    refine ⟨hkept, before, run ++ [piece], by rw [hpieces, List.append_assoc], ?_, ?_, .inr ?_⟩
    · rw [intercalate_concat _ hrun, hjoined.joined]
    · rw [List.head?_append_of_ne_nil _ hrun]
      exact hjoined.begins
    · rw [utf8Len_append, utf8Len_append]
      exact hfits
  · rw [hstep]
    have hrun : run ≠ [] := fun h => hsome (hjoined.eq_nil_iff.mpr h)
    refine ⟨fun c hc => ?_, openIn_singleton _ _⟩
    rcases List.mem_append.mp hc with hc | hc
    · exact hkept c hc
    · exact ⟨before, run, piece, [], s.2, by rw [hpieces], hjoined, hrun,
        List.mem_singleton.mp hc, hfull⟩

/-- A chunk of packed pieces was closed when a piece did not fit, or is what was open at the end and
not blank. -/
theorem mem_pack {pieces : List (List Char)} {c : List Char} (h : c ∈ pack separator limit pieces) :
    ClosedIn separator limit pieces c ∨
      ∃ chunk, OpenIn separator limit pieces chunk ∧ c = trim chunk ∧ c ≠ [] := by
  have hfold : (∀ c ∈ (pieces.foldl (packStep separator limit) ([], [])).1,
        ClosedIn separator limit pieces c) ∧
      OpenIn separator limit pieces (pieces.foldl (packStep separator limit) ([], [])).2 := by
    clear h
    induction pieces using List.reverseRecOn with
    | nil => exact ⟨fun c hc => absurd hc List.not_mem_nil, [], [], rfl, Joined.nil⟩
    | append_singleton pieces piece ih =>
      rw [List.foldl_append, List.foldl_cons, List.foldl_nil]
      exact packStep_inv ih.1 ih.2 piece
  unfold pack closeChunks at h
  split at h
  · exact .inl (hfold.1 c h)
  · rename_i hsome
    rcases List.mem_append.mp h with hc | hc
    · exact .inl (hfold.1 c hc)
    · rw [List.mem_singleton] at hc
      exact .inr ⟨_, hfold.2, hc, fun hempty => hsome (by rw [← hc, hempty]; rfl)⟩

/-- What a chunk of packed pieces is: some pieces joined and trimmed. If more than one they are
within the limit, and what is blank was followed by a piece that did not fit. -/
theorem joined_of_mem_pack {pieces : List (List Char)} {c : List Char}
    (h : c ∈ pack separator limit pieces) : ∃ before run after chunk,
      pieces = before ++ run ++ after ∧ Joined separator limit run chunk ∧ run ≠ [] ∧
        c = trim chunk ∧ (isBlank c = true → ∃ next after', after = next :: after' ∧
          limit < utf8Len chunk + utf8Len separator + utf8Len next) := by
  rcases mem_pack h with ⟨before, run, next, after, chunk, hpieces, hjoined, hrun, hc, hfull⟩ |
    ⟨chunk, ⟨before, run, hpieces, hjoined⟩, hc, hsome⟩
  · exact ⟨before, run, next :: after, chunk, hpieces, hjoined, hrun, hc,
      fun _ => ⟨next, after, rfl, hfull⟩⟩
  · refine ⟨before, run, [], chunk, by rw [hpieces, List.append_nil], hjoined, fun hrun => ?_, hc,
      fun hblank => ?_⟩
    · rw [hjoined.eq_nil_iff.mpr hrun] at hc
      exact hsome hc
    · rw [hc, isBlank_trim] at hblank
      exact absurd (hc.trans (trim_of_isBlank hblank)) hsome

/-- The words of packed pieces are theirs. -/
theorem flatMap_words_pack {p : Char → Bool} (hp : ∀ c, isWhitespace c = true → p c = true)
    {c : Char} (hc : p c = true) (hseparator : ∀ d ∈ separator, p d = true)
    (pieces : List (List Char)) :
    (pack (c :: separator) limit pieces).flatMap (words p) = pieces.flatMap (words p) := by
  -- The words of the open chunk follow those of the closed ones.
  have hfold : (pieces.foldl (packStep (c :: separator) limit) ([], [])).1.flatMap (words p) ++
      words p (pieces.foldl (packStep (c :: separator) limit) ([], [])).2 =
        pieces.flatMap (words p) := by
    induction pieces using List.reverseRecOn with
    | nil => rfl
    | append_singleton pieces piece ih =>
      rw [List.foldl_append, List.foldl_cons, List.foldl_nil, List.flatMap_append,
        List.flatMap_singleton]
      generalize pieces.foldl (packStep (c :: separator) limit) ([], []) = s at ih ⊢
      rcases packStep_cases (c :: separator) limit s piece with
        ⟨hempty, hstep⟩ | ⟨-, -, hstep⟩ | ⟨-, -, hstep⟩
      · rw [hempty, words_nil, List.append_nil] at ih
        rw [hstep, ih]
      · rw [hstep]
        dsimp only
        rw [List.append_assoc, List.cons_append, words_append_cons _ _ hc,
          words_append_of_all hseparator, ← List.append_assoc, ih]
      · rw [hstep]
        dsimp only
        rw [List.flatMap_append, List.flatMap_singleton, words_trim hp, ih]
  unfold pack closeChunks
  -- An open chunk without words adds none.
  split
  · rename_i hempty
    have hnone : words p (pieces.foldl (packStep (c :: separator) limit) ([], [])).2 = [] := by
      rw [← words_trim hp, List.isEmpty_iff.mp hempty]
      rfl
    rw [hnone, List.append_nil] at hfold
    exact hfold
  · rw [List.flatMap_append, List.flatMap_singleton, words_trim hp]
    exact hfold

end


/-! ## Lengths -/

/-- A text has no fewer bytes than its parts. -/
theorem utf8Len_le_of_sublist {a b : List Char} (h : a.Sublist b) : utf8Len a ≤ utf8Len b := by
  induction h with
  | slnil => exact le_rfl
  | cons c _ ih =>
    unfold utf8Len at ih ⊢
    rw [List.map_cons, List.sum_cons]
    exact ih.trans (Nat.le_add_left _ _)
  | cons_cons c _ ih =>
    unfold utf8Len at ih ⊢
    rw [List.map_cons, List.map_cons, List.sum_cons, List.sum_cons]
    exact Nat.add_le_add_left ih _

/-- Trimming does not make a text longer. -/
theorem utf8Len_trim_le (text : List Char) : utf8Len (trim text) ≤ utf8Len text :=
  utf8Len_le_of_sublist ((List.rdropWhile_prefix _ _).sublist.trans (List.dropWhile_sublist _))

/-- A chunk of packed pieces is within the limit or one of them. -/
theorem pack_within {separator : List Char} {limit : ℕ} {pieces : List (List Char)} {c : List Char}
    (h : c ∈ pack separator limit pieces) :
    utf8Len c ≤ limit ∨ ∃ piece ∈ pieces, c = trim piece := by
  obtain ⟨before, run, after, chunk, hpieces, hjoined, hrun, rfl, -⟩ := joined_of_mem_pack h
  rcases hjoined.fits with hsingle | hlimit
  · obtain ⟨piece, rfl⟩ : ∃ piece, run = [piece] := by
      refine List.length_eq_one_iff.mp (le_antisymm hsingle ?_)
      exact List.length_pos_iff.mpr hrun
    refine .inr ⟨piece, by simp [hpieces], ?_⟩
    rw [hjoined.joined, List.intercalate_singleton]
  · exact .inl ((utf8Len_trim_le chunk).trans hlimit)

/-! ## Blank chunks -/

/-- Every run of blank lines that begins with a line that is not empty fits in a chunk with the line
behind it. -/
def FitsBlankRuns (limit : ℕ) (ls : List (List Char)) : Prop :=
  ∀ before run next after, ls = before ++ run ++ next :: after → run ≠ [] → run.head? ≠ some [] →
    (∀ l ∈ run, isBlank l = true) → utf8Len (joinLines run) + 1 + utf8Len next ≤ limit

/-- A text that has a part that is not blank is not blank. -/
theorem isBlank_of_subset {a b : List Char} (h : a ⊆ b) (hb : isBlank b = true) :
    isBlank a = true :=
  List.all_eq_true.mpr fun c hc => List.all_eq_true.mp hb c (h hc)

/-- Lines whose blank runs fit have no blank chunk. -/
theorem splitByCharLimit_blank {ls : List (List Char)} {limit : ℕ} {c : List Char}
    (h : c ∈ splitByCharLimit ls limit) (hfits : FitsBlankRuns limit ls) : isBlank c = false := by
  obtain ⟨before, run, after, chunk, hpieces, hjoined, hrun, rfl, hfull⟩ := joined_of_mem_pack h
  by_contra hblank
  rw [Bool.not_eq_false] at hblank
  obtain ⟨next, after', rfl, hlimit⟩ := hfull hblank
  rw [isBlank_trim] at hblank
  have hruns : ∀ l ∈ run, isBlank l = true := by
    intro l hl
    rw [hjoined.joined] at hblank
    exact isBlank_of_subset (subset_intercalate _ hl) hblank
  have hfit := hfits before run next after' hpieces hrun hjoined.begins hruns
  unfold joinLines at hfit
  rw [← hjoined.joined] at hfit
  have hfeed : utf8Len ['\n'] = 1 := rfl
  omega

/-- The words of lines that are split are theirs. -/
theorem flatMap_words_splitByCharLimit {p : Char → Bool}
    (hp : ∀ c, isWhitespace c = true → p c = true) (ls : List (List Char)) (limit : ℕ) :
    (splitByCharLimit ls limit).flatMap (words p) = ls.flatMap (words p) :=
  flatMap_words_pack hp (hp '\n' rfl) (fun _ h => absurd h List.not_mem_nil) ls

end Tellodb
