import Tellodb.Expansion.Packed

/-!
# What chunks keep

Every chunker keeps the words of its text in their order, its chunks are within their limit or
single pieces, and none is blank if blank lines fit with what follows them (`chunk_faithful`).
Sentences are cut at every stop, so the words of plain text are kept only where stops are at the
ends of words. -/

namespace Tellodb

open Collections

/-! ## Sections -/

/-- A line is added to the sections. -/
theorem flatten_sectionStep (isBoundary : List Char → Bool)
    (s : List (List (List Char)) × List (List Char)) (line : List Char) :
    (sectionStep isBoundary s line).1.flatten ++ (sectionStep isBoundary s line).2 =
      s.1.flatten ++ s.2 ++ [line] := by
  unfold sectionStep
  split
  · rw [List.flatten_append, List.flatten_singleton]
  · exact (List.append_assoc _ _ _).symm

/-- The sections of a text have its lines. -/
theorem flatten_sectionLines (isBoundary : List Char → Bool) (text : List Char) :
    (sectionLines isBoundary text).flatten = lines text := by
  have hfold : ∀ ls : List (List Char),
      (ls.foldl (sectionStep isBoundary) ([], [])).1.flatten ++
        (ls.foldl (sectionStep isBoundary) ([], [])).2 = ls := by
    intro ls
    induction ls using List.reverseRecOn with
    | nil => rfl
    | append_singleton ls line ih =>
      rw [List.foldl_append, List.foldl_cons, List.foldl_nil, flatten_sectionStep, ih]
  unfold sectionLines
  dsimp only
  split
  · rename_i hempty
    have h := hfold (lines text)
    rw [List.isEmpty_iff.mp hempty, List.append_nil] at h
    exact h
  · rw [List.flatten_append, List.flatten_singleton]
    exact hfold (lines text)

/-! ## Lines of sections -/

/-- A line without its carriage return is the same between whitespace. -/
theorem trim_stripCr (line : List Char) : trim (stripCr line) = trim line := by
  rcases stripCr_cases line with hsame | hcr
  · rw [hsame]
  · have hspace : isWhitespace '\r' = true := rfl
    conv_rhs => rw [hcr]
    unfold trim trimMatches
    by_cases hblank : ∀ c ∈ stripCr line, isWhitespace c = true
    · rw [List.dropWhile_append_of_pos hblank, List.dropWhile_cons_of_pos hspace,
        List.dropWhile_eq_nil_iff.mpr hblank]
      rfl
    · rw [List.dropWhile_append, if_neg (by simpa using hblank), List.reverse_append,
        List.reverse_singleton, List.singleton_append, List.dropWhile_cons_of_pos hspace]

/-- A text is empty if it has no lines. -/
theorem eq_nil_of_lines {text : List Char} (h : lines text = []) : text = [] := by
  obtain ⟨init, last, hpieces, hlines⟩ := lines_cases text
  rw [hlines, List.append_eq_nil_iff, List.map_eq_nil_iff] at h
  obtain ⟨hinit, hlast⟩ := h
  have hempty : last = [] := by
    by_contra hsome
    rw [if_neg (by simpa using hsome)] at hlast
    exact List.cons_ne_nil _ _ hlast
  have hjoin : ['\n'].intercalate (text.splitOn '\n') = text := List.intercalate_splitOn '\n'
  rw [hpieces, hinit, hempty] at hjoin
  exact hjoin.symm

/-- A line is a part between line feeds, but for a carriage return. -/
theorem exists_of_mem_lines {text line : List Char} (h : line ∈ lines text) :
    ∃ piece ∈ text.splitOn '\n', line = piece ∨ line = stripCr piece := by
  obtain ⟨init, last, hpieces, hlines⟩ := lines_cases text
  rw [hlines] at h
  rw [hpieces]
  rcases List.mem_append.mp h with hline | hline
  · obtain ⟨piece, hpiece, rfl⟩ := List.mem_map.mp hline
    exact ⟨piece, List.mem_append_left _ hpiece, .inr rfl⟩
  · split at hline
    · exact absurd hline List.not_mem_nil
    · rw [List.mem_singleton] at hline
      exact ⟨last, List.mem_append_right _ List.mem_cons_self, .inl hline⟩

/-- A line has no line feed. -/
theorem not_mem_of_mem_lines {text line : List Char} (h : line ∈ lines text) : '\n' ∉ line := by
  obtain ⟨piece, hpiece, hline⟩ := exists_of_mem_lines h
  have hfeed : '\n' ∉ piece := by
    intro hmem
    have hword : piece ∈ words (· == '\n') text :=
      List.mem_filter.mpr ⟨hpiece, by cases piece <;> simp_all⟩
    exact absurd ((mem_words hword).2.1 _ hmem) (by simp)
  rcases hline with rfl | rfl
  · exact hfeed
  · intro hmem
    refine hfeed ?_
    rcases stripCr_cases piece with hsame | hcr
    · rwa [hsame] at hmem
    · rw [hcr]
      exact List.mem_append_left _ hmem

/-- The lines of a section are lines of the text, but for whitespace at their ends. -/
theorem exists_of_mem_lines_section {isBoundary : List Char → Bool} {text s line : List Char}
    (hs : s ∈ sections isBoundary text) (h : line ∈ lines s) :
    ∃ l ∈ lines text, trim line = trim l := by
  obtain ⟨sec, hsec, rfl⟩ := List.mem_map.mp hs
  have hlines : ∀ l ∈ sec, l ∈ lines text := fun l hl => by
    rw [← flatten_sectionLines isBoundary text]
    exact List.mem_flatten.mpr ⟨sec, hsec, hl⟩
  by_cases hempty : sec = []
  · rw [hempty] at h
    exact absurd h List.not_mem_nil
  · obtain ⟨piece, hpiece, hline⟩ := exists_of_mem_lines h
    unfold joinLines at hpiece
    rw [List.splitOn_intercalate '\n' (fun l hl => not_mem_of_mem_lines (hlines l hl)) hempty]
      at hpiece
    refine ⟨piece, hlines piece hpiece, ?_⟩
    rcases hline with rfl | rfl
    · rfl
    · exact trim_stripCr piece

/-- A section that is closed has a boundary or is followed by one. -/
def SectionIn (isBoundary : List Char → Bool) (ls sec : List (List Char)) : Prop :=
  sec ≠ [] ∧ ((∃ l ∈ sec, isBoundary l = true) ∨
    ∃ next after, ls = sec ++ next :: after ∧ isBoundary next = true)

/-- What a step leaves: the section that is open has a boundary or all lines. -/
theorem sectionStep_inv {isBoundary : List Char → Bool} {ls : List (List Char)}
    {s : List (List (List Char)) × List (List Char)}
    (hclosed : ∀ sec ∈ s.1, SectionIn isBoundary ls sec)
    (hopen : s.2 = ls ∨ ∃ l ∈ s.2, isBoundary l = true) (line : List Char) :
    (∀ sec ∈ (sectionStep isBoundary s line).1, SectionIn isBoundary (ls ++ [line]) sec) ∧
      ((sectionStep isBoundary s line).2 = ls ++ [line] ∨
        ∃ l ∈ (sectionStep isBoundary s line).2, isBoundary l = true) := by
  -- The sections that are closed stay what they were.
  have hkept : ∀ sec ∈ s.1, SectionIn isBoundary (ls ++ [line]) sec := by
    intro sec hsec
    obtain ⟨hne, hbegins | ⟨next, after, rfl, hnext⟩⟩ := hclosed sec hsec
    · exact ⟨hne, .inl hbegins⟩
    · exact ⟨hne, .inr ⟨next, after ++ [line], by simp, hnext⟩⟩
  unfold sectionStep
  -- The line closes the section if it is a boundary and the section is not empty.
  split
  · rename_i hcut
    obtain ⟨hline, hsome⟩ := Bool.and_eq_true_iff.mp hcut
    refine ⟨fun sec hsec => ?_, .inr ⟨line, List.mem_cons_self, hline⟩⟩
    rcases List.mem_append.mp hsec with hsec | hsec
    · exact hkept sec hsec
    · rw [List.mem_singleton.mp hsec]
      refine ⟨by simpa using hsome, ?_⟩
      rcases hopen with hall | hbegins
      · exact .inr ⟨line, [], by rw [hall], hline⟩
      · exact .inl hbegins
  · refine ⟨hkept, ?_⟩
    rcases hopen with hall | ⟨l, hl, hboundary⟩
    · exact .inl (by rw [hall])
    · exact .inr ⟨l, List.mem_append_left _ hl, hboundary⟩

/-- A section has a boundary, is followed by one, or is the whole text. -/
theorem sectionLines_cases {isBoundary : List Char → Bool} {text : List Char}
    {sec : List (List Char)} (h : sec ∈ sectionLines isBoundary text) :
    SectionIn isBoundary (lines text) sec ∨ (sec ≠ [] ∧ sec = lines text) ∨
      ∃ l ∈ sec, isBoundary l = true := by
  have hfold : ∀ ls : List (List Char),
      (∀ sec ∈ (ls.foldl (sectionStep isBoundary) ([], [])).1, SectionIn isBoundary ls sec) ∧
      ((ls.foldl (sectionStep isBoundary) ([], [])).2 = ls ∨
        ∃ l ∈ (ls.foldl (sectionStep isBoundary) ([], [])).2, isBoundary l = true) := by
    intro ls
    induction ls using List.reverseRecOn with
    | nil => exact ⟨fun sec hsec => absurd hsec List.not_mem_nil, .inl rfl⟩
    | append_singleton ls line ih =>
      rw [List.foldl_append, List.foldl_cons, List.foldl_nil]
      exact sectionStep_inv ih.1 ih.2 line
  obtain ⟨hclosed, hopen⟩ := hfold (lines text)
  unfold sectionLines at h
  dsimp only at h
  split at h
  · exact .inl (hclosed sec h)
  · rename_i hsome
    rcases List.mem_append.mp h with h | h
    · exact .inl (hclosed sec h)
    · rw [List.mem_singleton.mp h]
      refine .inr (hopen.imp_left fun hall => ⟨?_, hall⟩)
      simpa using hsome

/-- No header comes behind blank lines only. -/
def HeadersFirst (text : List Char) : Prop :=
  ∀ before header after, lines text = before ++ header :: after → isHeader header = true →
    before ≠ [] → ∃ l ∈ before, isBlank l = false

/-- A space has no lower case. -/
theorem toLower_of_isWhitespace {c : Char} (h : isWhitespace c = true) : c.toLower = c := by
  unfold Char.toLower
  refine dif_neg fun hupper => ?_
  have hlow : 65 ≤ c.toNat := UInt32.le_iff_toNat_le.mp hupper.1
  have hhigh : c.toNat ≤ 90 := UInt32.le_iff_toNat_le.mp hupper.2
  unfold isWhitespace at h
  simp only [Bool.or_eq_true, Bool.and_eq_true, decide_eq_true_eq, beq_iff_eq] at h
  omega

/-- A header is not blank. -/
theorem isBlank_of_isHeader {line : List Char} (h : isHeader line = true) :
    isBlank line = false := by
  by_contra hblank
  rw [Bool.not_eq_false] at hblank
  have hlower : line.map Char.toLower = line := by
    conv_rhs => rw [← List.map_id line]
    exact List.map_congr_left fun c hc =>
      toLower_of_isWhitespace (List.all_eq_true.mp hblank c hc)
  unfold isHeader at h
  rw [hlower] at h
  obtain ⟨start, hstart, hlead⟩ := List.any_eq_true.mp h
  have hspace : isBlank start.toList = true :=
    isBlank_of_subset (List.isPrefixOf_iff_prefix.mp hlead).subset hblank
  simp only [List.mem_cons, List.not_mem_nil, or_false] at hstart
  rcases hstart with rfl | rfl | rfl | rfl <;> exact absurd hspace (by decide)

/-- A text that is not blank has no blank section, if its first lines are not all blank. -/
theorem sections_blank {text s : List Char} (hs : s ∈ sections isHeader text)
    (hfirst : HeadersFirst text) (hsome : isBlank text = false) : isBlank s = false := by
  obtain ⟨sec, hsec, rfl⟩ := List.mem_map.mp hs
  by_contra hblank
  rw [Bool.not_eq_false] at hblank
  have hlines : ∀ l ∈ sec, isBlank l = true := fun l hl =>
    isBlank_of_subset (subset_intercalate _ hl) hblank
  have hnone : ¬ ∃ l ∈ sec, isHeader l = true := by
    rintro ⟨l, hl, h⟩
    exact absurd (hlines l hl) (by rw [isBlank_of_isHeader h]; exact Bool.false_ne_true)
  rcases sectionLines_cases hsec with ⟨hne, hheader | ⟨next, after, hls, hnext⟩⟩ |
    ⟨hne, hall⟩ | hheader
  · exact hnone hheader
  · obtain ⟨l, hl, h⟩ := hfirst sec next after hls hnext hne
    exact absurd (hlines l hl) (by rw [h]; exact Bool.false_ne_true)
  · have hwords : words isWhitespace text = [] := by
      rw [← flatMap_words_lines (fun _ h => h) text, List.flatMap_eq_nil_iff, ← hall]
      exact fun l hl => words_eq_nil_iff_isBlank.mpr (hlines l hl)
    rw [words_eq_nil_iff_isBlank.mp hwords] at hsome
    exact Bool.noConfusion hsome
  · exact hnone hheader

/-! ## Sentences -/

/-- A text without whitespace at its ends ends in no whitespace. -/
theorem getLast?_trim {text : List Char} {c : Char} (h : (trim text).getLast? = some c) :
    isWhitespace c = false := by
  have hne : trim text ≠ [] := fun hempty => by
    rw [hempty] at h
    exact Option.some_ne_none c h.symm
  rw [List.getLast?_eq_some_getLast hne] at h
  rw [← Option.some.inj h]
  exact Bool.eq_false_iff.mpr
    (List.rdropWhile_last_not isWhitespace (text.dropWhile isWhitespace) hne)

/-- A sentence is a part between stops. -/
structure IsSentence (s : List Char) : Prop where
  nonempty : s ≠ []
  noStop : ∀ c ∈ s, isStop c = false
  ends : ∀ c, s.getLast? = some c → isWhitespace c = false

/-- What a text is split into are sentences. -/
theorem isSentence_of_mem {text s : List Char} (h : s ∈ sentences text) : IsSentence s := by
  obtain ⟨hs, hne⟩ := List.mem_filter.mp h
  obtain ⟨piece, hpiece, rfl⟩ := List.mem_map.mp hs
  have hsome : trim piece ≠ [] := by simpa using hne
  have hword : piece ∈ words isStop text := by
    refine List.mem_filter.mpr ⟨hpiece, ?_⟩
    cases piece with
    | nil => exact absurd rfl hsome
    | cons c piece => rfl
  have hsub : trim piece ⊆ piece :=
    List.Subset.trans (List.rdropWhile_prefix _ _).subset (List.dropWhile_sublist _).subset
  exact ⟨hsome, fun c hc => (mem_words hword).2.1 c (hsub hc), fun c hc => getLast?_trim hc⟩

/-- The words of a text between stops are those of its sentences. -/
theorem flatMap_words_sentences {p : Char → Bool} (hspace : ∀ c, isWhitespace c = true → p c = true)
    (hstop : ∀ c, isStop c = true → p c = true) (text : List Char) :
    (sentences text).flatMap (words p) = words p text := by
  have hfilter : ∀ pieces : List (List Char),
      (pieces.filter fun s => !s.isEmpty).flatMap (words p) = pieces.flatMap (words p) := by
    intro pieces
    induction pieces with
    | nil => rfl
    | cons piece pieces ih =>
      cases piece with
      | nil => exact ih
      | cons c piece =>
        rw [List.filter_cons_of_pos rfl, List.flatMap_cons, List.flatMap_cons, ih]
  unfold sentences
  rw [hfilter, List.flatMap_map, words_eq_flatMap_splitOnP hstop]
  exact List.flatMap_congr fun piece _ => words_trim hspace piece

/-! ## Every chunker -/

/-- Punctuation that ends a sentence, for the chunker that cuts at it. -/
def Chunker.isPunctuation : Chunker → Char → Bool
  | plainOrChat, c => c = '.' || c = '!' || c = '?'
  | _, _ => false

/-- Where words end: at whitespace, and at punctuation for the chunker that cuts at it. -/
def Chunker.isSeparator (chunker : Chunker) (c : Char) : Bool :=
  isWhitespace c || chunker.isPunctuation c

/-- The limit of a chunk. -/
def Chunker.limit : Chunker → Option ℕ
  | markdown => some 1100
  | code => some 1200
  | email => none
  | table => some 1400
  | plainOrChat => some 900

/-- What a chunk has at least one of. -/
def Chunker.pieces : Chunker → List Char → List (List Char)
  | plainOrChat, text => sentences text
  | _, text => lines text

/-- A text that is kept whole: a table of few lines, or a text without sentences. -/
def Chunker.KeptWhole : Chunker → List Char → Prop
  | table, text => (lines text).length ≤ 24
  | plainOrChat, text => sentences text = []
  | _, _ => False

/-- No blank lines are left for a chunk of their own. -/
def Chunker.FitsBlanks : Chunker → List Char → Prop
  | markdown, text => ∀ s ∈ sections isHeading text, FitsBlankRuns 1100 (lines s)
  | code, text => ∀ s ∈ sections isDefinition text, FitsBlankRuns 1200 (lines s)
  | email, text => HeadersFirst text
  | table, text => 24 < (lines text).length → FitsBlankRuns 1400 (lines text)
  | plainOrChat, _ => True

section

variable {p : Char → Bool} (hp : ∀ c, isWhitespace c = true → p c = true)

include hp

/-- The words of a text are those of its sections. -/
theorem flatMap_words_sections (isBoundary : List Char → Bool) (text : List Char) :
    (sections isBoundary text).flatMap (words p) = words p text := by
  have hjoin : ∀ sec : List (List Char), words p (joinLines sec) = sec.flatMap (words p) :=
    words_intercalate (hp '\n' rfl) (fun _ h => absurd h List.not_mem_nil)
  unfold sections
  rw [List.flatMap_map, ← flatMap_words_lines hp text, ← flatten_sectionLines isBoundary text]
  induction sectionLines isBoundary text with
  | nil => rfl
  | cons sec rest ih =>
    rw [List.flatMap_cons, List.flatten_cons, List.flatMap_append, ih, hjoin]

/-- The sections of a text hold its words, in order. -/
theorem flatMap_words_chunkSections (isBoundary : List Char → Bool) (limit : ℕ)
    (text : List Char) : (chunkSections isBoundary limit text).flatMap (words p) =
      words p text := by
  unfold chunkSections
  split
  · exact List.flatMap_singleton _ _
  · rw [List.flatMap_assoc, ← flatMap_words_sections hp isBoundary text]
    refine List.flatMap_congr fun s _ => ?_
    rw [flatMap_words_splitByCharLimit hp, flatMap_words_lines hp]

end

/-- Every chunker keeps the words of its text. -/
theorem flatMap_words_chunk (chunker : Chunker) (text : List Char) :
    (chunker.chunk text).flatMap (words chunker.isSeparator) =
      words chunker.isSeparator text := by
  -- White space separates words for every chunker.
  have hspace : ∀ c, isWhitespace c = true → chunker.isSeparator c = true := by
    intro c hc
    unfold Chunker.isSeparator
    rw [hc, Bool.true_or]
  cases chunker with
  | markdown => exact flatMap_words_chunkSections hspace _ _ text
  | code => exact flatMap_words_chunkSections hspace _ _ text
  | email =>
    rw [Chunker.chunk, chunkEmail]
    -- An email without sections is one chunk.
    split
    · exact List.flatMap_singleton _ _
    · exact flatMap_words_sections hspace _ text
  | table =>
    rw [Chunker.chunk, chunkTableLike]
    split
    · exact List.flatMap_singleton _ _
    · rw [flatMap_words_splitByCharLimit hspace, flatMap_words_lines hspace]
  | plainOrChat =>
    -- The plain chunker cuts at full stops as well.
    have hstop : ∀ c, isStop c = true → Chunker.plainOrChat.isSeparator c = true := by
      intro c hc
      unfold isStop at hc
      rcases Bool.or_eq_true_iff.mp hc with hpunctuation | hfeed
      · exact Bool.or_eq_true_iff.mpr (.inr hpunctuation)
      · rw [of_decide_eq_true hfeed]
        rfl
    rw [Chunker.chunk, chunkPlainOrChat]
    split
    · exact List.flatMap_singleton _ _
    · rw [flatMap_words_pack hspace (hstop '.' rfl), flatMap_words_sentences hspace hstop]
      intro d hd
      rw [List.mem_singleton.mp hd]
      rfl

/-- Sentences that are joined have stops at the ends of words only. -/
theorem tidy_intercalate {run : List (List Char)} (h : ∀ s ∈ run, IsSentence s) :
    Tidy isWhitespace Chunker.plainOrChat.isPunctuation (['.', ' '].intercalate run) ∧
      ∀ c, (['.', ' '].intercalate run).getLast? = some c → isWhitespace c = false := by
  induction run using List.reverseRecOn with
  | nil => exact ⟨fun w hw => absurd hw List.not_mem_nil, fun c hc => absurd hc (by simp)⟩
  | append_singleton run s ih =>
    -- The last sentence joins the others by a full stop and a space.
    have hs : IsSentence s := h s (by simp)
    have htidy : Tidy isWhitespace Chunker.plainOrChat.isPunctuation s := by
      refine tidy_of_none fun c hc => ?_
      have hstop := hs.noStop c hc
      unfold isStop at hstop
      exact (Bool.or_eq_false_iff.mp hstop).1
    -- A single sentence is tidy by itself.
    by_cases hrun : run = []
    · rw [hrun, List.nil_append, List.intercalate_singleton]
      exact ⟨htidy, hs.ends⟩
    · obtain ⟨ihtidy, ihends⟩ := ih fun s' hs' => h s' (List.mem_append_left _ hs')
      rw [intercalate_concat _ hrun]
      constructor
      · obtain ⟨first, rest, rfl⟩ := List.exists_cons_of_ne_nil hrun
        obtain ⟨c, hc⟩ := List.exists_mem_of_ne_nil _
          (h first (List.mem_append_left _ List.mem_cons_self)).nonempty
        have hmem : c ∈ ['.', ' '].intercalate (first :: rest) :=
          subset_intercalate _ List.mem_cons_self hc
        have hlast := List.getLast?_eq_some_getLast (List.ne_nil_of_mem hmem)
        rw [List.append_cons, List.append_assoc]
        exact (ihtidy.concat hlast (ihends _ hlast) rfl rfl).append_cons htidy rfl
      · intro c hc
        rw [List.getLast?_append_of_ne_nil _ hs.nonempty] at hc
        exact hs.ends c hc

/-- The chunks of a text with stops at the ends of words only have them there too. -/
theorem tidy_chunk {chunker : Chunker} {text chunk : List Char}
    (htidy : Tidy isWhitespace chunker.isPunctuation text) (h : chunk ∈ chunker.chunk text) :
    Tidy isWhitespace chunker.isPunctuation chunk := by
  cases chunker with
  | plainOrChat =>
    rw [Chunker.chunk, chunkPlainOrChat] at h
    split at h
    · rw [List.mem_singleton.mp h]
      exact htidy
    · obtain ⟨before, run, after, joined, hpieces, hjoined, -, rfl, -⟩ := joined_of_mem_pack h
      unfold Tidy
      rw [words_trim fun _ h => h, hjoined.joined]
      have hsentences : ∀ s ∈ run, s ∈ sentences text := by
        rw [hpieces]
        exact fun s hs => List.mem_append_left _ (List.mem_append_right _ hs)
      exact (tidy_intercalate fun s hs => isSentence_of_mem (hsentences s hs)).1
  | _ => exact tidy_of_none fun _ _ => rfl

/-- Every chunker keeps the words of its text, up to punctuation at their ends, if it has no other
punctuation. -/
theorem map_core_words_chunk {chunker : Chunker} {text : List Char}
    (htidy : Tidy isWhitespace chunker.isPunctuation text) :
    ((chunker.chunk text).flatMap splitWhitespace).map (List.rdropWhile chunker.isPunctuation) =
      (splitWhitespace text).map (List.rdropWhile chunker.isPunctuation) := by
  have hcores : ∀ chunk ∈ chunker.chunk text,
      (splitWhitespace chunk).map (List.rdropWhile chunker.isPunctuation) =
        words chunker.isSeparator chunk :=
    fun chunk h => map_core_words (tidy_chunk htidy h)
  rw [List.map_flatMap, List.flatMap_congr hcores, flatMap_words_chunk]
  exact (map_core_words htidy).symm

/-- A text that is not blank has no blank chunk, if blank lines fit with what follows them. -/
theorem isBlank_of_mem_chunk {chunker : Chunker} {text chunk : List Char}
    (hfits : chunker.FitsBlanks text) (hsome : isBlank text = false)
    (h : chunk ∈ chunker.chunk text) : isBlank chunk = false := by
  -- The chunks of a section are those of its lines.
  have hsections : ∀ {isBoundary limit}, chunk ∈ chunkSections isBoundary limit text →
      (∀ s ∈ sections isBoundary text, FitsBlankRuns limit (lines s)) → isBlank chunk = false := by
    intro isBoundary limit h hfits
    unfold chunkSections at h
    split at h
    · rw [List.mem_singleton.mp h]
      exact hsome
    · obtain ⟨s, hs, h⟩ := List.mem_flatMap.mp h
      exact splitByCharLimit_blank h (hfits s hs)
  cases chunker with
  | markdown => exact hsections h hfits
  | code => exact hsections h hfits
  | email =>
    rw [Chunker.chunk, chunkEmail] at h
    split at h
    · rw [List.mem_singleton.mp h]
      exact hsome
    · exact sections_blank h hfits hsome
  | table =>
    rw [Chunker.chunk, chunkTableLike] at h
    split at h
    · rw [List.mem_singleton.mp h]
      exact hsome
    · rename_i hmany
      exact splitByCharLimit_blank h (hfits (not_le.mp hmany))
  | plainOrChat =>
    rw [Chunker.chunk, chunkPlainOrChat] at h
    split at h
    · rw [List.mem_singleton.mp h]
      exact hsome
    · obtain ⟨before, run, after, joined, hpieces, hjoined, hrun, rfl, -⟩ := joined_of_mem_pack h
      obtain ⟨s, rest, rfl⟩ := List.exists_cons_of_ne_nil hrun
      have hmem : s ∈ sentences text := by
        -- A chunk of sentences holds the first of them, which ends in something else than space.
        rw [hpieces]
        exact List.mem_append_left _ (List.mem_append_right _ List.mem_cons_self)
      have hs := isSentence_of_mem hmem
      have hlast := List.getLast?_eq_some_getLast hs.nonempty
      rw [isBlank_trim, hjoined.joined]
      by_contra hblank
      rw [Bool.not_eq_false] at hblank
      have hspace := List.all_eq_true.mp hblank _
        (subset_intercalate _ List.mem_cons_self (List.mem_of_getLast? hlast))
      rw [hs.ends _ hlast] at hspace
      exact Bool.noConfusion hspace

/-- A chunk is within the limit or one line or sentence, unless its text is kept whole. -/
theorem within_of_mem_chunk {chunker : Chunker} {text chunk : List Char} {limit : ℕ}
    (hlimit : chunker.limit = some limit) (h : chunk ∈ chunker.chunk text) :
    utf8Len chunk ≤ limit ∨ (∃ piece ∈ chunker.pieces text, chunk = trim piece) ∨
      (chunker.KeptWhole text ∧ chunk = text) := by
  -- A section is packed line by line, and only a line of its own is longer.
  have hsections : ∀ {isBoundary}, chunk ∈ chunkSections isBoundary limit text →
      utf8Len chunk ≤ limit ∨ ∃ line ∈ lines text, chunk = trim line := by
    intro isBoundary h
    unfold chunkSections at h
    split at h
    · rename_i hnone
      have hlines : lines text = [] := by
        rw [← flatten_sectionLines isBoundary text,
          List.map_eq_nil_iff.mp (List.isEmpty_iff.mp hnone), List.flatten_nil]
      rw [List.mem_singleton.mp h, eq_nil_of_lines hlines]
      exact .inl (Nat.zero_le _)
    · obtain ⟨s, hs, h⟩ := List.mem_flatMap.mp h
      refine (pack_within h).imp_right ?_
      rintro ⟨line, hline, rfl⟩
      exact exists_of_mem_lines_section hs hline
  cases chunker with
  | markdown =>
    obtain rfl := Option.some.inj hlimit
    exact (hsections h).imp_right .inl
  | code =>
    obtain rfl := Option.some.inj hlimit
    exact (hsections h).imp_right .inl
  | email => exact absurd hlimit.symm (Option.some_ne_none limit)
  | table =>
    obtain rfl := Option.some.inj hlimit
    rw [Chunker.chunk, chunkTableLike] at h
    split at h
    -- A table of few lines is left whole.
    · rename_i hfew
      exact .inr (.inr ⟨hfew, List.mem_singleton.mp h⟩)
    · exact (pack_within h).imp_right .inl
  | plainOrChat =>
    obtain rfl := Option.some.inj hlimit
    rw [Chunker.chunk, chunkPlainOrChat] at h
    split at h
    -- So is a text without sentences.
    · rename_i hnone
      exact .inr (.inr ⟨List.isEmpty_iff.mp hnone, List.mem_singleton.mp h⟩)
    · exact (pack_within h).imp_right .inl

/-- What the chunks of a text keep. Their words are the text's in its order, where those of plain
text are also cut at the punctuation that ends sentences. If this punctuation is at the ends of
words only, the words are the same up to it. No chunk of a text that is not blank is blank if blank
lines fit with what follows them. A chunk is within its limit unless it is one line or sentence, or
the text is kept whole. -/
theorem chunk_faithful (chunker : Chunker) (text : List Char) :
    (chunker.chunk text).flatMap (words chunker.isSeparator) = words chunker.isSeparator text ∧
      (Tidy isWhitespace chunker.isPunctuation text →
        ((chunker.chunk text).flatMap splitWhitespace).map
            (List.rdropWhile chunker.isPunctuation) =
          (splitWhitespace text).map (List.rdropWhile chunker.isPunctuation)) ∧
      (chunker.FitsBlanks text → isBlank text = false →
        ∀ chunk ∈ chunker.chunk text, isBlank chunk = false) ∧
      ∀ limit, chunker.limit = some limit → ∀ chunk ∈ chunker.chunk text,
        utf8Len chunk ≤ limit ∨ (∃ piece ∈ chunker.pieces text, chunk = trim piece) ∨
          (chunker.KeptWhole text ∧ chunk = text) :=
  ⟨flatMap_words_chunk chunker text, map_core_words_chunk,
    fun hfits hsome _ h => isBlank_of_mem_chunk hfits hsome h,
    fun _ hlimit _ h => within_of_mem_chunk hlimit h⟩

/-- Two sentences, of which each has its punctuation at its end. -/
def twoSentences : List Char :=
  "Paid 5 euros. Thanks, Bob!".toList

/-- The theorem at a text of two sentences. -/
theorem chunk_faithful_sentences :
    ((chunkPlainOrChat twoSentences).flatMap splitWhitespace).map
        (List.rdropWhile Chunker.plainOrChat.isPunctuation) =
      (splitWhitespace twoSentences).map (List.rdropWhile Chunker.plainOrChat.isPunctuation) ∧
    (∀ chunk ∈ chunkPlainOrChat twoSentences, isBlank chunk = false) ∧
    ∀ chunk ∈ chunkPlainOrChat twoSentences, utf8Len chunk ≤ 900 ∨
      (∃ s ∈ sentences twoSentences, chunk = trim s) ∨
        (sentences twoSentences = [] ∧ chunk = twoSentences) :=
  have htidy : Tidy isWhitespace Chunker.plainOrChat.isPunctuation twoSentences := by
    unfold Tidy
    decide +kernel
  have hsome : isBlank twoSentences = false := by decide +kernel
  have h := chunk_faithful .plainOrChat twoSentences
  ⟨h.2.1 htidy, h.2.2.1 trivial hsome, h.2.2.2 900 rfl⟩

/-- A table of two lines that are each within the limit. -/
def wideTable : List Char :=
  List.replicate 701 'A' ++ '\n' :: List.replicate 701 'B'

/-- The table is one chunk, which is longer than the limit and has two lines. -/
theorem wideTable_exceeds : ¬ ∀ chunk ∈ Chunker.table.chunk wideTable,
    utf8Len chunk ≤ 1400 ∨ ∃ line ∈ lines wideTable, chunk = trim line := by
  decide +kernel

end Tellodb
