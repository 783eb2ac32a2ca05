import Tellodb.Core.Text
import Mathlib.Algebra.BigOperators.Group.List.Basic
import Mathlib.Algebra.Order.BigOperators.Group.List
import Mathlib.Algebra.GroupWithZero.Nat
import Mathlib.Algebra.Order.Group.Nat
import Mathlib.Data.List.Basic
import Mathlib.Data.List.Infix
import Mathlib.Data.List.TakeWhile
import Mathlib.Data.Rat.Defs

/-!
# Search expressions

How a full-text expression is cut into its tokens: strings in double quotes, in which two quotes
stand for one, barewords and single marks, up to the first `NUL`. A quoted text is read back as one
string (`read_quoted`), a join of quoted texts as these strings (`tokens_join`). Every quote of an
expression is one of its strings' (`count_of_read`), which tells when texts that were put between
quotes as they are do not come back. -/

namespace Tellodb.Fts5

/-! ## Tokens -/

/-- A token of an expression. -/
inductive Token where
  /-- A text in double quotes. -/
  | string (text : List Char)
  | word (text : List Char)
  /-- A parenthesis, a brace, a colon and the like. -/
  | mark (c : Char)
  deriving DecidableEq

/-- What the token at hand is, with what was read of it. -/
inductive Reading where
  | between
  | word (text : List Char)
  /-- Inside of a string. -/
  | string (text : List Char)
  /-- After a quote inside of a string, its end or the first of two. -/
  | quote (text : List Char)

/-- The characters that separate tokens. -/
def isSpace (c : Char) : Bool :=
  c ∈ [' ', '\t', '\n', '\r']

/-- The characters that are tokens by themselves. -/
def marks : List Char :=
  ['(', ')', '\x7b', '\x7d', ':', ',', '+', '*', '-', '^']

/-- The characters that are tokens themselves. -/
def isMark (c : Char) : Bool :=
  c ∈ marks

/-- A character of a bareword. -/
def isBareword (c : Char) : Bool :=
  c.isAlphanum || c = '_' || c = '\x1a' || 128 ≤ c.toNat

/-- The first character of a token, or one between two. -/
def start (c : Char) : Option (List Token × Reading) :=
  if isSpace c then some ([], .between)
  else if isMark c then some ([.mark c], .between)
  else if c = '"' then some ([], .string [])
  else if isBareword c then some ([], .word [c])
  else none

/-- The next character, with the tokens that end before it or with it. -/
def Reading.step : Reading → Char → Option (List Token × Reading)
  | between, c => start c
  | word text, c =>
    if isBareword c then some ([], word (text ++ [c]))
    else (start c).map fun next => (.word text :: next.1, next.2)
  | string text, c => if c = '"' then some ([], quote text) else some ([], string (text ++ [c]))
  | quote text, c =>
    if c = '"' then some ([], string (text ++ ['"']))
    else (start c).map fun next => (.string text :: next.1, next.2)

/-- The end of the expression, which must not be inside of a string. -/
def Reading.finish : Reading → Option (List Token)
  | between => some []
  | word text => some [.word text]
  | string _ => none
  | quote text => some [.string text]

/-- The tokens of a text from a reading on. -/
def read : Reading → List Char → Option (List Token)
  | r, [] => r.finish
  | r, c :: rest => (r.step c).bind fun next => (read next.2 rest).map (next.1 ++ ·)

/-- The part of a text before its first `NUL`. -/
def cut (text : List Char) : List Char :=
  text.takeWhile (· ≠ '\x00')

/-- The tokens of an expression, if it has no error. -/
def tokens (expression : List Char) : Option (List Token) :=
  read .between (cut expression)

/-- A text with its quotes doubled. -/
def doubled (text : List Char) : List Char :=
  text.flatMap fun c => if c = '"' then ['"', '"'] else [c]

/-- A text in double quotes, with its own doubled. -/
def quoted (text : List Char) : List Char :=
  '"' :: doubled text ++ ['"']

/-- A text between double quotes as it is. -/
def enclosed (text : List Char) : List Char :=
  '"' :: text ++ ['"']

example : tokens "a:\"b \"\"c\"\"\"".toList =
    some [.word ['a'], .mark ':', .string "b \"c\"".toList] := by
  decide

/-! ## Reading back -/

section

variable {rest : List Char}

/-- To put no token in front changes nothing. -/
theorem map_nil_append (found : Option (List Token)) : found.map ([] ++ ·) = found := by
  cases found <;> rfl

/-- A mark is a token at once. -/
theorem start_mark {c : Char} (h : isMark c = true) : start c = some ([.mark c], .between) := by
  have hspace : ∀ c ∈ marks, isSpace c = false := by decide
  unfold start
  rw [hspace c (of_decide_eq_true h), h]
  rfl

/-- A mark is read as a token, -/
theorem read_mark {c : Char} (h : isMark c = true) :
    read .between (c :: rest) = (read .between rest).map (.mark c :: ·) := by
  rw [read, Reading.step, start_mark h]
  rfl

/-- and a space is skipped. -/
theorem read_space {c : Char} (h : isSpace c = true) :
    read .between (c :: rest) = read .between rest := by
  have hstart : start c = some ([], .between) := by
    unfold start
    rw [h]
    rfl
  rw [read, Reading.step, hstart, Option.bind_some]
  exact map_nil_append _

/-- A bareword starts with none of the other characters. -/
theorem start_word {c : Char} (h : isBareword c = true) : start c = some ([], .word [c]) := by
  have hother : ∀ d, isBareword d = false → c ≠ d := by
    rintro d hd rfl
    exact Bool.false_ne_true (hd.symm.trans h)
  have hnone : ∀ l : List Char, (∀ d ∈ l, isBareword d = false) → decide (c ∈ l) = false :=
    fun l hl => decide_eq_false fun hc => hother c (hl c hc) rfl
  unfold start isSpace isMark
  rw [hnone _ (by decide), hnone _ (by decide), if_neg (hother '"' rfl), h]
  rfl

/-- A bareword goes on to the first character that is none of it. -/
theorem read_word {word : List Char} (hword : ∀ c ∈ word, isBareword c = true) (text : List Char)
    (hrest : ∀ c ∈ rest.head?, isBareword c = false) :
    read (.word text) (word ++ rest) = (read .between rest).map (.word (text ++ word) :: ·) := by
  induction word generalizing text with
  | cons c word ih =>
    rw [List.cons_append, read, Reading.step, if_pos (hword c List.mem_cons_self), Option.bind_some,
      ih (fun c hc => hword c (List.mem_cons_of_mem _ hc)), List.append_assoc]
    exact map_nil_append _
  | nil =>
    rw [List.nil_append, List.append_nil]
    cases rest with
    | nil => rfl
    | cons c rest =>
      have hc := hrest c rfl
      rw [read, read, Reading.step, Reading.step, if_neg (by rw [hc]; exact Bool.false_ne_true)]
      cases start c with
      | none => rfl
      | some next =>
        rw [Option.map_some, Option.bind_some, Option.bind_some, Option.map_map]
        rfl

/-- A bareword is read as such. -/
theorem read_bareword {word : List Char} (hword : ∀ c ∈ word, isBareword c = true)
    (hne : word ≠ []) (hrest : ∀ c ∈ rest.head?, isBareword c = false) :
    read .between (word ++ rest) = (read .between rest).map (.word word :: ·) := by
  cases word with
  | nil => exact absurd rfl hne
  | cons c word =>
    rw [List.cons_append, read, Reading.step, start_word (hword c List.mem_cons_self),
      Option.bind_some, map_nil_append,
      read_word (fun c hc => hword c (List.mem_cons_of_mem _ hc)) [c] hrest]
    rfl

/-- The quotes that a text doubles are read as its own. -/
theorem read_doubled (text : List Char) (before : List Char) :
    read (.string before) (doubled text ++ rest) = read (.string (before ++ text)) rest := by
  unfold doubled
  induction text generalizing before with
  | nil => rw [List.flatMap_nil, List.nil_append, List.append_nil]
  | cons c text ih =>
    rw [List.flatMap_cons, List.append_assoc, List.append_cons before c text]
    by_cases hc : c = '"'
    · -- The first quote may end the string, the second says that it does not.
      rw [if_pos hc, List.cons_append, List.singleton_append, read, Reading.step, if_pos rfl,
        Option.bind_some, read, Reading.step, if_pos rfl, Option.bind_some, map_nil_append,
        map_nil_append, hc]
      exact ih _
    · rw [if_neg hc, List.singleton_append, read, Reading.step, if_neg hc, Option.bind_some,
        map_nil_append]
      exact ih _

/-- A quoted text is read back as one string, whatever follows but another quote. -/
theorem read_quoted (text : List Char) (hrest : rest.head? ≠ some '"') :
    read .between (quoted text ++ rest) = (read .between rest).map (.string text :: ·) := by
  have hopen : start '"' = some ([], .string []) := rfl
  unfold quoted
  rw [List.cons_append, List.cons_append, read, Reading.step, hopen, Option.bind_some,
    map_nil_append, List.append_assoc, read_doubled, List.nil_append, List.singleton_append, read,
    Reading.step, if_pos rfl, Option.bind_some, map_nil_append]
  cases rest with
  | nil => rfl
  | cons c rest =>
    have hc : c ≠ '"' := fun h => hrest (by rw [h]; rfl)
    rw [read, read, Reading.step, Reading.step, if_neg hc]
    cases start c with
    | none => rfl
    | some next =>
      rw [Option.map_some, Option.bind_some, Option.bind_some, Option.map_map]
      rfl

/-- A text without quotes is quoted as it is. -/
theorem quoted_eq_enclosed {text : List Char} (h : '"' ∉ text) : quoted text = enclosed text := by
  have hsame : doubled text = text.flatMap fun c => [c] := by
    refine List.flatMap_congr fun c hc => if_neg fun heq => h ?_
    rw [← heq]
    exact hc
  unfold quoted enclosed
  rw [hsame, List.flatMap_singleton']

/-- Texts joined by `OR`. -/
def joined (texts : List (List Char)) : List Char :=
  [' ', 'O', 'R', ' '].intercalate texts

/-- Strings joined by `OR`. -/
def joinTokens (texts : List (List Char)) : List Token :=
  [Token.word ['O', 'R']].intercalate (texts.map fun text => [.string text])

/-- A join of quoted texts is read back as these strings. -/
theorem read_joined {texts : List (List Char)} (hne : texts ≠ []) (hrest : rest.head? ≠ some '"') :
    read .between (joined (texts.map quoted) ++ rest) =
      (read .between rest).map (joinTokens texts ++ ·) := by
  unfold joined joinTokens
  induction texts with
  | nil => exact absurd rfl hne
  | cons text texts ih =>
    -- The text is the last one, or it is followed by the operator and the next one.
    cases texts with
    | nil =>
      rw [List.map_singleton, List.map_singleton, List.intercalate_singleton,
        List.intercalate_singleton]
      exact read_quoted text hrest
    | cons next texts =>
      -- The operator stands between two spaces and is read as a word.
      have hor : ∀ rest, read .between (' ' :: 'O' :: 'R' :: ' ' :: rest) =
          (read .between rest).map (.word ['O', 'R'] :: ·) := by
        intro rest
        have hword : read .between (['O', 'R'] ++ ' ' :: rest) =
            (read .between (' ' :: rest)).map (.word ['O', 'R'] :: ·) :=
          read_bareword (by decide) (by decide) (by rintro c ⟨⟩; rfl)
        rw [read_space rfl]
        exact hword.trans (by rw [read_space rfl])
      rw [List.map_cons, List.map_cons, List.map_cons, List.map_cons, List.intercalate_cons_cons,
        List.intercalate_cons_cons, List.append_assoc, List.append_assoc]
      have hnext := ih (List.cons_ne_nil _ _)
      rw [List.map_cons, List.map_cons] at hnext
      -- The quoted text is read first, then the operator, then the rest.
      calc read .between (quoted text ++ ([' ', 'O', 'R', ' '] ++
            ([' ', 'O', 'R', ' '].intercalate (quoted next :: texts.map quoted) ++ rest)))
        _ = (read .between (' ' :: 'O' :: 'R' :: ' ' ::
              ([' ', 'O', 'R', ' '].intercalate (quoted next :: texts.map quoted) ++ rest))).map
                (.string text :: ·) :=
            read_quoted text fun h => absurd (Option.some.inj h) (by decide)
        _ = _ := by
            rw [hor, hnext]
            cases read .between rest <;> rfl

end

/-! ## Every quote is one of a string -/

/-- How many quotes a token takes. -/
def Token.quotes : Token → ℕ
  | string text => 2 + 2 * text.count '"'
  | _ => 0

/-- How many quotes were read of the token at hand. -/
def Reading.quotes : Reading → ℕ
  | string text => 1 + 2 * text.count '"'
  | quote text => 2 + 2 * text.count '"'
  | _ => 0

/-- The first character of a token accounts for its quotes. -/
theorem quotes_start {c : Char} {next : List Token × Reading} (h : start c = some next) :
    (next.1.map Token.quotes).sum + next.2.quotes = [c].count '"' := by
  unfold start at h
  have hnot : ∀ l : List Char, '"' ∉ l → decide (c ∈ l) = true → [c].count '"' = 0 :=
    fun l hl hc => List.count_eq_zero.mpr fun hq =>
      hl (by rw [List.mem_singleton.mp hq]; exact of_decide_eq_true hc)
  -- The cases are those of the definition, and only the quote counts.
  by_cases hspace : isSpace c = true
  · rw [if_pos hspace] at h
    rw [← Option.some.inj h, hnot _ (by decide) hspace]
    rfl
  rw [if_neg hspace] at h
  by_cases hmark : isMark c = true
  · rw [if_pos hmark] at h
    rw [← Option.some.inj h, hnot _ (by decide) hmark]
    rfl
  rw [if_neg hmark] at h
  by_cases hc : c = '"'
  · rw [if_pos hc] at h
    rw [← Option.some.inj h, hc]
    rfl
  rw [if_neg hc] at h
  by_cases hword : isBareword c = true
  · rw [if_pos hword] at h
    rw [← Option.some.inj h, List.count_eq_zero.mpr fun hq => hc (List.mem_singleton.mp hq).symm]
    rfl
  · rw [if_neg hword] at h
    exact absurd h.symm (Option.some_ne_none _)

/-- A character adds its quote to those of the tokens that end with it and of the one at hand. -/
theorem quotes_step {r : Reading} {c : Char} {next : List Token × Reading}
    (h : r.step c = some next) :
    (next.1.map Token.quotes).sum + next.2.quotes = r.quotes + [c].count '"' := by
  have hother : c ≠ '"' → [c].count '"' = 0 :=
    fun hc => List.count_eq_zero.mpr fun hq => hc (List.mem_singleton.mp hq).symm
  cases r with
  | between =>
    have hstart := quotes_start h
    rw [hstart]
    exact (Nat.zero_add _).symm
  | word text =>
    rw [Reading.step] at h
    -- The word goes on, or it ends and the character starts something else.
    by_cases hword : isBareword c = true
    · rw [if_pos hword] at h
      rw [← Option.some.inj h, hother fun hc => absurd (hc ▸ hword) (by decide)]
      rfl
    · rw [if_neg hword] at h
      obtain ⟨next, hstart, rfl⟩ := Option.map_eq_some_iff.mp h
      rw [List.map_cons, List.sum_cons, Nat.add_assoc, quotes_start hstart]
      rfl
  | string text =>
    rw [Reading.step] at h
    -- The quote ends the string or is the first one of two.
    by_cases hc : c = '"'
    · rw [if_pos hc] at h
      rw [← Option.some.inj h, hc]
      simp only [Reading.quotes, List.map_nil, List.sum_nil, List.count_singleton_self]
      omega
    · rw [if_neg hc] at h
      rw [← Option.some.inj h]
      simp only [Reading.quotes, List.map_nil, List.sum_nil, List.count_append, hother hc]
      omega
  | quote text =>
    rw [Reading.step] at h
    -- The second quote belongs to the text, and anything else has ended the string.
    by_cases hc : c = '"'
    · rw [if_pos hc] at h
      rw [← Option.some.inj h, hc]
      simp only [Reading.quotes, List.map_nil, List.sum_nil, List.count_append,
        List.count_singleton_self]
      omega
    · rw [if_neg hc] at h
      obtain ⟨next, hstart, rfl⟩ := Option.map_eq_some_iff.mp h
      rw [List.map_cons, List.sum_cons, Nat.add_assoc, quotes_start hstart]
      rfl

/-- The quotes of a text are those of its tokens. -/
theorem count_of_read {r : Reading} {text : List Char} {found : List Token}
    (h : read r text = some found) :
    (found.map Token.quotes).sum = r.quotes + text.count '"' := by
  induction text generalizing r found with
  | nil =>
    rw [read] at h
    cases r with
    | string text => exact absurd h.symm (Option.some_ne_none _)
    | between | word text | quote text =>
      rw [← Option.some.inj h]
      rfl
  | cons c rest ih =>
    rw [read] at h
    obtain ⟨next, hstep, h⟩ := Option.bind_eq_some_iff.mp h
    obtain ⟨more, hmore, rfl⟩ := Option.map_eq_some_iff.mp h
    have hhead := quotes_step hstep
    have htail := ih hmore
    have hcount : (c :: rest).count '"' = [c].count '"' + rest.count '"' := by
      rw [← List.count_append]
      rfl
    rw [List.map_append, List.sum_append, htail, hcount]
    omega

/-! ## Texts with `NUL` -/

/-- A text without a zero is not cut before its end. -/
theorem cut_append_of_notMem {a : List Char} (h : '\x00' ∉ a) (b : List Char) :
    cut (a ++ b) = a ++ cut b :=
  List.takeWhile_append_of_pos fun _ hc => decide_eq_true fun heq => h (heq ▸ hc)

/-- A text without a zero is not cut. -/
theorem cut_of_notMem {text : List Char} (h : '\x00' ∉ text) : cut text = text := by
  have happend := cut_append_of_notMem h []
  rw [List.append_nil] at happend
  exact happend.trans (List.append_nil text)

/-- Nothing behind a zero is read. -/
theorem cut_append_of_mem {a : List Char} (h : '\x00' ∈ a) (b : List Char) :
    cut (a ++ b) = cut a := by
  obtain ⟨p, q, rfl⟩ := List.append_of_mem h
  unfold cut
  induction p with
  | nil => rfl
  | cons c p ih =>
    rw [List.cons_append, List.cons_append, List.takeWhile_cons, List.takeWhile_cons,
      ih (List.mem_append_right _ List.mem_cons_self)]

/-- Cutting and doubling commute. -/
theorem cut_doubled (text : List Char) : cut (doubled text) = doubled (cut text) := by
  unfold cut doubled
  induction text with
  | nil => rfl
  | cons c text ih =>
    rw [List.flatMap_cons, List.takeWhile_cons]
    by_cases hquote : c = '"'
    · rw [if_pos hquote, hquote, List.cons_append, List.singleton_append, List.takeWhile_cons,
        List.takeWhile_cons, ih]
      rfl
    · rw [if_neg hquote, List.singleton_append, List.takeWhile_cons, ih]
      by_cases hnul : c = '\x00'
      · rw [hnul]
        rfl
      · rw [if_pos (decide_eq_true hnul), if_pos (decide_eq_true hnul), List.flatMap_cons,
          if_neg hquote, List.singleton_append]

/-- A text has fewer quotes before a `NUL` that one follows. -/
theorem count_cut_lt {a b : List Char} (hb : '"' ∈ b) :
    (cut (a ++ '\x00' :: b)).count '"' < (a ++ '\x00' :: b).count '"' := by
  have hlead : cut (a ++ ['\x00'] ++ b) = cut (a ++ ['\x00']) :=
    cut_append_of_mem (List.mem_append_right _ List.mem_cons_self) b
  have hle : (cut (a ++ ['\x00'])).count '"' ≤ (a ++ ['\x00']).count '"' :=
    (List.takeWhile_sublist _).count_le '"'
  have hpos : 0 < b.count '"' := List.count_pos_iff.mpr hb
  rw [List.append_cons, hlead, List.count_append]
  omega

/-! ## Joins -/

/-- The quotes of joined texts add up. -/
theorem count_joined (texts : List (List Char)) :
    (joined texts).count '"' = (texts.map fun text => text.count '"').sum := by
  unfold joined
  induction texts with
  | nil => rfl
  | cons text texts ih =>
    cases texts with
    | nil => rw [List.intercalate_singleton]; rfl
    | cons next texts =>
      rw [List.intercalate_cons_cons, List.count_append, List.count_append, ih, List.map_cons,
        List.sum_cons]
      rfl

/-- Each of the joined texts has two quotes around it, and its own ones doubled. -/
theorem quotes_joinTokens (texts : List (List Char)) :
    ((joinTokens texts).map Token.quotes).sum =
      (texts.map fun text => 2 + 2 * text.count '"').sum := by
  unfold joinTokens
  induction texts with
  | nil => rfl
  | cons text texts ih =>
    cases texts with
    | nil => rfl
    | cons next texts =>
      rw [List.map_cons] at ih
      rw [List.map_cons, List.map_cons, List.intercalate_cons_cons, List.map_append,
        List.map_append, List.sum_append, List.sum_append, ih, List.map_cons, List.sum_cons]
      rfl

/-- A join has each of its texts as a part. -/
theorem exists_joined {texts : List (List Char)} {text : List Char} (h : text ∈ texts) :
    ∃ a b, joined texts = a ++ text ++ b := by
  unfold joined
  induction texts with
  | nil => exact absurd h List.not_mem_nil
  | cons first texts ih =>
    cases texts with
    | nil => exact ⟨[], [], by rw [List.mem_singleton.mp h, List.intercalate_singleton]; simp⟩
    | cons next texts =>
      rw [List.intercalate_cons_cons]
      rcases List.mem_cons.mp h with rfl | hmem
      · exact ⟨[], _, by rw [List.nil_append, List.append_assoc]⟩
      · obtain ⟨a, b, hsplit⟩ := ih hmem
        exact ⟨first ++ [' ', 'O', 'R', ' '] ++ a, b, by rw [hsplit]; simp only [List.append_assoc]⟩

/-- A way to put quotes around a text. -/
structure Wraps (wrap : List Char → List Char) (inner : List Char → List Char) : Prop where
  wrap_eq : ∀ text, wrap text = '"' :: inner text ++ ['"']
  nul : ∀ text, '\x00' ∈ text → '\x00' ∈ inner text
  count_le : ∀ text, (wrap text).count '"' ≤ 2 + 2 * text.count '"'

/-- Doubling doubles the quotes. -/
theorem count_doubled (text : List Char) : (doubled text).count '"' = 2 * text.count '"' := by
  unfold doubled
  induction text with
  | nil => rfl
  | cons c text ih =>
    rw [List.flatMap_cons, List.count_append, ih]
    by_cases hc : c = '"'
    · rw [if_pos hc, hc, List.count_cons_self, List.count_cons_self, List.count_cons_self,
        List.count_nil]
      omega
    · rw [if_neg hc, List.count_cons_of_ne hc, List.count_cons_of_ne hc, List.count_nil]
      omega

/-- A quoted text has two more quotes than the doubled one. -/
theorem count_quoted (text : List Char) : (quoted text).count '"' = 2 + 2 * text.count '"' := by
  unfold quoted
  rw [List.count_append, List.count_cons_self, count_doubled, List.count_singleton_self]
  omega

/-- Quoting wraps the doubled text. -/
theorem wraps_quoted : Wraps quoted doubled where
  wrap_eq _ := rfl
  nul text h := List.mem_flatMap.mpr ⟨'\x00', h, List.mem_cons_self⟩
  count_le text := by
    rw [count_quoted]

/-- An enclosed text has two more quotes than the text. -/
theorem count_enclosed (text : List Char) : (enclosed text).count '"' = 2 + text.count '"' := by
  unfold enclosed
  rw [List.count_append, List.count_cons_self, List.count_singleton_self]
  omega

/-- Enclosing wraps the text itself. -/
theorem wraps_enclosed : Wraps enclosed id where
  wrap_eq _ := rfl
  nul _ h := h
  count_le text := by
    rw [count_enclosed]
    omega

/-- If an expression is read as a join of strings, the texts that it has between quotes have no
`NUL`, and as many quotes as these strings take. -/
theorem count_of_tokens {wrap inner : List Char → List Char} (hwrap : Wraps wrap inner)
    {lead tail : List Char} (hlead : '"' ∉ lead) (htail : '"' ∉ tail) {texts : List (List Char)}
    {before after : List Token}
    (h : tokens (lead ++ joined (texts.map wrap) ++ tail) =
      some (before ++ joinTokens texts ++ after)) :
    ∀ text ∈ texts, '\x00' ∉ text ∧ (wrap text).count '"' = 2 + 2 * text.count '"' := by
  have hread := count_of_read h
  rw [List.map_append, List.map_append, List.sum_append, List.sum_append,
    quotes_joinTokens] at hread
  have hwhole : (lead ++ joined (texts.map wrap) ++ tail).count '"' =
      (texts.map fun text => (wrap text).count '"').sum := by
    rw [List.count_append, List.count_append, List.count_eq_zero.mpr hlead,
      List.count_eq_zero.mpr htail, count_joined, List.map_map, Nat.zero_add]
    rfl
  have hcut : (cut (lead ++ joined (texts.map wrap) ++ tail)).count '"' ≤
      (lead ++ joined (texts.map wrap) ++ tail).count '"' :=
    (List.takeWhile_sublist _).count_le '"'
  have hsum : (texts.map fun text => (wrap text).count '"').sum ≤
      (texts.map fun text => 2 + 2 * text.count '"').sum :=
    List.sum_le_sum fun text _ => hwrap.count_le text
  have hzero : Reading.quotes .between = 0 := rfl
  intro text htext
  constructor
  · intro hnul
    -- The quote that closes the text is behind the `NUL`, so that fewer quotes are read.
    obtain ⟨a, b, hsplit⟩ := exists_joined (List.mem_map_of_mem htext (f := wrap))
    obtain ⟨p, q, hinner⟩ := List.append_of_mem (hwrap.nul text hnul)
    have hparts : lead ++ joined (texts.map wrap) ++ tail =
        (lead ++ a ++ '"' :: p) ++ '\x00' :: (q ++ '"' :: (b ++ tail)) := by
      rw [hsplit, hwrap.wrap_eq, hinner]
      simp only [List.append_assoc, List.cons_append, List.nil_append]
    have hlt := count_cut_lt (a := lead ++ a ++ '"' :: p)
      (b := q ++ '"' :: (b ++ tail)) (List.mem_append_right _ List.mem_cons_self)
    rw [← hparts] at hlt
    omega
  · refine le_antisymm (hwrap.count_le text) (not_lt.mp fun hless => ?_)
    have hlt := List.sum_lt_sum _ _ (fun text _ => hwrap.count_le text) ⟨text, htext, hless⟩
    omega

/-- An expression without `NUL` is read to its end. -/
theorem tokens_of_notMem {expression : List Char} (h : '\x00' ∉ expression) :
    tokens expression = read .between expression := by
  unfold tokens
  rw [cut_of_notMem h]

/-- The characters of a join are those of its texts, of the spaces and of `OR`. -/
theorem mem_joined {texts : List (List Char)} {c : Char} (h : c ∈ joined texts) :
    c ∈ [' ', 'O', 'R', ' '] ∨ ∃ text ∈ texts, c ∈ text := by
  unfold joined at h
  induction texts with
  | nil => exact absurd h List.not_mem_nil
  | cons text texts ih =>
    cases texts with
    | nil =>
      rw [List.intercalate_singleton] at h
      exact .inr ⟨text, List.mem_cons_self, h⟩
    | cons next texts =>
      rw [List.intercalate_cons_cons, List.mem_append, List.mem_append] at h
      rcases h with (h | h) | h
      · exact .inr ⟨text, List.mem_cons_self, h⟩
      · exact .inl h
      · rcases ih h with hsep | ⟨other, hother, hc⟩
        · exact .inl hsep
        · exact .inr ⟨other, List.mem_cons_of_mem _ hother, hc⟩

/-- Putting quotes around a text brings no other characters. -/
theorem mem_of_mem_quoted {text : List Char} {c : Char} (hc : c ≠ '"') (h : c ∈ quoted text) :
    c ∈ text := by
  unfold quoted doubled at h
  rw [List.mem_append, List.mem_cons, List.mem_flatMap, List.mem_singleton] at h
  rcases h with (h | ⟨d, hd, h⟩) | h
  · exact absurd h hc
  · by_cases hquote : d = '"'
    · rw [if_pos hquote] at h
      simp only [List.mem_cons, List.not_mem_nil, or_false, or_self] at h
      exact absurd h hc
    · rw [if_neg hquote] at h
      rw [List.mem_singleton.mp h]
      exact hd
  · exact absurd h hc

/-! ## When texts come back -/

section

variable {texts : List (List Char)}

/-- Quoted texts come back from an expression around them if they have no `NUL`. -/
theorem tokens_quoted_iff {lead tail : List Char} {before after : List Token}
    (hquote : '"' ∉ lead ++ tail) (hnul : '\x00' ∉ lead ++ tail)
    (hread : read .between (lead ++ joined (texts.map quoted) ++ tail) =
      some (before ++ joinTokens texts ++ after)) :
    tokens (lead ++ joined (texts.map quoted) ++ tail) =
        some (before ++ joinTokens texts ++ after) ↔ ∀ text ∈ texts, '\x00' ∉ text := by
  rw [List.mem_append, not_or] at hquote hnul
  constructor
  · exact fun h text htext => (count_of_tokens wraps_quoted hquote.1 hquote.2 h text htext).1
  · intro hclear
    rw [tokens_of_notMem, hread]
    rw [List.mem_append, List.mem_append, not_or, not_or]
    refine ⟨⟨hnul.1, fun h => ?_⟩, hnul.2⟩
    rcases mem_joined h with hsep | ⟨wrapped, hwrapped, h⟩
    · exact absurd hsep (by decide)
    · obtain ⟨text, htext, rfl⟩ := List.mem_map.mp hwrapped
      exact hclear text htext (mem_of_mem_quoted (by decide) h)

/-- A `NUL` in one of several quoted texts leaves a quote without the other. -/
theorem count_cut_joined {text : List Char} (htext : text ∈ texts) (hnul : '\x00' ∈ text)
    (rest : List Char) : (cut (joined (texts.map quoted) ++ rest)).count '"' % 2 = 1 := by
  unfold joined
  induction texts with
  | nil => exact absurd htext List.not_mem_nil
  | cons first texts ih =>
    by_cases hfirst : '\x00' ∈ first
    · -- The text is cut inside of its first string.
      have hopen : ∀ more, (cut (quoted first ++ more)).count '"' % 2 = 1 := by
        intro more
        have hmem : '\x00' ∈ doubled first := wraps_quoted.nul first hfirst
        have hcut : cut (['"'] ++ (doubled first ++ (['"'] ++ more))) =
            ['"'] ++ cut (doubled first ++ (['"'] ++ more)) :=
          cut_append_of_notMem (by decide) _
        -- The character is in the part that is doubled, so the cut falls between the quotes.
        have hparts : quoted first ++ more = ['"'] ++ (doubled first ++ (['"'] ++ more)) := by
          unfold quoted
          simp only [List.append_assoc, List.cons_append, List.nil_append]
        rw [hparts, hcut, cut_append_of_mem hmem, cut_doubled, List.count_append, count_doubled,
          List.count_singleton_self]
        omega
      cases texts with
      | nil =>
        rw [List.map_singleton, List.intercalate_singleton]
        exact hopen rest
      | cons next texts =>
        rw [List.map_cons, List.map_cons, List.intercalate_cons_cons, List.append_assoc,
          List.append_assoc]
        exact hopen _
    -- The first string is whole, and the text is a later one.
    · have hmem : text ∈ texts := by
        rcases List.mem_cons.mp htext with rfl | hmem
        · exact absurd hnul hfirst
        · exact hmem
      cases texts with
      | nil => exact absurd hmem List.not_mem_nil
      | cons next texts =>
        -- What stands before the next string has no such character and an even number of quotes.
        have hquoted : '\x00' ∉ quoted first ++ [' ', 'O', 'R', ' '] := by
          rw [List.mem_append, not_or]
          exact ⟨fun h => hfirst (mem_of_mem_quoted (by decide) h), by decide⟩
        have hcount : ([' ', 'O', 'R', ' '] : List Char).count '"' = 0 := rfl
        rw [List.map_cons, List.map_cons, List.intercalate_cons_cons, List.append_assoc,
          cut_append_of_notMem hquoted, List.count_append, List.count_append, count_quoted, hcount]
        have hnext := ih hmem
        rw [List.map_cons] at hnext
        omega

/-- A `NUL` in one of several quoted texts is an error. -/
theorem tokens_of_nul {lead : List Char} (hquote : '"' ∉ lead) (hlead : '\x00' ∉ lead)
    {text : List Char} (htext : text ∈ texts) (hnul : '\x00' ∈ text) (tail : List Char) :
    tokens (lead ++ joined (texts.map quoted) ++ tail) = none := by
  cases hfound : tokens (lead ++ joined (texts.map quoted) ++ tail) with
  | none => rfl
  | some found =>
    have hcount := count_of_read hfound
    have hodd := count_cut_joined htext hnul tail
    have heven : (found.map Token.quotes).sum % 2 = 0 := by
      clear hcount hfound
      induction found with
      | nil => rfl
      | cons token found ih =>
        have htoken : token.quotes % 2 = 0 := by
          cases token with
          | string text => simp only [Token.quotes]; omega
          | word text | mark c => rfl
        rw [List.map_cons, List.sum_cons]
        omega
    have hzero : Reading.quotes .between = 0 := rfl
    rw [List.append_assoc, cut_append_of_notMem hlead, List.count_append,
      List.count_eq_zero.mpr hquote] at hcount
    omega

/-- Texts that were put between quotes as they are come back if they have neither a `NUL` nor a
quote. -/
theorem tokens_enclosed_iff (hne : texts ≠ []) :
    tokens (joined (texts.map enclosed)) = some (joinTokens texts) ↔
      ∀ text ∈ texts, '\x00' ∉ text ∧ '"' ∉ text := by
  constructor
  · intro h text htext
    have hparts : tokens ([] ++ joined (texts.map enclosed) ++ []) =
        some ([] ++ joinTokens texts ++ []) := by
      rw [List.append_nil, List.append_nil]
      exact h
    obtain ⟨hnul, hcount⟩ := count_of_tokens wraps_enclosed List.not_mem_nil List.not_mem_nil
      hparts text htext
    -- A quote of the text is taken once in the expression and twice in a string.
    rw [count_enclosed] at hcount
    exact ⟨hnul, List.count_eq_zero.mp (by omega)⟩
  · intro hclear
    have hsame : texts.map enclosed = texts.map quoted :=
      List.map_congr_left fun text htext => (quoted_eq_enclosed (hclear text htext).2).symm
    have hread : read .between ([] ++ joined (texts.map quoted) ++ []) =
        some ([] ++ joinTokens texts ++ []) := by
      rw [List.nil_append]
      exact read_joined hne (by simp)
    have h := (tokens_quoted_iff (by decide) (by decide) hread).mpr fun text htext =>
      (hclear text htext).1
    rw [List.nil_append, List.append_nil, List.nil_append, List.append_nil] at h
    rw [hsame]
    exact h

end

/-! ## Columns -/

/-- `column:word AND` -/
def scopeTokens (column word : List Char) : List Token :=
  [.word column, .mark ':', .word word, .word ['A', 'N', 'D']]

/-- Strings that are looked for in a column, joined by `OR`. -/
def withinTokens (column : List Char) (texts : List (List Char)) : List Token :=
  [.mark '\x7b', .word column, .mark '\x7d', .mark ':', .mark '('] ++ joinTokens texts ++
    [.mark ')']

section

variable {column word : List Char} {texts : List (List Char)} {rest : List Char}

/-- The scope of an expression is read as a column and its word. -/
theorem read_scope (hcolumn : ∀ c ∈ column, isBareword c = true) (hcolumnNe : column ≠ [])
    (hword : ∀ c ∈ word, isBareword c = true) (hwordNe : word ≠ []) :
    read .between (column ++ ':' :: (word ++ ' ' :: 'A' :: 'N' :: 'D' :: ' ' :: rest)) =
      (read .between rest).map (scopeTokens column word ++ ·) := by
  have hand : read .between (['A', 'N', 'D'] ++ ' ' :: rest) =
      (read .between (' ' :: rest)).map (.word ['A', 'N', 'D'] :: ·) :=
    read_bareword (by decide) (by decide) (by rintro c ⟨⟩; rfl)
  rw [read_bareword hcolumn hcolumnNe (by rintro c ⟨⟩; rfl), read_mark rfl,
    read_bareword hword hwordNe (by rintro c ⟨⟩; rfl), read_space rfl]
  rw [read_space rfl] at hand
  rw [show ('A' :: 'N' :: 'D' :: ' ' :: rest) = ['A', 'N', 'D'] ++ ' ' :: rest from rfl, hand]
  cases read .between rest <;> rfl

/-- What stands within a column is read as its texts. -/
theorem read_within (hcolumn : ∀ c ∈ column, isBareword c = true) (hcolumnNe : column ≠ [])
    (hne : texts ≠ []) :
    read .between ('\x7b' :: (column ++ '\x7d' :: ':' :: '(' ::
        (joined (texts.map quoted) ++ [')']))) = some (withinTokens column texts) := by
  have hclose : read .between [')'] = some [.mark ')'] := rfl
  have hjoined : read .between (joined (texts.map quoted) ++ [')']) =
      (read .between [')']).map (joinTokens texts ++ ·) :=
    read_joined hne fun h => absurd (Option.some.inj h) (by decide)
  rw [read_mark rfl, read_bareword hcolumn hcolumnNe (by rintro c ⟨⟩; rfl), read_mark rfl,
    read_mark rfl, read_mark rfl, hjoined, hclose]
  rfl

end

/-- The hexadecimal digits, with letters in lower case. -/
def hexDigits : List Char :=
  ['0', '1', '2', '3', '4', '5', '6', '7', '8', '9', 'a', 'b', 'c', 'd', 'e', 'f']

/-- The hexadecimal digits are bareword characters. -/
theorem isBareword_of_mem_hexDigits {c : Char} (h : c ∈ hexDigits) : isBareword c = true := by
  have hall : ∀ c ∈ hexDigits, isBareword c = true := by decide
  exact hall c h

/-- What answers expressions, over rows of named columns. -/
structure Engine where
  /-- Whether a row matches. -/
  holds : List Token → (String → String) → Bool
  /-- `rank`, which depends on all rows. -/
  rank : List (String → String) → List Token → (String → String) → ℚ
  /-- The tokens of a text, stemmed. -/
  tokenize : List Char → List (List Char)
  /-- `AND` asks for both sides, and a column filter looks in its column. -/
  tokenize_infix : ∀ (column : String) word other texts columns, texts ≠ [] →
    holds (scopeTokens column.toList word ++ withinTokens other texts) columns = true →
      tokenize word <:+: tokenize (columns column).toList
  /-- A run of hexadecimal digits is one token. The stemmer takes `ed` or a last `e` from it. -/
  tokenize_hex : ∀ word, word ≠ [] → (∀ c ∈ word, c ∈ hexDigits) → ¬ ['e', 'd'] <:+ word →
    tokenize word = [word] ∨ ∃ stem, word = stem ++ ['e'] ∧ tokenize word = [stem]

end Tellodb.Fts5
