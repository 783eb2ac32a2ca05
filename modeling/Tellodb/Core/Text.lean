import Tellodb.Collections.Words

/-!
# Text normalization

The string functions the store compares and indexes text with: `normalizeFactObject` and
`sameFactObject` of `storage/tenant.rs`, and `contentForIndex` of `core/text.rs`. Rust's `char` is
a Unicode scalar value, as Lean's `Char` is, so a `String` is modelled by `String` and its
functions work on the list of its characters. -/

namespace Tellodb

/-- What holds of the characters of a text is decided over the text, not over all characters. -/
instance decidableForallMemChar (p : Char → Prop) [DecidablePred p] (text : List Char) :
    Decidable (∀ c ∈ text, p c) :=
  List.decidableBAll p text

/-- `char::is_whitespace`: the Unicode property `White_Space`. -/
def isWhitespace (c : Char) : Bool :=
  (9 ≤ c.toNat && c.toNat ≤ 13) || c.toNat == 0x20 || c.toNat == 0x85 || c.toNat == 0xA0 ||
    c.toNat == 0x1680 || (0x2000 ≤ c.toNat && c.toNat ≤ 0x200A) || c.toNat == 0x2028 ||
    c.toNat == 0x2029 || c.toNat == 0x202F || c.toNat == 0x205F || c.toNat == 0x3000

/-- `char::is_ascii_punctuation`. -/
def isAsciiPunctuation (c : Char) : Bool :=
  (0x21 ≤ c.toNat && c.toNat ≤ 0x2F) || (0x3A ≤ c.toNat && c.toNat ≤ 0x40) ||
    (0x5B ≤ c.toNat && c.toNat ≤ 0x60) || (0x7B ≤ c.toNat && c.toNat ≤ 0x7E)

/-- `str::trim_matches` on characters: a run at either end is dropped. -/
def trimMatches (p : Char → Bool) (text : List Char) : List Char :=
  ((text.dropWhile p).reverse.dropWhile p).reverse

/-- `str::trim`. -/
def trim (text : List Char) : List Char :=
  trimMatches isWhitespace text

/-- `str::trim_start`. -/
def trimStart (text : List Char) : List Char :=
  text.dropWhile isWhitespace

/-- `str::split_whitespace`: the nonempty runs between whitespace. -/
def splitWhitespace (text : List Char) : List (List Char) :=
  (text.splitOnP isWhitespace).filter fun word => !word.isEmpty

/-- The normal form in which `same_fact_object` compares two objects: single spaces between
words, no ASCII punctuation at either end, ASCII letters in lower case. -/
def normalizeFactObject (text : String) : String :=
  String.ofList ((trimMatches isAsciiPunctuation
    ([' '].intercalate (splitWhitespace text.toList))).map Char.toLower)

/-- Whether two fact objects state the same value. An empty first object states none. -/
def sameFactObject (a b : String) : Bool :=
  !a.isEmpty && normalizeFactObject a == normalizeFactObject b

/-- The loop of `content_for_index`: while the text starts with a bracketed group, the group and
the whitespace after it are dropped. Each round drops at least the bracket, so as many rounds as
there are characters are enough (`dropGroups_done`). -/
def dropGroups : ℕ → List Char → List Char
  | 0, rest => rest
  | rounds + 1, rest =>
    if rest.head? ≠ some '[' then rest
    else if ']' ∉ rest then rest
    else dropGroups rounds (trimStart ((rest.dropWhile (· ≠ ']')).drop 1))

/-- The text a memory is indexed under: its content without leading bracketed groups, or the whole
content if nothing else is left. -/
def contentForIndex (text : String) : String :=
  let rest := dropGroups text.length (trim text.toList)
  if rest.isEmpty then text else String.ofList rest

/-- With as many rounds as characters the loop runs until no bracketed group is left in front. -/
theorem dropGroups_done (rounds : ℕ) (rest : List Char) (h : rest.length ≤ rounds) :
    (dropGroups rounds rest).head? ≠ some '[' ∨ ']' ∉ dropGroups rounds rest := by
  induction rounds generalizing rest with
  | zero =>
    rw [List.length_eq_zero_iff.mp (Nat.le_zero.mp h)]
    exact .inl (by simp [dropGroups])
  | succ rounds ih =>
    unfold dropGroups
    split
    · exact .inl ‹_›
    split
    · exact .inr ‹_›
    · refine ih _ ?_
      have hstart : (trimStart ((rest.dropWhile (· ≠ ']')).drop 1)).length ≤
          ((rest.dropWhile (· ≠ ']')).drop 1).length := (List.dropWhile_sublist _).length_le
      have hdrop : (rest.dropWhile (· ≠ ']')).length ≤ rest.length :=
        (List.dropWhile_sublist _).length_le
      rw [List.length_drop] at hstart
      omega

example : contentForIndex "[a] [b] Alice moved" = "Alice moved" := by decide

example : sameFactObject "New  York" "new york." = true := by decide

/-! ## Letters in lower case -/

/-- A character is ASCII, or it is its own lower case. -/
theorem ascii_or_toLower (c : Char) : (∃ n : Fin 128, c = Char.ofNat n) ∨ c.toLower = c := by
  by_cases hc : c.toNat < 128
  · exact .inl ⟨⟨c.toNat, hc⟩, (Char.ofNat_toNat c).symm⟩
  · refine .inr ?_
    unfold Char.toLower
    refine dif_neg fun h => hc ?_
    have hle : c.toNat ≤ 'Z'.toNat := h.2
    exact lt_of_le_of_lt hle (by decide)

/-- What holds of the ASCII characters and their lower case alike holds of all. -/
theorem toLower_congr {α : Type} (f : Char → α)
    (h : ∀ n : Fin 128, f (Char.ofNat n).toLower = f (Char.ofNat n)) (c : Char) :
    f c.toLower = f c := by
  rcases ascii_or_toLower c with ⟨n, rfl⟩ | hc
  · exact h n
  · rw [hc]

/-- Case makes no difference to white space. -/
theorem isWhitespace_toLower (c : Char) : isWhitespace c.toLower = isWhitespace c :=
  toLower_congr isWhitespace (by decide) c

/-- The words of a text with its letters in lower case. -/
theorem splitWhitespace_map_toLower (text : List Char) :
    splitWhitespace (text.map Char.toLower) =
      (splitWhitespace text).map (List.map Char.toLower) :=
  Collections.words_map isWhitespace_toLower text

end Tellodb
