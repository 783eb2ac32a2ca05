import Tellodb.Collections.Aligned
import Tellodb.Collections.Words
import Tellodb.Core.Text
import Tellodb.Gliner.Spans
import Tellodb.Relational.Run
import Mathlib.Algebra.Order.BigOperators.Group.List

/-!
# The input of the tagger

`GlinerModel::predict`: the labels and the words of a text are encoded for the model, words without
pieces are skipped and the text is cut when the input is full (`keepWords_eq`). The model scores the
spans of the words that are kept, and the text of a span is sliced from the input with the offsets
of all words. So words and spans fit together as long as no word that is kept comes after one
without pieces (`predict_agrees_iff`). -/

namespace Tellodb

open Relational Collections

/-! ## The code -/

/-- What `predict` fails with, and a panic. -/
inductive GlinerError
  | tooManyLabels (labels maxTypes : ℕ)
  | tokenizing (text : List Char)
  | inference
  | rank (dims : List ℕ)
  | labelScores (outLabels labels : ℕ)
  | panicked
  deriving DecidableEq

/-- What the words are pushed to. -/
structure GlinerEncoding where
  inputIds : List ℤ
  wordsMask : List ℕ
  keptWords : ℕ
  deriving DecidableEq

/-- The tensors the session is run on. -/
structure GlinerInput where
  inputIds : List ℤ
  attentionMask : List ℕ
  wordsMask : List ℕ
  textLengths : ℕ
  spanIdx : List (ℕ × ℕ)
  spanMask : List Bool
  deriving DecidableEq

/-- The tensor `logits`. -/
structure Logits (L : Type*) where
  dims : List ℕ
  data : List L

/-- `GlinerModel`. The tokenizer, the lower case of labels, the session and the sigmoid are
functions. -/
structure GlinerModel (L V : Type*) where
  tokenize : List Char → Option (List ℤ)
  lowercase : List Char → List Char
  run : GlinerInput → Option (Logits L)
  sigmoid : L → V
  maxWidth : ℕ
  maxLen : ℕ
  maxTypes : ℕ
  entTokenId : ℤ
  sepTokenId : ℤ
  clsId : ℤ
  eosId : ℤ

variable {L V : Type*}

namespace GlinerModel

/-- `encode_pieces` -/
def encodePieces (model : GlinerModel L V) (text : List Char) : Except GlinerError (List ℤ) :=
  (model.tokenize text).elim (.error (.tokenizing text)) .ok

/-- The loop over the labels. -/
def pushLabels (model : GlinerModel L V) : List String → List ℤ → Except GlinerError (List ℤ)
  | [], ids => .ok ids
  | label :: rest, ids =>
    (model.encodePieces (model.lowercase label.toList)).bind fun pieces =>
      pushLabels model rest (ids ++ [model.entTokenId] ++ pieces)

/-- The prompt: the labels between `[CLS]` and `<<SEP>>`. -/
def prompt (model : GlinerModel L V) (labels : List String) : Except GlinerError (List ℤ) :=
  (model.pushLabels labels [model.clsId]).map fun ids => ids ++ [model.sepTokenId]

/-- What is pushed to the mask for a word: its number on the first piece. -/
def pieceMarks (index : ℕ) (pieces : List ℤ) : List ℕ :=
  pieces.zipIdx.map fun piece => if piece.2 = 0 then index + 1 else 0

/-- The loop over the words: one without pieces is skipped, and one for which there is no room ends
the loop. -/
def keepWords (model : GlinerModel L V) :
    List (List Char × ℕ) → GlinerEncoding → Except GlinerError GlinerEncoding
  | [], s => .ok s
  | word :: rest, s =>
    (model.encodePieces word.1).bind fun pieces =>
      if pieces.isEmpty then keepWords model rest s
      else if s.inputIds.length + pieces.length + 1 > model.maxLen then .ok s
      else keepWords model rest
        { inputIds := s.inputIds ++ pieces
          wordsMask := s.wordsMask ++ pieceMarks word.2 pieces
          keptWords := s.keptWords + 1 }

/-- The prompt and the words, and `[SEP]`. -/
def encode (model : GlinerModel L V) (text : List Char) (labels : List String) :
    Except GlinerError GlinerEncoding :=
  (model.prompt labels).bind fun ids =>
    (model.keepWords (splitWhitespace text).zipIdx ⟨ids, List.replicate ids.length 0, 0⟩).map
      fun s =>
        { inputIds := s.inputIds ++ [model.eosId]
          wordsMask := s.wordsMask ++ [0]
          keptWords := s.keptWords }

/-- Every span of at most `max_width` words, with whether its last word is kept. -/
def spanIdx (keptWords maxWidth : ℕ) : List (ℕ × ℕ) :=
  (List.range keptWords).flatMap fun start =>
    (List.range maxWidth).map fun width => (start, start + width)

/-- The tensors for an encoding. -/
def input (model : GlinerModel L V) (encoding : GlinerEncoding) : GlinerInput where
  inputIds := encoding.inputIds
  attentionMask := List.replicate encoding.inputIds.length 1
  wordsMask := encoding.wordsMask
  textLengths := encoding.keptWords
  spanIdx := spanIdx encoding.keptWords model.maxWidth
  spanMask := (spanIdx encoding.keptWords model.maxWidth).map fun span =>
    span.2 < encoding.keptWords

end GlinerModel

/-- The offsets of the nonempty runs, the first of which starts at a position. A separator stands
between two runs. -/
def offsetsFrom : ℕ → List (List Char) → List (ℕ × ℕ)
  | _, [] => []
  | start, run :: rest =>
    if run.isEmpty then offsetsFrom (start + 1) rest
    else (start, start + run.length) :: offsetsFrom (start + run.length + 1) rest

/-- The offsets of the words of a text, in characters. -/
def wordOffsets (text : List Char) : List (ℕ × ℕ) :=
  offsetsFrom 0 (text.splitOnP isWhitespace)

/-- `&text[start..stop]` -/
def sliceText (text : List Char) (start stop : ℕ) : List Char :=
  (text.drop start).take (stop - start)

/-- `trim_span` -/
def trimSpan (text : List Char) : List Char :=
  trimMatches (fun c => ".,;:!?\"'()[]\x7b\x7d".toList.contains c) (trim text)

/-- From the beginning of a word to the end of another one. -/
def wordsSlice (text : List Char) (first last : ℕ) : Option (List Char) :=
  (wordOffsets text)[first]?.bind fun start =>
    (wordOffsets text)[last]?.map fun stop => sliceText text start.1 stop.2

namespace GlinerModel

variable [LinearOrder V]

/-- The body of the loop over spans and labels: a span with a score below the threshold or without
a text is no candidate. -/
def pushCandidate (model : GlinerModel L V) (text : List Char) (threshold : V) (data : List L)
    (outWidths outLabels : ℕ) (candidates : List (SpanPrediction V))
    (position : (ℕ × ℕ) × String × ℕ) : Option (List (SpanPrediction V)) :=
  data[(position.1.1 * outWidths + position.1.2) * outLabels + position.2.2]?.bind fun logit =>
    if model.sigmoid logit < threshold then some candidates
    else (wordsSlice text position.1.1 (position.1.1 + position.1.2)).map fun slice =>
      if (trimSpan slice).isEmpty then candidates
      else candidates ++ [{
        label := position.2.1
        text := trimSpan slice
        startWord := position.1.1
        endWord := position.1.1 + position.1.2
        score := model.sigmoid logit }]

/-- The spans with a label each, as the loops run over them: by their start, their width and the
label. -/
def positions (labels : List String) (keptWords outWords outWidths : ℕ) :
    List ((ℕ × ℕ) × String × ℕ) :=
  (List.range (min outWords keptWords)).flatMap fun start =>
    (List.range outWidths).flatMap fun width =>
      if start + width ≥ keptWords then []
      else labels.zipIdx.map fun label => ((start, width), label)

/-- The spans that are read off the logits. -/
def readSpans (model : GlinerModel L V) (text : List Char) (labels : List String) (threshold : V)
    (keptWords : ℕ) (logits : Logits L) : Except GlinerError (List (SpanPrediction V)) :=
  match logits.dims with
  | [_, outWords, outWidths, outLabels] =>
    if outLabels ≠ labels.length then .error (.labelScores outLabels labels.length)
    else (((positions labels keptWords outWords outWidths).foldlM
        (model.pushCandidate text threshold logits.data outWidths outLabels) []).bind
      (flatTagging keptWords)).elim (.error .panicked) .ok
  | dims => .error (.rank dims)

/-- `GlinerModel::predict` -/
def predict (model : GlinerModel L V) (text : List Char) (labels : List String) (threshold : V) :
    Except GlinerError (List (SpanPrediction V)) :=
  if labels.isEmpty || (trim text).isEmpty then .ok []
  else if labels.length > model.maxTypes then
    .error (.tooManyLabels labels.length model.maxTypes)
  else (model.encode text labels).bind fun encoding =>
    if encoding.keptWords = 0 then .ok []
    else (model.run (model.input encoding)).elim (.error .inference)
      (model.readSpans text labels threshold encoding.keptWords)

end GlinerModel

/-! ## The words that are kept -/

namespace GlinerModel

variable {model : GlinerModel L V} {text : List Char} {labels : List String}
  {encoding : GlinerEncoding}

/-- The pieces of a text, or none if it cannot be encoded. -/
def piecesOf (model : GlinerModel L V) (text : List Char) : List ℤ :=
  (model.tokenize text).getD []

/-- The pieces of each word of a text. -/
def wordPieces (model : GlinerModel L V) (text : List Char) : List (List ℤ) :=
  (splitWhitespace text).map model.piecesOf

/-- The length of the prompt. -/
def promptLength (model : GlinerModel L V) (labels : List String) : ℕ :=
  2 + (labels.map fun label => 1 + (model.piecesOf (model.lowercase label.toList)).length).sum

/-- After so many ids, a word has pieces and room for them and for those of all words before it. The
words are counted from `k` on. -/
def fits (maxLen before k : ℕ) (pieces : List (List ℤ)) (word : List ℤ × ℕ) : Bool :=
  !word.1.isEmpty &&
    decide (before + ((pieces.take (word.2 - k + 1)).map List.length).sum + 1 ≤ maxLen)

/-- The words that fit, with their places. -/
def keptFrom (maxLen before k : ℕ) (pieces : List (List ℤ)) : List (List ℤ × ℕ) :=
  (pieces.zipIdx k).filter (fits maxLen before k pieces)

/-- The pieces of the words of a text that are kept, each with the place of its word among all
words. -/
def kept (model : GlinerModel L V) (text : List Char) (labels : List String) :
    List (List ℤ × ℕ) :=
  keptFrom model.maxLen (model.promptLength labels) 0 (model.wordPieces text)

/-- The marks of numbered words. -/
def wordMarks (words : List (List ℤ × ℕ)) : List ℕ :=
  words.flatMap fun word => pieceMarks word.2 word.1

/-- If a text is encoded, its pieces are those of the tokenizer. -/
theorem encodePieces_eq_ok {pieces : List ℤ} (h : model.encodePieces text = .ok pieces) :
    pieces = model.piecesOf text := by
  unfold encodePieces at h
  unfold piecesOf
  cases htokenize : model.tokenize text with
  | none =>
    rw [htokenize] at h
    exact absurd h (by simp)
  | some ids =>
    rw [htokenize] at h
    exact (Except.ok.inj h).symm

/-- Behind the first word the words are counted from one more on, after its pieces. -/
theorem fits_cons {maxLen before k : ℕ} (first : List ℤ) {rest : List (List ℤ)}
    {word : List ℤ × ℕ} (h : word ∈ rest.zipIdx (k + 1)) :
    fits maxLen before k (first :: rest) word =
      fits maxLen (before + first.length) (k + 1) rest word := by
  have hle := List.le_snd_of_mem_zipIdx h
  have hplace : word.2 - k + 1 = (word.2 - (k + 1) + 1) + 1 := by omega
  unfold fits
  rw [hplace, List.take_succ_cons, List.map_cons, List.sum_cons, ← Nat.add_assoc before]

/-- A first word that does not fit is left out. -/
theorem keptFrom_cons_of_not {maxLen before k : ℕ} {first : List ℤ} {rest : List (List ℤ)}
    (h : fits maxLen before k (first :: rest) (first, k) = false) :
    keptFrom maxLen before k (first :: rest) =
      keptFrom maxLen (before + first.length) (k + 1) rest := by
  unfold keptFrom
  rw [List.zipIdx_cons, List.filter_cons_of_neg (by simp [h])]
  exact List.filter_congr fun word hword => fits_cons first hword

/-- A first word that fits is kept. -/
theorem keptFrom_cons_of_fits {maxLen before k : ℕ} {first : List ℤ} {rest : List (List ℤ)}
    (h : fits maxLen before k (first :: rest) (first, k) = true) :
    keptFrom maxLen before k (first :: rest) =
      (first, k) :: keptFrom maxLen (before + first.length) (k + 1) rest := by
  unfold keptFrom
  rw [List.zipIdx_cons, List.filter_cons_of_pos h]
  exact congrArg _ (List.filter_congr fun word hword => fits_cons first hword)

/-- Without room nothing is kept. -/
theorem keptFrom_of_full {maxLen before k : ℕ} (pieces : List (List ℤ)) (h : maxLen ≤ before) :
    keptFrom maxLen before k pieces = [] := by
  unfold keptFrom
  refine List.filter_eq_nil_iff.mpr fun word _ => ?_
  unfold fits
  rw [decide_eq_false (by omega), Bool.and_false]
  exact Bool.false_ne_true

/-- Whether the first word fits depends on its own pieces only. -/
theorem fits_first {maxLen before k : ℕ} {first : List ℤ} {rest : List (List ℤ)} :
    fits maxLen before k (first :: rest) (first, k) =
      (!first.isEmpty && decide (before + first.length + 1 ≤ maxLen)) := by
  simp [fits]

/-- The loop keeps the words that fit. -/
theorem keepWords_eq {words : List (List Char)} {k : ℕ} {s s' : GlinerEncoding}
    (h : model.keepWords (words.zipIdx k) s = .ok s') :
    s'.wordsMask = s.wordsMask ++
        wordMarks (keptFrom model.maxLen s.inputIds.length k (words.map model.piecesOf)) ∧
      s'.keptWords = s.keptWords +
        (keptFrom model.maxLen s.inputIds.length k (words.map model.piecesOf)).length := by
  induction words generalizing k s with
  | nil =>
    obtain rfl := Except.ok.inj h
    simp [keptFrom, wordMarks]
  | cons word rest ih =>
    rw [List.zipIdx_cons, keepWords] at h
    obtain ⟨pieces, hpieces, h⟩ := exists_of_bind h
    dsimp only at hpieces h
    rw [List.map_cons, ← encodePieces_eq_ok hpieces]
    -- A word without pieces is skipped, one that is too long ends the loop.
    by_cases hempty : pieces.isEmpty = true
    · rw [if_pos hempty] at h
      have hnone : fits model.maxLen s.inputIds.length k (pieces :: rest.map model.piecesOf)
          (pieces, k) = false := by
        rw [fits_first, hempty]
        rfl
      rw [keptFrom_cons_of_not hnone, List.isEmpty_iff.mp hempty]
      exact ih h
    · rw [if_neg hempty] at h
      -- The budget is checked with the marker at the end.
      by_cases hfull : s.inputIds.length + pieces.length + 1 > model.maxLen
      · rw [if_pos hfull] at h
        obtain rfl := Except.ok.inj h
        have hnone : fits model.maxLen s.inputIds.length k (pieces :: rest.map model.piecesOf)
            (pieces, k) = false := by
          rw [fits_first, decide_eq_false (by omega), Bool.and_false]
        -- With a word that does not fit there is no room for the words after it.
        rw [keptFrom_cons_of_not hnone, keptFrom_of_full _ (by omega)]
        simp [wordMarks]
      · rw [if_neg hfull] at h
        have hfits : fits model.maxLen s.inputIds.length k (pieces :: rest.map model.piecesOf)
            (pieces, k) = true := by
          rw [fits_first, decide_eq_true (by omega), Bool.and_true]
          simpa using hempty
        obtain ⟨hmask, hlength⟩ := ih h
        dsimp only at hmask hlength
        rw [List.length_append] at hmask hlength
        rw [keptFrom_cons_of_fits hfits, hmask, hlength]
        refine ⟨?_, by rw [List.length_cons]; omega⟩
        rw [List.append_assoc]
        rfl

/-- Each label adds its marker and its pieces to the prompt. -/
theorem length_pushLabels {ids ids' : List ℤ} (h : model.pushLabels labels ids = .ok ids') :
    ids'.length = ids.length +
      (labels.map fun label => 1 + (model.piecesOf (model.lowercase label.toList)).length).sum := by
  induction labels generalizing ids with
  | nil =>
    obtain rfl := Except.ok.inj h
    simp
  | cons label rest ih =>
    rw [pushLabels] at h
    obtain ⟨pieces, hpieces, h⟩ := exists_of_bind h
    rw [ih h, encodePieces_eq_ok hpieces, List.map_cons, List.sum_cons, List.length_append,
      List.length_append, List.length_singleton]
    omega

/-- The length of the prompt is that of its labels. -/
theorem length_prompt {ids : List ℤ} (h : model.prompt labels = .ok ids) :
    ids.length = model.promptLength labels := by
  unfold prompt at h
  cases hlabels : model.pushLabels labels [model.clsId] with
  | error e =>
    rw [hlabels] at h
    exact absurd h (by simp [Except.map])
  | ok pushed =>
    rw [hlabels] at h
    obtain rfl := Except.ok.inj h
    unfold promptLength
    rw [List.length_append, length_pushLabels hlabels, List.length_singleton,
      List.length_singleton]
    omega

/-- The mask has the number of each word that is kept, counted among all words, on its first
piece. -/
theorem encode_eq (h : model.encode text labels = .ok encoding) :
    encoding.wordsMask = List.replicate (model.promptLength labels) 0 ++
        wordMarks (model.kept text labels) ++ [0] ∧
      encoding.keptWords = (model.kept text labels).length := by
  unfold encode at h
  obtain ⟨ids, hids, h⟩ := exists_of_bind h
  cases hwords : model.keepWords (splitWhitespace text).zipIdx
      ⟨ids, List.replicate ids.length 0, 0⟩ with
  | error e =>
    rw [hwords] at h
    exact absurd h (by simp [Except.map])
  | ok s =>
    rw [hwords] at h
    obtain rfl := Except.ok.inj h
    obtain ⟨hmask, hlength⟩ := keepWords_eq hwords
    dsimp only at hmask hlength ⊢
    rw [hmask, hlength, length_prompt hids, Nat.zero_add]
    exact ⟨rfl, rfl⟩

/-! ## Numbers of words -/

/-- A word that is kept has pieces. -/
theorem kept_nonempty {word : List ℤ × ℕ} (h : word ∈ model.kept text labels) : word.1 ≠ [] := by
  have hfits := List.of_mem_filter h
  unfold fits at hfits
  simp only [Bool.and_eq_true, Bool.not_eq_true', List.isEmpty_eq_false_iff] at hfits
  exact hfits.1

/-- Only the first piece of a word is marked. -/
theorem pieceMarks_cons (index : ℕ) (piece : ℤ) (pieces : List ℤ) :
    pieceMarks index (piece :: pieces) = (index + 1) :: List.replicate pieces.length 0 := by
  unfold pieceMarks
  rw [List.zipIdx_cons, List.map_cons, if_pos rfl]
  refine congrArg _ (List.eq_replicate_iff.mpr ⟨by simp, fun mark hmark => ?_⟩)
  obtain ⟨p, hp, rfl⟩ := List.mem_map.mp hmark
  have hle := List.le_snd_of_mem_zipIdx hp
  rw [if_neg (by omega)]

/-- The marks tell the numbers of the words. -/
theorem filter_wordMarks {words : List (List ℤ × ℕ)} (h : ∀ word ∈ words, word.1 ≠ []) :
    (wordMarks words).filter (fun mark => decide (mark ≠ 0)) =
      words.map fun word => word.2 + 1 := by
  induction words with
  | nil => rfl
  | cons word rest ih =>
    obtain ⟨hword, hrest⟩ := List.forall_mem_cons.mp h
    obtain ⟨piece, pieces, hpieces⟩ := List.exists_cons_of_ne_nil hword
    have hcons : wordMarks (word :: rest) = pieceMarks word.2 word.1 ++ wordMarks rest := rfl
    rw [hcons, List.filter_append, ih hrest, hpieces, pieceMarks_cons, List.map_cons,
      List.filter_cons_of_pos (by simp)]
    have hzeros : (List.replicate pieces.length 0).filter (fun mark => decide (mark ≠ 0)) = [] :=
      List.filter_eq_nil_iff.mpr fun mark hmark => by simp [List.eq_of_mem_replicate hmark]
    rw [hzeros]
    rfl

/-- For a word after one without pieces there is no room, unless it has none itself. -/
def SkippedLast (model : GlinerModel L V) (text : List Char) (labels : List String) : Prop :=
  (model.wordPieces text).zipIdx.Pairwise fun a b => a.1 = [] → b.1 ≠ [] →
    model.maxLen < model.promptLength labels +
      (((model.wordPieces text).take (b.2 + 1)).map List.length).sum + 1

/-- A word does not fit if it has pieces and they end beyond the limit. -/
theorem fits_eq_false_iff {maxLen before : ℕ} {pieces : List (List ℤ)} {word : List ℤ × ℕ} :
    fits maxLen before 0 pieces word = false ↔ (word.1 ≠ [] →
      maxLen < before + ((pieces.take (word.2 + 1)).map List.length).sum + 1) := by
  unfold fits
  rw [Bool.and_eq_false_iff, Bool.not_eq_false', List.isEmpty_iff, decide_eq_false_iff_not,
    Nat.not_le, Nat.sub_zero, ← or_iff_not_imp_left]

/-- No word is kept after one that is not, if none is after one without pieces: where there is no
room for a word there is none for those after it. -/
theorem skippedLast_iff : model.SkippedLast text labels ↔
    (model.wordPieces text).zipIdx.Pairwise fun a b =>
      fits model.maxLen (model.promptLength labels) 0 (model.wordPieces text) a = false →
        fits model.maxLen (model.promptLength labels) 0 (model.wordPieces text) b = false := by
  have hplaces : (model.wordPieces text).zipIdx.Pairwise fun a b => a.2 < b.2 := by
    refine List.pairwise_map.mp ?_
    rw [List.zipIdx_map_snd]
    exact List.pairwise_lt_range'
  constructor
  · intro h
    refine (h.and hplaces).imp fun {a b} hab ha => fits_eq_false_iff.mpr fun hb => ?_
    obtain ⟨hskipped, hplace⟩ := hab
    by_cases hempty : a.1 = []
    · exact hskipped hempty hb
    · have hfull := fits_eq_false_iff.mp ha hempty
      have hmono := List.monotone_sum_take ((model.wordPieces text).map List.length)
        (Nat.succ_le_succ hplace.le)
      dsimp only [Nat.succ_eq_add_one] at hmono
      rw [← List.map_take, ← List.map_take] at hmono
      omega
  · intro h
    refine h.imp fun {a b} hab hempty => fits_eq_false_iff.mp (hab ?_)
    exact fits_eq_false_iff.mpr fun hne => absurd hempty hne

/-- The places of the words that are kept are consecutive if none of them comes after a word without
pieces. -/
theorem map_snd_kept_iff : (model.kept text labels).map Prod.snd =
    List.range' 0 (model.kept text labels).length ↔ model.SkippedLast text labels :=
  (map_snd_filter_zipIdx_iff _ _ _).trans skippedLast_iff.symm

/-- The nonzero entries of the mask. -/
theorem filter_mask {words : List (List ℤ × ℕ)} (n : ℕ) (h : ∀ word ∈ words, word.1 ≠ []) :
    (List.replicate n 0 ++ wordMarks words ++ [0]).filter (fun mark => decide (mark ≠ 0)) =
      words.map fun word => word.2 + 1 := by
  have hzeros : (List.replicate n 0).filter (fun mark => decide (mark ≠ 0)) = [] :=
    List.filter_eq_nil_iff.mpr fun mark hmark => by simp [List.eq_of_mem_replicate hmark]
  rw [List.filter_append, List.filter_append, hzeros, filter_wordMarks h]
  simp

/-- A span that is not masked out has words that are kept only. -/
theorem lt_of_spanMask {i : ℕ} {span : ℕ × ℕ}
    (hspan : (model.input encoding).spanIdx[i]? = some span)
    (hmask : (model.input encoding).spanMask[i]? = some true) :
    span.1 < encoding.keptWords ∧ span.2 < encoding.keptWords := by
  have hmem := List.mem_of_getElem? hspan
  unfold input at hspan hmask hmem
  dsimp only at hspan hmask hmem
  rw [List.getElem?_map, hspan] at hmask
  unfold spanIdx at hmem
  obtain ⟨start, hstart, hmem⟩ := List.mem_flatMap.mp hmem
  obtain ⟨width, -, rfl⟩ := List.mem_map.mp hmem
  exact ⟨List.mem_range.mp hstart, of_decide_eq_true (Option.some.inj hmask)⟩

end GlinerModel

/-! ## What is predicted -/

namespace GlinerModel

variable [LinearOrder V] {model : GlinerModel L V} {text : List Char} {labels : List String}
  {encoding : GlinerEncoding}

/-- A span of words that are kept has the text from its first word to its last one, as they are
counted in `predict`. -/
structure Sliced (text : List Char) (keptWords : ℕ) (span : SpanPrediction V) : Prop
    extends span.Within keptWords where
  text_eq : ∃ slice, wordsSlice text span.startWord span.endWord = some slice ∧
    span.text = trimSpan slice

/-- A position pushes only spans that are slices of the text, -/
theorem pushCandidate_sliced {threshold : V} {data : List L} {outWidths outLabels keptWords : ℕ}
    {candidates candidates' : List (SpanPrediction V)} {position : (ℕ × ℕ) × String × ℕ}
    (hcandidates : ∀ span ∈ candidates, Sliced text keptWords span)
    (hposition : position.1.1 + position.1.2 < keptWords)
    (h : model.pushCandidate text threshold data outWidths outLabels candidates position =
      some candidates') : ∀ span ∈ candidates', Sliced text keptWords span := by
  unfold pushCandidate at h
  obtain ⟨logit, -, h⟩ := Option.bind_eq_some_iff.mp h
  by_cases hscore : model.sigmoid logit < threshold
  · rw [if_pos hscore] at h
    rw [← Option.some.inj h]
    exact hcandidates
  · rw [if_neg hscore] at h
    obtain ⟨slice, hslice, h⟩ := Option.map_eq_some_iff.mp h
    by_cases hempty : (trimSpan slice).isEmpty = true
    · rw [if_pos hempty] at h
      rw [← h]
      exact hcandidates
    · rw [if_neg hempty] at h
      rw [← h]
      intro span hspan
      rcases List.mem_append.mp hspan with hold | hnew
      · exact hcandidates span hold
      · rw [List.mem_singleton.mp hnew]
        exact ⟨⟨Nat.le_add_right _ _, hposition⟩, slice, hslice, rfl⟩

/-- and so does a list of positions. -/
theorem foldlM_pushCandidate_sliced {threshold : V} {data : List L}
    {outWidths outLabels keptWords : ℕ} {positions : List ((ℕ × ℕ) × String × ℕ)}
    {candidates candidates' : List (SpanPrediction V)}
    (hcandidates : ∀ span ∈ candidates, Sliced text keptWords span)
    (hpositions : ∀ position ∈ positions, position.1.1 + position.1.2 < keptWords)
    (h : positions.foldlM (model.pushCandidate text threshold data outWidths outLabels)
      candidates = some candidates') : ∀ span ∈ candidates', Sliced text keptWords span := by
  induction positions generalizing candidates with
  | nil =>
    rw [← Option.some.inj h]
    exact hcandidates
  | cons position rest ih =>
    obtain ⟨hposition, hrest⟩ := List.forall_mem_cons.mp hpositions
    rw [List.foldlM_cons] at h
    obtain ⟨next, hnext, h⟩ := Option.bind_eq_some_iff.mp h
    exact ih (pushCandidate_sliced hcandidates hposition hnext) hrest h

/-- The positions that are read end at words that are kept. -/
theorem lt_of_mem_positions {keptWords outWords outWidths : ℕ}
    {position : (ℕ × ℕ) × String × ℕ}
    (h : position ∈ positions labels keptWords outWords outWidths) :
    position.1.1 + position.1.2 < keptWords := by
  unfold positions at h
  obtain ⟨start, -, h⟩ := List.mem_flatMap.mp h
  obtain ⟨width, -, h⟩ := List.mem_flatMap.mp h
  by_cases hend : start + width ≥ keptWords
  · rw [if_pos hend] at h
    exact absurd h List.not_mem_nil
  · rw [if_neg hend] at h
    obtain ⟨label, -, rfl⟩ := List.mem_map.mp h
    exact Nat.lt_of_not_le hend

/-- The spans that are read are slices of the text. -/
theorem readSpans_sliced {threshold : V} {keptWords : ℕ} {logits : Logits L}
    {spans : List (SpanPrediction V)}
    (h : model.readSpans text labels threshold keptWords logits = .ok spans) :
    ∀ span ∈ spans, Sliced text keptWords span := by
  unfold readSpans at h
  split at h
  · rename_i outWords outWidths outLabels _
    -- The shape of the output has to fit the labels.
    by_cases hlabels : outLabels ≠ labels.length
    · rw [if_pos hlabels] at h
      exact absurd h (by simp)
    · rw [if_neg hlabels] at h
      cases hfold : (positions labels keptWords outWords outWidths).foldlM
          (model.pushCandidate text threshold logits.data outWidths outLabels) [] with
      | none =>
        rw [hfold] at h
        exact absurd h (by simp)
      | some candidates =>
        -- The candidates are slices of the text, and the tagger takes some of them.
        have hsliced := foldlM_pushCandidate_sliced (fun span hspan => absurd hspan
          List.not_mem_nil) (fun position => lt_of_mem_positions) hfold
        rw [hfold, Option.bind_some, flatTagging_eq fun span hspan => (hsliced span hspan).toWithin]
          at h
        obtain rfl := Except.ok.inj h
        intro span hspan
        have hgreedy := (Relational.mem_orderBy _ _ _).mp hspan
        exact hsliced span ((Relational.mem_orderBy _ _ _).mp
          ((greedy_sublist _ _).subset hgreedy))
  · exact absurd h (by simp)

/-- The spans of a text are sliced from it. -/
theorem predict_sliced (hencode : model.encode text labels = .ok encoding) {threshold : V}
    {spans : List (SpanPrediction V)} (h : model.predict text labels threshold = .ok spans) :
    ∀ span ∈ spans, Sliced text encoding.keptWords span := by
  have hnil : (.ok [] : Except GlinerError (List (SpanPrediction V))) = .ok spans →
      ∀ span ∈ spans, Sliced text encoding.keptWords span := by
    intro hspans span hspan
    rw [← Except.ok.inj hspans] at hspan
    exact absurd hspan List.not_mem_nil
  unfold predict at h
  split_ifs at h with hblank hmany
  · exact hnil h
  · rw [hencode] at h
    dsimp only [Except.bind] at h
    by_cases hkept : encoding.keptWords = 0
    · rw [if_pos hkept] at h
      exact hnil h
    · rw [if_neg hkept] at h
      cases hrun : model.run (model.input encoding) with
      | none =>
        rw [hrun] at h
        exact absurd h (by simp)
      | some logits =>
        rw [hrun] at h
        exact readSpans_sliced h

/-- The input and the spans agree on the words that are kept. -/
structure Agrees (model : GlinerModel L V) (text : List Char) (labels : List String)
    (encoding : GlinerEncoding) : Prop where
  /-- The words that are kept are marked with their numbers among them, each on its first piece. -/
  marks : encoding.wordsMask = List.replicate (model.promptLength labels) 0 ++
    wordMarks ((model.kept text labels).map Prod.fst).zipIdx ++ [0]
  /-- The marks are `1..kept_words`. -/
  numbers : encoding.wordsMask.filter (fun mark => decide (mark ≠ 0)) =
    List.range' 1 (model.input encoding).textLengths
  /-- Both words of a span that is not masked out are marked. -/
  spans : ∀ (i : ℕ) (span : ℕ × ℕ), (model.input encoding).spanIdx[i]? = some span →
    (model.input encoding).spanMask[i]? = some true →
    span.1 + 1 ∈ encoding.wordsMask ∧ span.2 + 1 ∈ encoding.wordsMask
  /-- A span has the text from its first word to its last one, of those that are kept. -/
  texts : ∀ threshold spans, model.predict text labels threshold = .ok spans → ∀ span ∈ spans,
    ∃ first last slice, ((model.kept text labels).map Prod.snd)[span.startWord]? = some first ∧
      ((model.kept text labels).map Prod.snd)[span.endWord]? = some last ∧
      wordsSlice text first last = some slice ∧ span.text = trimSpan slice

/-- The words of a text and the spans of the model agree if and only if no word that is kept comes
after one without pieces. -/
theorem predict_agrees_iff (h : model.encode text labels = .ok encoding) :
    model.Agrees text labels encoding ↔ model.SkippedLast text labels := by
  obtain ⟨hmask, hlength⟩ := encode_eq h
  rw [← map_snd_kept_iff]
  have hsucc : ∀ n, (List.range' 0 n).map (· + 1) = List.range' 1 n := fun n => by
    have hadd : (List.range' 0 n).map (1 + ·) = List.range' 1 n := List.map_add_range' 0 n 1
    simpa [Nat.add_comm] using hadd
  -- The marks are the numbers of the words that were kept.
  have hfilter : encoding.wordsMask.filter (fun mark => decide (mark ≠ 0)) =
      (model.kept text labels).map fun word => word.2 + 1 := by
    rw [hmask]
    exact filter_mask _ fun word => kept_nonempty
  -- The marks count from one on, so the places have to count from zero on.
  constructor
  · intro hagrees
    have hnumbers := hagrees.numbers
    rw [hfilter] at hnumbers
    have hshift : ((model.kept text labels).map Prod.snd).map (· + 1) =
        (List.range' 0 (model.kept text labels).length).map (· + 1) := by
      rw [List.map_map, hsucc, ← hlength]
      exact hnumbers
    exact List.map_injective_iff.mpr (fun a b hab => Nat.succ.inj hab) hshift
  · intro hplaces
    have hzip : ((model.kept text labels).map Prod.fst).zipIdx = model.kept text labels := by
      rw [List.zipIdx_eq_zip_range', List.length_map, ← hplaces]
      exact (List.zip_of_prod rfl rfl).symm
    have hnumbers : encoding.wordsMask.filter (fun mark => decide (mark ≠ 0)) =
        List.range' 1 encoding.keptWords := by
      have hshift := congrArg (List.map (· + 1)) hplaces
      rw [List.map_map, hsucc, ← hlength] at hshift
      exact hfilter.trans hshift
    -- Every word has a mark.
    have hmarked : ∀ word < encoding.keptWords, word + 1 ∈ encoding.wordsMask := by
      intro word hword
      refine List.mem_of_mem_filter (p := fun mark => decide (mark ≠ 0)) ?_
      rw [hnumbers]
      exact List.mem_range'_1.mpr ⟨by omega, by omega⟩
    have hplace : ∀ word < encoding.keptWords,
        ((model.kept text labels).map Prod.snd)[word]? = some word := by
      intro word hword
      rw [hplaces, List.getElem?_range' (by rw [← hlength]; exact hword)]
      simp
    refine ⟨by rw [hzip]; exact hmask, hnumbers, fun i span hspan hin => ?_,
      fun threshold spans hspans span hspan => ?_⟩
    -- A span within the mask is one of words with marks.
    · obtain ⟨hstart, hend⟩ := lt_of_spanMask hspan hin
      exact ⟨hmarked _ hstart, hmarked _ hend⟩
    -- A prediction names two words that were kept, at their places in the text.
    · obtain ⟨hwithin, slice, hslice, htext⟩ := predict_sliced h hspans span hspan
      have hle := hwithin.le
      have hlt := hwithin.lt
      exact ⟨_, _, slice, hplace _ (by omega), hplace _ hlt, hslice, htext⟩

end GlinerModel

/-- A model whose tokenizer has a piece for each character apart from soft hyphens, and which finds
one label in each word. -/
private def hyphenModel : GlinerModel ℕ ℕ where
  tokenize text := some ((text.filter fun c => c ≠ '\u00ad').map fun c => (c.toNat : ℤ))
  lowercase text := text.map Char.toLower
  run input := some ⟨[1, input.textLengths, 1, 1], List.replicate input.textLengths 9⟩
  sigmoid := id
  maxWidth := 1
  maxLen := 384
  maxTypes := 25
  entTokenId := 1
  sepTokenId := 2
  clsId := 3
  eosId := 4

/-- A text that ends with a word without pieces. -/
theorem predict_agrees_iff_end : hyphenModel.Agrees "Ann Bob \u00ad".toList ["name"]
    ⟨[3, 1, 110, 97, 109, 101, 2, 65, 110, 110, 66, 111, 98, 4],
      [0, 0, 0, 0, 0, 0, 0, 1, 0, 0, 2, 0, 0, 0], 2⟩ ↔
    hyphenModel.SkippedLast "Ann Bob \u00ad".toList ["name"] :=
  GlinerModel.predict_agrees_iff (by decide +kernel)

/-- After a word without pieces the second word that is kept has the number three, and the text of
its span is that of the word without pieces. -/
theorem predict_disagrees : ∃ encoding,
    hyphenModel.encode "Ann \u00ad Bob".toList ["name"] = .ok encoding ∧
    encoding.keptWords = 2 ∧ encoding.wordsMask = [0, 0, 0, 0, 0, 0, 0, 1, 0, 0, 3, 0, 0, 0] ∧
    hyphenModel.predict "Ann \u00ad Bob".toList ["name"] 5 = .ok
      [⟨"name", "Ann".toList, 0, 0, 9⟩, ⟨"name", "\u00ad".toList, 1, 1, 9⟩] ∧
    ¬ hyphenModel.Agrees "Ann \u00ad Bob".toList ["name"] encoding := by
  refine ⟨⟨[3, 1, 110, 97, 109, 101, 2, 65, 110, 110, 66, 111, 98, 4],
    [0, 0, 0, 0, 0, 0, 0, 1, 0, 0, 3, 0, 0, 0], 2⟩, by decide +kernel, rfl, rfl, by decide +kernel,
    fun hagrees => ?_⟩
  have hnumbers := hagrees.numbers
  revert hnumbers
  decide +kernel

end Tellodb
