import Tellodb.Collections.Words
import Tellodb.Semantic.Rerank
import Tellodb.Relational.Run
import Mathlib.Algebra.GroupWithZero.Nat

/-!
# Scores from the cache

The scores of a call are stitched together in the order of its texts (`rerankChunks_eq`), but the
key of the cache forgets that order, and the scores under it are those of the list that filled the
entry. So a call that finds another order of its texts gets the scores in that order
(`permuted_scores`). `eachStep_right_iff` says of a run which calls are answered right: those that
find a list with the same scores, place by place. -/

namespace Tellodb

open Relational Cache Collections

/-! ## One call without the cache -/

section

variable {F : Type} [Zero F]

omit [Zero F] in
/-- Scores are written one after the other into the place after the first ones. -/
theorem writeScores_append {a b c : List F} (h : c.length ≤ b.length) :
    writeScores (a ++ b) a.length c = a ++ c ++ b.drop c.length := by
  have hfold : ∀ (c : List F) (k : ℕ) (done b : List F), done.length = a.length + k →
      c.length ≤ b.length →
      (c.zipIdx k).foldl (fun scores s => scores.set (a.length + s.2) s.1) (done ++ b) =
        done ++ c ++ b.drop c.length := by
    intro c
    induction c with
    | nil => intro k done b _ _; simp
    | cons x c ih =>
      intro k done b hdone hb
      cases b with
      | nil => exact absurd hb (by simp)
      | cons y b =>
        have hset : (done ++ y :: b).set (a.length + k) x = (done ++ [x]) ++ b := by
          rw [← hdone, List.set_append_right _ _ le_rfl]
          simp
        rw [List.zipIdx_cons, List.foldl_cons, hset,
          ih (k + 1) (done ++ [x]) b (by simp; omega) (by simpa using hb)]
        simp
  exact hfold c 0 a b rfl h

omit [Zero F] in
/-- Results that come in another order are entered alike. -/
theorem foldl_set_perm {results results' : List (ℕ × F)} (h : results.Perm results')
    (hindex : (results.map Prod.fst).Nodup) (scores : List F) :
    results.foldl (fun scores result => scores.set result.1 result.2) scores =
      results'.foldl (fun scores result => scores.set result.1 result.2) scores := by
  refine h.foldl_eq' (fun x hx y hy scores => ?_) scores
  by_cases hsame : x.1 = y.1
  · rw [List.inj_on_of_nodup_map hindex hx hy hsame]
  · exact List.set_comm _ _ hsame

/-- An executor returns the score of each document it is given. -/
def Scores (score : String → String → F) (rerank : TextRerank F) : Prop :=
  ∀ q docs results, rerank q docs = .ok results →
    results.Perm (docs.zipIdx.map fun d => (d.2, score q d.1))

/-- The scores of an executor are those of its texts, in their order. -/
theorem rerankOnExecutor_eq {score : String → String → F} {rerankers : List (TextRerank F)}
    (hscores : ∀ rerank ∈ rerankers, Scores score rerank) (hsome : rerankers ≠ []) {executor : ℕ}
    {q : String} {texts : List String} {scores : List F}
    (h : rerankOnExecutor rerankers executor q texts = .ok scores) :
    scores = texts.map (score q) := by
  unfold rerankOnExecutor at h
  obtain ⟨results, hresults, h⟩ := exists_of_bind h
  have hlt : executor % rerankers.length < rerankers.length :=
    Nat.mod_lt _ (List.length_pos_iff.mpr hsome)
  rw [List.getElem?_eq_getElem hlt, Option.getD_some] at hresults
  have hperm := hscores _ (List.getElem_mem hlt) q texts results hresults
  rw [← Except.ok.inj h]
  -- A score beyond the end is not written.
  have hguard : ∀ (scores : List F) (result : ℕ × F),
      (if result.1 < scores.length then scores.set result.1 result.2 else scores) =
        scores.set result.1 result.2 := by
    intro scores result
    split
    · rfl
    · rename_i hge
      rw [List.set_eq_of_length_le (by omega)]
  simp only [hguard]
  have hnodup : (results.map Prod.fst).Nodup := by
    refine (hperm.map Prod.fst).nodup_iff.mpr ?_
    rw [List.map_map]
    show (texts.zipIdx.map Prod.snd).Nodup
    rw [List.zipIdx_map_snd]
    exact List.nodup_range'
  rw [foldl_set_perm hperm hnodup]
  have hwrite := writeScores_append (a := []) (b := List.replicate texts.length (0 : F))
    (c := texts.map (score q)) (by simp)
  unfold writeScores at hwrite
  rw [List.nil_append, List.zipIdx_map, List.foldl_map] at hwrite
  rw [List.foldl_map]
  simpa using hwrite

/-- The chunks of a split, one after the other. -/
theorem zipIdx_chunks {α : Type} (size : ℕ) (l : List α) :
    (chunks size l).zipIdx = (List.range ((l.length + size - 1) / size)).map fun i =>
      ((l.drop (i * size)).take size, i) := by
  unfold chunks
  refine List.ext_getElem? fun i => ?_
  rw [List.getElem?_zipIdx, List.getElem?_map, List.getElem?_map]
  by_cases hi : i < (l.length + size - 1) / size
  · rw [List.getElem?_range hi]
    simp
  · rw [List.getElem?_eq_none (by simp; omega)]
    rfl

/-- The values of chunks, written each to its offset, are the values of the list. -/
theorem foldl_writeScores_chunks {α : Type} (f : α → F) {size : ℕ} (hsize : 0 < size)
    (l : List α) :
    ((chunks size l).zipIdx.map fun (chunk, i) => (i * size, chunk.map f)).foldl
      (fun scores result => writeScores scores result.1 result.2) (List.replicate l.length 0) =
        l.map f := by
  -- After some chunks the first scores are there, and the rest is as it was.
  have hprefix : ∀ m, (∀ i < m, i * size ≤ l.length) →
      ((List.range m).map fun i => (i * size, ((l.drop (i * size)).take size).map f)).foldl
        (fun scores result => writeScores scores result.1 result.2) (List.replicate l.length 0) =
          (l.map f).take (m * size) ++ List.replicate (l.length - m * size) 0 := by
    intro m
    induction m with
    | zero => intro _; simp
    | succ m ih =>
      intro hm
      have hle := hm m (by omega)
      rw [List.range_succ, List.map_append, List.foldl_append, ih fun i hi => hm i (by omega)]
      simp only [List.map_cons, List.map_nil, List.foldl_cons, List.foldl_nil]
      have hlength : ((l.map f).take (m * size)).length = m * size := by
        rw [List.length_take, List.length_map]
        omega
      have hwrite := writeScores_append (a := (l.map f).take (m * size))
        (b := List.replicate (l.length - m * size) (0 : F))
        (c := ((l.drop (m * size)).take size).map f) (by simp)
      rw [hlength] at hwrite
      have hmul : (m + 1) * size = m * size + size := Nat.succ_mul m size
      rw [hwrite, hmul, List.take_add, List.map_take, List.map_drop, List.drop_replicate]
      congr 2
      rw [List.length_take, List.length_drop, List.length_map]
      omega
  -- Every chunk but the last is full.
  have hcount : ∀ i < (l.length + size - 1) / size, i * size ≤ l.length := by
    intro i hi
    have hmul : (i + 1) * size ≤ l.length + size - 1 :=
      le_trans (Nat.mul_le_mul_right size hi) (Nat.div_mul_le_self _ _)
    have hsucc : (i + 1) * size = i * size + size := Nat.succ_mul i size
    omega
  have hall : l.length ≤ (l.length + size - 1) / size * size := by
    have hmod := Nat.div_add_mod (l.length + size - 1) size
    have hlt := Nat.mod_lt (l.length + size - 1) hsize
    rw [Nat.mul_comm] at hmod
    omega
  rw [zipIdx_chunks, List.map_map]
  have h := hprefix _ hcount
  rw [List.take_of_length_le (by rw [List.length_map]; exact hall), Nat.sub_eq_zero_of_le hall,
    List.replicate_zero, List.append_nil] at h
  exact h

/-- The scores of the texts, in their order, however they are split over the executors. -/
theorem rerankChunks_eq {score : String → String → F} {rerankers : List (TextRerank F)}
    (hscores : ∀ rerank ∈ rerankers, Scores score rerank) (hsome : rerankers ≠ []) {q : String}
    {texts : List String} {scores : List F} (h : rerankChunks rerankers q texts = .ok scores) :
    scores = texts.map (score q) := by
  unfold rerankChunks at h
  obtain ⟨results, hresults, h⟩ := exists_of_bind h
  rw [← Except.ok.inj h]
  -- The chunks come back in the order in which they were split.
  have hmap := mapM_eq_map (g := fun x => (x.1.1, x.1.2.map (score q))) (fun x _ y hx => by
    obtain ⟨chunkScores, hchunk, hy⟩ := exists_of_bind hx
    rw [← Except.ok.inj hy, rerankOnExecutor_eq hscores hsome hchunk]) hresults
  rw [hmap]
  -- The position of a chunk in the list does not matter.
  have hforget : ∀ (split : List (ℕ × List String)),
      (split.zipIdx.map fun x => (x.1.1, x.1.2.map (score q))) =
        split.map fun x => (x.1, x.2.map (score q)) := by
    intro split
    conv_rhs => rw [← List.zipIdx_map_fst 0 split, List.map_map]
    rfl
  rw [hforget]
  unfold splitForRerank
  split
  · -- One chunk.
    have hwrite := writeScores_append (a := []) (b := List.replicate texts.length (0 : F))
      (c := texts.map (score q)) (by simp)
    simpa using hwrite
  · rename_i hsplit
    have hsize : 0 < (texts.length + min rerankers.length texts.length - 1) /
        min rerankers.length texts.length := Nat.div_pos (by omega) (by omega)
    have hchunks := foldl_writeScores_chunks (score q) hsize texts
    rw [List.map_map]
    exact hchunks

end

/-! ## The key -/

/-- What is fed to the hasher is a question and a list of texts in no other way. -/
theorem rerankHashInput_eq {q q' : String} {texts texts' : List String}
    (h : rerankHashInput q texts = rerankHashInput q' texts') :
    q = q' ∧ orderBy id texts = orderBy id texts' := by
  have hlist : ∀ l m : List String,
      (l.flatMap fun text => utf8Bytes text ++ [0xff]) =
        (m.flatMap fun text => utf8Bytes text ++ [0xff]) → l = m := by
    intro l
    induction l with
    | nil =>
      intro m hm
      cases m with
      | nil => rfl
      | cons y m => exact absurd hm (by simp)
    | cons x l ih =>
      intro m hm
      cases m with
      | nil => exact absurd hm (by simp)
      | cons y m =>
        simp only [List.flatMap_cons, List.append_assoc, List.singleton_append] at hm
        obtain ⟨hhead, htail⟩ :=
          append_cons_inj_of_end (notMem_utf8Bytes x) (notMem_utf8Bytes y) hm
        rw [utf8Bytes_injective hhead, ih m htail]
  exact List.cons.inj (hlist _ _ h)

/-! ## Runs -/

section

variable {F : Type} [Zero F] {hash : List UInt8 → UInt64} {score : String → String → F}

/-- A call with the executors as they answer it. -/
structure RerankCall (F : Type) where
  q : String
  texts : List String
  rerankers : List (TextRerank F)

namespace RerankCall

/-- The cache after a call. -/
def step (hash : List UInt8 → UInt64) (cache : LruCache UInt64 (List F)) (call : RerankCall F) :
    LruCache UInt64 (List F) :=
  (predictScoresBatch hash call.rerankers cache call.q call.texts).2

/-- What a call returns is the score of each of its texts. -/
def Right (hash : List UInt8 → UInt64) (score : String → String → F)
    (cache : LruCache UInt64 (List F)) (call : RerankCall F) : Prop :=
  ∀ scores, (predictScoresBatch hash call.rerankers cache call.q call.texts).1 = .ok scores →
    scores = call.texts.map (score call.q)

/-- The key of a call. -/
def key (hash : List UInt8 → UInt64) (call : RerankCall F) : UInt64 :=
  rerankCacheKey hash call.q call.texts

/-- The cache of the questions and lists that filled the entries, after a call. -/
def fill (hash : List UInt8 → UInt64) (filled : LruCache UInt64 (String × List String))
    (call : RerankCall F) : LruCache UInt64 (String × List String) :=
  if call.texts.isEmpty || call.rerankers.isEmpty then filled
  else if (filled.peek (call.key hash)).isSome then filled.touch (call.key hash)
  else if (rerankChunks call.rerankers call.q call.texts).toBool then
    filled.put (call.key hash) (call.q, call.texts)
  else filled

/-- If a call finds an entry, the list that filled it has the scores of the call's own list, place
by place. -/
def Agrees (hash : List UInt8 → UInt64) (score : String → String → F)
    (filled : LruCache UInt64 (String × List String)) (call : RerankCall F) : Prop :=
  call.texts ≠ [] → call.rerankers ≠ [] → ∀ filler ∈ filled.peek (call.key hash),
    filler.2.map (score call.q) = call.texts.map (score call.q)

/-- The scores under an entry are those of the list that filled it. -/
def fillerScores (score : String → String → F) (filler : String × List String) : List F :=
  filler.2.map (score filler.1)

/-- The cache of scores is the cache of what filled it. -/
theorem step_map {call : RerankCall F} (hscores : ∀ rerank ∈ call.rerankers, Scores score rerank)
    (filled : LruCache UInt64 (String × List String)) :
    step hash (filled.map (fillerScores score)) call =
      (fill hash filled call).map (fillerScores score) := by
  unfold step fill predictScoresBatch key
  by_cases htexts : call.texts.isEmpty
  · simp [htexts]
  by_cases hrerankers : call.rerankers.isEmpty
  · simp [htexts, hrerankers]
  simp only [htexts, hrerankers, LruCache.peek_map, Bool.or_self, Bool.false_eq_true, ↓reduceIte]
  cases hpeek : filled.peek (rerankCacheKey hash call.q call.texts) with
  | some filler =>
    simp only [Option.map_some, Option.isSome_some, ↓reduceIte]
    exact LruCache.touch_map _ _ _
  | none =>
    cases hchunks : rerankChunks call.rerankers call.q call.texts with
    | error e => simp [Except.toBool]
    | ok scores =>
      have hright := rerankChunks_eq hscores (by simpa using hrerankers) hchunks
      simp only [Option.map_none, Option.isSome_none, Except.toBool, Bool.false_eq_true, ↓reduceIte]
      rw [hright]
      exact LruCache.put_map (fillerScores score) _ _ (call.q, call.texts)

/-- A call is answered right when it finds no entry, or one with the same scores. -/
theorem right_map_iff {call : RerankCall F}
    (hscores : ∀ rerank ∈ call.rerankers, Scores score rerank)
    {filled : LruCache UInt64 (String × List String)}
    (hfilled : ∀ filler ∈ filled.peek (call.key hash), filler.1 = call.q) :
    Right hash score (filled.map (fillerScores score)) call ↔ Agrees hash score filled call := by
  unfold Right Agrees predictScoresBatch key at *
  by_cases htexts : call.texts.isEmpty
  · simp_all
  by_cases hrerankers : call.rerankers.isEmpty
  · simp_all
  simp only [htexts, hrerankers, LruCache.peek_map, Bool.false_eq_true, ↓reduceIte]
  have hne : call.texts ≠ [] := by simpa using htexts
  have hsome : call.rerankers ≠ [] := by simpa using hrerankers
  cases hpeek : filled.peek (rerankCacheKey hash call.q call.texts) with
  | some filler =>
    have hquestion := hfilled filler hpeek
    simp [fillerScores, hquestion, hne, hsome]
  | none =>
    cases hchunks : rerankChunks call.rerankers call.q call.texts with
    | error e => simp
    | ok scores =>
      have hright := rerankChunks_eq hscores hsome hchunks
      simp [hright]

/-- What is in the cache was entered by a call. -/
theorem mem_fill {filled : LruCache UInt64 (String × List String)} {call : RerankCall F}
    {entry : UInt64 × (String × List String)} (h : entry ∈ (fill hash filled call).entries) :
    entry = (call.key hash, (call.q, call.texts)) ∨ entry ∈ filled.entries := by
  unfold fill at h
  split at h
  · exact .inr h
  split at h
  · exact .inr (LruCache.mem_touch h)
  split at h
  · exact LruCache.mem_put h
  · exact .inr h

end RerankCall

/-- In a run of calls, each is answered with the scores of its texts if and only if none finds the
scores of a list that has others at some place. -/
theorem eachStep_right_iff {calls : List (RerankCall F)}
    (hscores : ∀ call ∈ calls, ∀ rerank ∈ call.rerankers, Scores score rerank)
    (hhash : Set.InjOn hash {input | ∃ call ∈ calls, rerankHashInput call.q call.texts = input})
    (capacity : ℕ) :
    EachStep (RerankCall.step hash) (RerankCall.Right hash score) (.empty _ _ capacity) calls ↔
      EachStep (RerankCall.fill hash) (RerankCall.Agrees hash score) (.empty _ _ capacity)
        calls := by
  -- Every entry was filled by a call of the run.
  have hrun : ∀ (rest : List (RerankCall F)) (filled : LruCache UInt64 (String × List String)),
      rest ⊆ calls →
      (∀ entry ∈ filled.entries, ∃ call ∈ calls, entry = (call.key hash, (call.q, call.texts))) →
      (EachStep (RerankCall.step hash) (RerankCall.Right hash score)
          (filled.map (RerankCall.fillerScores score)) rest ↔
        EachStep (RerankCall.fill hash) (RerankCall.Agrees hash score) filled rest) := by
    intro rest
    induction rest with
    | nil => exact fun _ _ _ => ⟨fun _ => .nil, fun _ => .nil⟩
    | cons call rest ih =>
      intro filled hsubset hfilled
      have hcall : call ∈ calls := hsubset List.mem_cons_self
      have hquestion : ∀ filler ∈ filled.peek (call.key hash), filler.1 = call.q := by
        intro filler hpeek
        obtain ⟨first, hfirst, heq⟩ := hfilled _ (LruCache.mem_of_peek hpeek)
        obtain ⟨hkey, rfl⟩ := Prod.mk.inj heq
        have hinput := hhash ⟨call, hcall, rfl⟩ ⟨first, hfirst, rfl⟩ hkey
        exact (rerankHashInput_eq hinput).1.symm
      rw [EachStep.cons_iff, EachStep.cons_iff, RerankCall.step_map (hscores call hcall),
        RerankCall.right_map_iff (hscores call hcall) hquestion]
      refine and_congr_right fun _ => ih _ (fun c hc => hsubset (List.mem_cons_of_mem _ hc)) ?_
      intro entry hentry
      rcases RerankCall.mem_fill hentry with rfl | hold
      · exact ⟨call, hcall, rfl⟩
      · exact hfilled entry hold
  exact hrun calls (.empty _ _ capacity) (List.Subset.refl _) (by simp [LruCache.empty])

end

/-- An executor of a model. -/
def executor {F : Type} (score : String → String → F) : TextRerank F :=
  fun q docs => .ok (docs.zipIdx.map fun d => (d.2, score q d.1))

/-- An executor that scores pair by pair scores. -/
theorem scores_executor {F : Type} (score : String → String → F) : Scores score (executor score) := by
  intro q docs results h
  rw [← Except.ok.inj h]

/-- So does every member of a pool that holds it alone. -/
theorem scores_of_mem_singleton {F : Type} {score : String → String → F} {rerank : TextRerank F}
    (h : rerank ∈ [executor score]) : Scores score rerank := by
  rw [List.mem_singleton.mp h]
  exact scores_executor score

/-- A model that tells two texts apart. -/
def twoTexts (_ text : String) : ℕ := if text = "a" then 1 else 2

/-- The same list twice: the second call is answered from the cache. -/
theorem same_list :
    EachStep (RerankCall.step fun _ => 0) (RerankCall.Right (fun _ => 0) twoTexts) (.empty _ _ 1)
      [⟨"q", ["a", "b"], [executor twoTexts]⟩, ⟨"q", ["a", "b"], [executor twoTexts]⟩] := by
  refine (eachStep_right_iff ?_ ?_ 1).mpr ?_
  · intro call hcall rerank hrerank
    rcases List.mem_pair.mp hcall with rfl | rfl
    all_goals exact scores_of_mem_singleton hrerank
  · rintro x ⟨call, hcall, rfl⟩ y ⟨call', hcall', rfl⟩ -
    rcases List.mem_pair.mp hcall with rfl | rfl <;> rcases List.mem_pair.mp hcall' with rfl | rfl
    all_goals rfl
  · rw [EachStep.cons_iff, EachStep.cons_iff]
    refine ⟨fun _ _ filler h => absurd h (by simp [LruCache.peek, LruCache.empty]),
      fun _ _ filler h => ?_, .nil⟩
    have hfiller : some ("q", ["a", "b"]) = some filler := by
      rw [← Option.mem_def.mp h]
      decide +kernel
    rw [← Option.some.inj hfiller]

/-- The same texts in another order are answered in the first order. -/
theorem permuted_scores :
    ¬ ∀ (hash : List UInt8 → UInt64) (score : String → String → ℕ) (calls : List (RerankCall ℕ))
        (capacity : ℕ),
      (∀ call ∈ calls, ∀ rerank ∈ call.rerankers, Scores score rerank) →
      Set.InjOn hash {input | ∃ call ∈ calls, rerankHashInput call.q call.texts = input} →
      EachStep (RerankCall.step hash) (RerankCall.Right hash score) (.empty _ _ capacity)
        calls := by
  intro hclaim
  have hright := hclaim (fun _ => 0) twoTexts
    [⟨"q", ["a", "b"], [executor twoTexts]⟩, ⟨"q", ["b", "a"], [executor twoTexts]⟩] 1 ?_ ?_
    [⟨"q", ["a", "b"], [executor twoTexts]⟩] ⟨"q", ["b", "a"], [executor twoTexts]⟩ [] rfl [1, 2]
    (by decide +kernel)
  · exact absurd hright (by decide)
  · intro call hcall rerank hrerank
    rcases List.mem_pair.mp hcall with rfl | rfl
    all_goals exact scores_of_mem_singleton hrerank
  · rintro x ⟨call, hcall, rfl⟩ y ⟨call', hcall', rfl⟩ -
    rcases List.mem_pair.mp hcall with rfl | rfl <;> rcases List.mem_pair.mp hcall' with rfl | rfl
    all_goals decide +kernel

end Tellodb
