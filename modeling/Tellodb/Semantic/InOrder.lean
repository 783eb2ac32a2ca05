import Tellodb.Semantic.Embedded

/-!
# Vectors in the order of the texts

`embed_texts` takes the vectors of some texts from the cache, sorts the other texts, computes their
vectors in batches on several executors, and puts them back at their places. What it returns are the
vectors of the texts in the order of the texts, if each row of the cache holds the vector of its
text, and then each row does so afterwards (`embedTexts_in_order`). -/

namespace Tellodb

open Collections Machine Relational

variable {H : Type} [DecidableEq H]

/-- Each row under a model's key holds the vector of the text whose hash it is under. -/
def HoldsVectors (hash : String → H) (modelOf : String → String → Vector32)
    (cache : Table (EmbeddingRow.primaryKey (H := H))) : Prop :=
  ∀ r ∈ cache.rows, ∀ text, hash text = r.textHash →
    r.embedding = f32sToBytes (modelOf r.modelKey text)

variable {hash : String → H} {modelOf : String → String → Vector32} {M : SemanticInference}
  {call : EmbedCall} {cache : Table (EmbeddingRow.primaryKey (H := H))}

/-- A hit in such a cache is the vector of the text. -/
theorem HoldsVectors.hit (h : HoldsVectors hash modelOf cache)
    (hmodel : modelOf M.cacheModelKey = M.model) {idx : ℕ} (hidx : idx < call.texts.length)
    {v : Vector32} (hv : (call.cachedVectors hash M cache).getD idx none = some v) :
    v = M.model (call.text idx) := by
  have hlength : (call.cachedVectors hash M cache).length = call.texts.length :=
    EmbedCall.length_cachedVectors cache
  have hget : (call.cachedVectors hash M cache)[idx]? = some (some v) := by
    rw [List.getD_eq_getElem?_getD, List.getElem?_eq_getElem (by rw [hlength]; exact hidx)] at hv
    rw [List.getElem?_eq_getElem (by rw [hlength]; exact hidx)]
    exact congrArg some hv
  have htext : call.texts[idx]? = some (call.text idx) := by
    unfold EmbedCall.text
    rw [List.getD_eq_getElem?_getD, List.getElem?_eq_getElem hidx]
    rfl
  have hmem : (call.text idx, some v) ∈ call.texts.zip (call.cachedVectors hash M cache) := by
    refine List.mem_of_getElem? (i := idx) ?_
    rw [List.getElem?_zip_eq_some]
    exact ⟨htext, hget⟩
  obtain ⟨-, -, r, hr, hkey, hbytes⟩ := EmbedCall.exists_of_hit hmem rfl
  obtain ⟨hmodelKey, hhash⟩ := Prod.mk.inj hkey
  rw [h r hr (call.text idx) hhash.symm, hmodelKey, bytesToF32s_f32sToBytes] at hbytes
  rw [← Option.some.inj hbytes, hmodel]

/-- The places that have no hit are those that are computed. -/
theorem mem_missing {results : List (Option Vector32)} {idx : ℕ} :
    idx ∈ call.missing results ↔ idx < call.texts.length ∧ results.getD idx none = none := by
  unfold EmbedCall.missing
  rw [mem_orderBy, List.mem_filter, List.mem_range, Option.isNone_iff_eq_none]

/-- If there is the vector of the text at every place, these are the vectors of the texts. -/
theorem filterMap_eq_map {results : List (Option Vector32)}
    (hlength : results.length = call.texts.length)
    (hall : ∀ idx < call.texts.length,
      results.getD idx none = some (M.model (call.text idx))) :
    results.filterMap id = call.texts.map M.model := by
  have hresults : results = call.texts.map fun text => some (M.model text) := by
    refine List.ext_getElem (by rw [List.length_map, hlength]) fun idx hidx _ => ?_
    have htext : idx < call.texts.length := by rw [← hlength]; exact hidx
    have hvector := hall idx htext
    unfold EmbedCall.text at hvector
    rw [List.getD_eq_getElem?_getD, List.getD_eq_getElem?_getD, List.getElem?_eq_getElem hidx,
      List.getElem?_eq_getElem htext] at hvector
    rw [List.getElem_map]
    exact hvector
  rw [hresults, List.filterMap_map]
  exact congrFun List.filterMap_eq_map _

/-- What a call returns are the vectors of its texts. -/
theorem HoldsVectors.returns (h : HoldsVectors hash modelOf cache)
    (hmodel : modelOf M.cacheModelKey = M.model)
    (hexecutor : ∀ i, Computes M.model (call.executor i)) {vectors : List Vector32}
    (hvectors : (call.embedTexts hash M cache).1 = .ok vectors) :
    vectors = call.texts.map M.model := by
  have hlength : (call.cachedVectors hash M cache).length = call.texts.length :=
    EmbedCall.length_cachedVectors cache
  -- A place that is not computed has a hit.
  have hhit : ∀ idx < call.texts.length,
      idx ∉ call.missing (call.cachedVectors hash M cache) →
        (call.cachedVectors hash M cache).getD idx none = some (M.model (call.text idx)) := by
    intro idx hidx hmissing
    cases hv : (call.cachedVectors hash M cache).getD idx none with
    | none => exact absurd (mem_missing.mpr ⟨hidx, hv⟩) hmissing
    | some v => rw [h.hit hmodel hidx hv]
  unfold EmbedCall.embedTexts at hvectors
  -- No text, no vector that is missing, or a vector for each one that is.
  split at hvectors
  · rename_i hempty
    rw [← Except.ok.inj hvectors, List.isEmpty_iff.mp hempty]
    rfl
  dsimp only at hvectors
  split at hvectors
  · rename_i hnone
    rw [← Except.ok.inj hvectors]
    refine filterMap_eq_map hlength fun idx hidx => hhit idx hidx ?_
    rw [List.isEmpty_iff.mp hnone]
    exact List.not_mem_nil
  cases hcompute : call.compute M (call.missing (call.cachedVectors hash M cache)) with
  | error e =>
    rw [hcompute] at hvectors
    exact absurd hvectors (by simp)
  | ok computed =>
    rw [hcompute] at hvectors
    dsimp only at hvectors
    split at hvectors
    · exact absurd hvectors (by simp)
    · rw [← Except.ok.inj hvectors, (EmbedCall.compute_eq hexecutor hcompute).1]
      refine filterMap_eq_map (by rw [EmbedCall.length_foldl_set, hlength]) fun idx hidx => ?_
      -- The place was computed now, or it had a hit.
      rw [EmbedCall.getD_foldl_set (fun idx => M.model (call.text idx)) _ _
        (by rw [hlength]; exact hidx)]
      split
      · rfl
      · rename_i hmissing
        exact hhit idx hidx hmissing

/-- A call keeps what the cache is to hold. -/
theorem HoldsVectors.embedTexts (h : HoldsVectors hash modelOf cache)
    (hhash : Function.Injective hash) (hmodel : modelOf M.cacheModelKey = M.model)
    (hexecutor : ∀ i, Computes M.model (call.executor i)) :
    HoldsVectors hash modelOf (call.embedTexts hash M cache).2 := by
  intro r hr text htext
  rcases EmbedCall.mem_embedTexts hexecutor hr with hold | ⟨-, written, -, -, rfl⟩
  · exact h r hold text htext
  · rw [hhash htext]
    exact congrArg (fun model => f32sToBytes (model written)) hmodel.symm

/-- For every list of texts, every cache whose rows hold the vectors of their texts, every size of a
batch and number of executors: a call fails or returns the vectors of the texts, in the order of the
texts, and the rows of the cache hold the vectors of their texts afterwards. The hash tells all
texts apart, and an executor that answers computes the model's vector of each text. -/
theorem embedTexts_in_order (hhash : Function.Injective hash)
    (hexecutor : ∀ i, Computes M.model (call.executor i))
    (hmodel : modelOf M.cacheModelKey = M.model) (hcache : HoldsVectors hash modelOf cache) :
    ((∃ e, (call.embedTexts hash M cache).1 = .error e) ∨
      (call.embedTexts hash M cache).1 = .ok (call.texts.map M.model)) ∧
    HoldsVectors hash modelOf (call.embedTexts hash M cache).2 := by
  refine ⟨?_, hcache.embedTexts hhash hmodel hexecutor⟩
  cases hresult : (call.embedTexts hash M cache).1 with
  | error e => exact .inl ⟨e, rfl⟩
  | ok vectors => exact .inr (by rw [hcache.returns hmodel hexecutor hresult])

section

/-- A model of one dimension that has two executors and embeds the texts one by one. -/
private def byLength : SemanticInference where
  embeddingModelId := "m"
  cacheModelKey := "m@16"
  embeddingDim := 1
  embedBatch := 1
  maxTokens := 16
  executors := 2
  model text := [text.length.toUInt32]
  cached := true

/-- A call with a text twice, a long text before a short one and a text that is in the cache. -/
private def fourTexts : EmbedCall where
  texts := ["long", "a", "bc", "long"]
  executor _ texts := .ok (texts.map byLength.model)
  reads := true
  writes := true

/-- A cache with the vector of one text. -/
private def oneVector : Table (EmbeddingRow.primaryKey (H := String)) :=
  (Table.empty _).insertOrReplace ⟨"m@16", "bc", f32sToBytes [2]⟩

/-- The theorem for such a call, which does not fail. -/
theorem embedTexts_in_order_four :
    (fourTexts.embedTexts id byLength oneVector).1.toOption = some [[4], [1], [2], [4]] ∧
      ((∃ e, (fourTexts.embedTexts id byLength oneVector).1 = .error e) ∨
        (fourTexts.embedTexts id byLength oneVector).1 =
          .ok (fourTexts.texts.map byLength.model)) ∧
      HoldsVectors id (fun _ => byLength.model) (fourTexts.embedTexts id byLength oneVector).2 := by
  refine ⟨by decide +kernel, embedTexts_in_order Function.injective_id
    (fun _ _ _ h => (Except.ok.inj h).symm) rfl ?_⟩
  intro r hr text htext
  have hrow : r = ⟨"m@16", "bc", f32sToBytes [2]⟩ := List.mem_singleton.mp hr
  rw [hrow] at htext ⊢
  rw [show text = "bc" from htext]
  rfl

end

end Tellodb
