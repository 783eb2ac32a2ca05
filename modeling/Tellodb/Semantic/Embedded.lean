import Tellodb.Collections.Chunks
import Tellodb.Core.Text
import Tellodb.Lifecycle.Retention
import Tellodb.Machine.Bytes
import Tellodb.Semantic.Cached

/-!
# Vectors from the cache

`SemanticInference::with_config` and `embed_texts` of `semantic.rs`, with the file of vectors that
outlives a process. An entry of it is found under the identifier of the model, the number of tokens
and the text. So two configurations that load their models from elsewhere share their entries, and
each hit is what the caller's own model computes exactly if the models compute the same vectors for
the texts that can be stored (`hits_right_iff`). -/

namespace Tellodb

open Collections Machine Relational

/-! ## Loading a model -/

/-- The bits of the values of a vector. -/
abbrev Vector32 := List UInt32

/-- `f32::is_finite` -/
def isFinite (value : UInt32) : Bool := value.toNat / 2 ^ 23 % 2 ^ 8 ≠ 2 ^ 8 - 1

/-- `ModelFiles` -/
structure ModelFiles where
  onnx : List UInt8
  tokenizer : List UInt8
  config : List UInt8
  specialTokensMap : List UInt8
  tokenizerConfig : List UInt8
  deriving DecidableEq

/-- `EmbeddingConfig`, as far as a model is loaded and a text embedded by it. -/
structure EmbeddingConfig where
  modelId : String
  modelDir : Option String
  executors : ℕ
  maxTokens : ℕ
  batch : ℕ
  dimension : Option ℕ

/-- The process that loads a model: how it was built, and what it reads. -/
structure EmbedHost where
  debugAssertions : Bool
  /-- The files compiled into the binary, with the feature `bundled-models`. -/
  bundled : Option ModelFiles
  /-- `ModelFiles::read_dir` -/
  readDir : String → Except String ModelFiles
  /-- The cache is enabled and its file opens. -/
  cached : Bool

/-- What is asked of `fastembed`. A model that is loaded computes a vector for each text. -/
structure Fastembed (Model : Type) where
  /-- `parse_embedding_model`, by the list of supported models. -/
  parse : String → Except String Model
  /-- The dimension that `TextEmbedding::get_model_info` has. -/
  dim : Model → Option ℕ
  /-- `TextEmbedding::try_new_from_user_defined`, with the pooling of the model. -/
  tryNewFromUserDefined : Model → ModelFiles → ℕ → Except String (String → Vector32)
  /-- `TextEmbedding::try_new` -/
  tryNew : Model → ℕ → Except String (String → Vector32)

/-- `SemanticInference`, as far as texts are embedded. -/
structure SemanticInference where
  embeddingModelId : String
  cacheModelKey : String
  embeddingDim : ℕ
  embedBatch : ℕ
  maxTokens : ℕ
  /-- How many executors have the model. -/
  executors : ℕ
  /-- What the model computes: each executor has it. Without executors it is `test_embedding`. -/
  model : String → Vector32
  /-- The cache has a connection. -/
  cached : Bool

/-- `embedding_dimensions_for_model` -/
def embeddingDimensionsForModel (id : String) (configured : Option ℕ) : ℕ :=
  configured.getD <|
    if containsText id "bge-small" then 384
    else if containsText id "bge-base" then 768
    else if containsText id "bge-large" then 1024
    else if containsText id "MiniLM-L6" then 384
    else if containsText id "MiniLM-L12" then 384
    else if containsText id "e5-small" then 384
    else if containsText id "e5-base" then 768
    else if containsText id "e5-large" then 1024
    else 384

/-- `local_model_files` -/
def localModelFiles (host : EmbedHost) (modelDir : Option String) :
    Except String (Option ModelFiles) :=
  match host.bundled with
  | some files => .ok (some files)
  | none => match modelDir with
    | some dir => (host.readDir dir).map some
    | none => .ok none

/-- The cache namespace of a model: `"{embedding_model_id}@{max_tokens}"`. -/
def modelKey (embeddingModelId : String) (maxTokens : ℕ) : String :=
  embeddingModelId ++ "@" ++ toString maxTokens

/-- `SemanticInference::test_stub` -/
def testStub (testEmbedding : String → ℕ → Vector32) (host : EmbedHost)
    (embedding : EmbeddingConfig) : SemanticInference :=
  let embeddingDim := embeddingDimensionsForModel "test" embedding.dimension
  { embeddingModelId := "test"
    cacheModelKey := modelKey "test" (max embedding.maxTokens 1)
    embeddingDim := embeddingDim
    embedBatch := max embedding.batch 1
    maxTokens := max embedding.maxTokens 1
    executors := 0
    model := fun text => testEmbedding text embeddingDim
    cached := host.cached }

/-- `SemanticInference::with_config`, as far as texts are embedded. -/
def withConfig {Model : Type} (fastembed : Fastembed Model)
    (testEmbedding : String → ℕ → Vector32) (host : EmbedHost) (embedding : EmbeddingConfig) :
    Except String SemanticInference :=
  if host.debugAssertions &&
      toAsciiLowercase (String.ofList (trim embedding.modelId.toList)) = "test" then
    .ok (testStub testEmbedding host embedding)
  else do
    let modelName ← fastembed.parse embedding.modelId
    let embeddingDim := (fastembed.dim modelName).getD
      (embeddingDimensionsForModel embedding.modelId embedding.dimension)
    let maxTokens := min (max embedding.maxTokens 16) 8192
    let files ← localModelFiles host embedding.modelDir
    let model ← files.elim (fastembed.tryNew modelName maxTokens) fun files =>
      fastembed.tryNewFromUserDefined modelName files maxTokens
    let actualDim := (model "probe").length
    if actualDim ≠ embeddingDim then
      .error <| s!"Embedding model dimension mismatch for '{embedding.modelId}': " ++
        s!"expected {embeddingDim}, got {actualDim}"
    else
      return { embeddingModelId := embedding.modelId
               cacheModelKey := modelKey embedding.modelId maxTokens
               embeddingDim := embeddingDim
               embedBatch := max embedding.batch 1
               maxTokens := maxTokens
               executors := min (max embedding.executors 1) 32
               model := model
               cached := host.cached }

/-! ## The cache -/

/-- `f32s_to_bytes` -/
def f32sToBytes (values : Vector32) : List UInt8 := values.flatMap leBytes

/-- `bytes_to_f32s` -/
def bytesToF32s (bytes : List UInt8) : Option Vector32 :=
  if bytes.length % 4 ≠ 0 then none else some (ofLeChunks bytes)

/-- A row of `embeddings`. -/
structure EmbeddingRow (H : Type) where
  modelKey : String
  textHash : H
  embedding : List UInt8

/-- `PRIMARY KEY (model_key, text_hash)` -/
def EmbeddingRow.primaryKey {H : Type} (r : EmbeddingRow H) : String × H :=
  (r.modelKey, r.textHash)

section

variable {H : Type} [DecidableEq H] (hash : String → H)

namespace SemanticInference

variable (M : SemanticInference)

/-- `EmbeddingCache::get_many`. A read that fails finds nothing. -/
def getMany (reads : Bool) (cache : Table (EmbeddingRow.primaryKey (H := H))) (hashes : List H) :
    List (Option Vector32) :=
  if M.cached && reads then
    hashes.map fun hash =>
      ((cache.find? (M.cacheModelKey, hash)).bind fun r => bytesToF32s r.embedding).filter
        fun v => v.length = M.embeddingDim
  else List.replicate hashes.length none

/-- `EmbeddingCache::put_many`. A write that fails changes nothing. -/
def putMany (writes : Bool) (cache : Table (EmbeddingRow.primaryKey (H := H)))
    (items : List (H × Vector32)) : Table (EmbeddingRow.primaryKey (H := H)) :=
  if M.cached && writes then
    items.foldl (fun cache item =>
      cache.insertOrReplace ⟨M.cacheModelKey, item.1, f32sToBytes item.2⟩) cache
  else cache

end SemanticInference

/-- `TextEmbedding::embed` on one executor. -/
abbrev TextEmbedding := List String → Except String (List Vector32)

/-- A call of `embed_texts`, with what the executors and the cache do during it. -/
structure EmbedCall where
  texts : List String
  /-- The executor that gets a batch, as it answers. -/
  executor : ℕ → TextEmbedding
  reads : Bool
  writes : Bool

namespace EmbedCall

variable (M : SemanticInference) (call : EmbedCall)

/-- The text at a place. -/
def text (idx : ℕ) : String := call.texts.getD idx ""

/-- `embed_on_executor` -/
def embedOnExecutor (i : ℕ) (batch : List ℕ) : Except String (List Vector32) := do
  let inputs := batch.map call.text
  let vectors ← call.executor i inputs
  if vectors.length ≠ inputs.length then
    .error s!"embedding model returned {vectors.length} vectors for {inputs.length} texts"
  else match vectors.find? fun v => v.length ≠ M.embeddingDim || v.any fun x => !isFinite x with
    | some bad =>
      .error <| s!"embedding model returned an invalid vector (len {bad.length}, " ++
        s!"expected {M.embeddingDim})"
    | none => .ok vectors

/-- The vectors of texts that are not in the cache, each with its place. -/
def compute (missing : List ℕ) : Except String (List (ℕ × Vector32)) :=
  if M.executors = 0 then .ok (missing.map fun idx => (idx, M.model (call.text idx)))
  else do
    let batches := missing.toChunks M.embedBatch
    let computed ← batches.zipIdx.mapM fun batch => call.embedOnExecutor M batch.2 batch.1
    return (batches.zip computed).flatMap fun x => x.1.zip x.2

/-- What the cache has for the texts, in their order. -/
def cachedVectors (cache : Table (EmbeddingRow.primaryKey (H := H))) : List (Option Vector32) :=
  M.getMany call.reads cache (call.texts.map hash)

/-- The places of the texts that are not in the cache, the short ones first. -/
def missing (results : List (Option Vector32)) : List ℕ :=
  orderBy (fun idx => (call.text idx).utf8ByteSize)
    ((List.range call.texts.length).filter fun idx => (results.getD idx none).isNone)

/-- `embed_texts`, with the cache after it. -/
def embedTexts (cache : Table (EmbeddingRow.primaryKey (H := H))) :
    Except String (List Vector32) × Table (EmbeddingRow.primaryKey (H := H)) :=
  if call.texts.isEmpty then (.ok [], cache)
  else
    let results := call.cachedVectors hash M cache
    let missing := call.missing results
    if missing.isEmpty then (.ok (results.filterMap id), cache)
    else match call.compute M missing with
      | .error e => (.error e, cache)
      | .ok computed =>
        let results := computed.foldl (fun results x => results.set x.1 (some x.2)) results
        let cache := M.putMany call.writes cache (missing.filterMap fun idx =>
          (results.getD idx none).map fun v => (hash (call.text idx), v))
        let embedded := results.filterMap id
        if embedded.length ≠ call.texts.length then
          (.error s!"embedded {embedded.length} of {call.texts.length} texts", cache)
        else (.ok embedded, cache)

end EmbedCall

end

/-! ## The key -/

/-- Bytes are read back as the values that were written. -/
theorem bytesToF32s_f32sToBytes (values : Vector32) :
    bytesToF32s (f32sToBytes values) = some values := by
  have hlength := length_flatMap_leBytes values
  unfold bytesToF32s f32sToBytes
  rw [if_neg (by omega), ofLeChunks_flatMap]

/-- The key of a model tells the identifiers and the numbers of tokens apart. -/
theorem modelKey_inj {id id' : String} {maxTokens maxTokens' : ℕ}
    (h : modelKey id maxTokens = modelKey id' maxTokens') : id = id' ∧ maxTokens = maxTokens' := by
  have hdigits : ∀ n : ℕ, '@' ∉ (toString n).toList.reverse := by
    intro n hmem
    have hlist : (toString n).toList = Nat.toDigits 10 n := Nat.toList_repr
    rw [List.mem_reverse, hlist] at hmem
    exact absurd (Nat.isDigit_of_mem_toDigits (by omega) (by omega) hmem) (by decide)
  have hkey : ∀ (id : String) (n : ℕ), (modelKey id n).toList.reverse =
      (toString n).toList.reverse ++ '@' :: id.toList.reverse := by
    intro id n
    unfold modelKey
    simp
  have hreverse := congrArg (fun key => key.toList.reverse) h
  rw [hkey, hkey] at hreverse
  obtain ⟨htokens, hid⟩ := append_cons_inj_of_end (hdigits _) (hdigits _) hreverse
  refine ⟨String.toList_injective (List.reverse_injective hid), ?_⟩
  have htext : toString maxTokens = toString maxTokens' :=
    String.toList_injective (List.reverse_injective htokens)
  have hlist := congrArg String.toList htext
  rw [show (toString maxTokens).toList = Nat.toDigits 10 maxTokens from Nat.toList_repr,
    show (toString maxTokens').toList = Nat.toDigits 10 maxTokens' from Nat.toList_repr] at hlist
  have hvalue := congrArg (fun digits => Nat.ofDigitChars 10 digits 0) hlist
  simpa [Nat.ofDigitChars_toDigits] using hvalue

/-- The key of a loaded model is made of its identifier and its number of tokens. -/
theorem withConfig_spec {Model : Type} {fastembed : Fastembed Model}
    {testEmbedding : String → ℕ → Vector32} {host : EmbedHost} {embedding : EmbeddingConfig}
    {M : SemanticInference} (h : withConfig fastembed testEmbedding host embedding = .ok M) :
    M.cacheModelKey = modelKey M.embeddingModelId M.maxTokens ∧ 0 < M.embedBatch := by
  unfold withConfig at h
  split at h
  · rw [← Except.ok.inj h]
    exact ⟨rfl, lt_of_lt_of_le Nat.zero_lt_one (le_max_right _ _)⟩
  · obtain ⟨modelName, -, h⟩ := exists_of_bind h
    obtain ⟨files, -, h⟩ := exists_of_bind h
    obtain ⟨model, -, h⟩ := exists_of_bind h
    dsimp only at h
    split at h
    · exact absurd h (by simp)
    · rw [← Except.ok.inj h]
      exact ⟨rfl, lt_of_lt_of_le Nat.zero_lt_one (le_max_right _ _)⟩

/-! ## What a call stores -/

/-- An executor that answers returns what the model computes for each text. -/
def Computes (model : String → Vector32) (executor : TextEmbedding) : Prop :=
  ∀ texts vectors, executor texts = .ok vectors → vectors = texts.map model

/-- The vector of a text passes the checks of `embed_on_executor`, where there are any. -/
def SemanticInference.Writes (M : SemanticInference) (text : String) : Prop :=
  M.executors ≠ 0 → (M.model text).length = M.embeddingDim ∧
    ∀ x ∈ M.model text, isFinite x = true

namespace EmbedCall

variable {M : SemanticInference} {call : EmbedCall}

/-- A batch that succeeds has the vectors of its texts, which pass the checks. -/
theorem embedOnExecutor_eq {i : ℕ} (hexecutor : Computes M.model (call.executor i))
    {batch : List ℕ} {vectors : List Vector32}
    (h : call.embedOnExecutor M i batch = .ok vectors) :
    vectors = batch.map (fun idx => M.model (call.text idx)) ∧
      ∀ idx ∈ batch, M.Writes (call.text idx) := by
  unfold embedOnExecutor at h
  obtain ⟨answer, hanswer, h⟩ := exists_of_bind h
  have hmodel := hexecutor _ _ hanswer
  split at h
  · exact absurd h (by simp)
  split at h
  · exact absurd h (by simp)
  · rename_i hvalid
    rw [← Except.ok.inj h, hmodel, List.map_map]
    refine ⟨rfl, fun idx hidx _ => ?_⟩
    have hmem : M.model (call.text idx) ∈ answer := by
      rw [hmodel, List.map_map]
      exact List.mem_map_of_mem hidx
    have hchecks := List.find?_eq_none.mp hvalid _ hmem
    simpa using hchecks

/-- A list zipped with the values of its elements. -/
theorem zip_map_self {α β : Type} (f : α → β) (l : List α) :
    l.zip (l.map f) = l.map fun a => (a, f a) := by
  have h := @List.zip_map' α α β id f l
  rwa [List.map_id] at h

/-- The batches, each zipped with the values of its places. -/
theorem zip_batches (f : ℕ → Vector32) (batches : List (List ℕ)) :
    ((batches.zip (batches.zipIdx.map fun b => b.1.map f)).flatMap fun x => x.1.zip x.2) =
      batches.flatten.map fun idx => (idx, f idx) := by
  have hforget : (batches.zipIdx.map fun b => b.1.map f) = batches.map fun b => b.map f := by
    conv_rhs => rw [← List.zipIdx_map_fst 0 batches, List.map_map]
    rfl
  rw [hforget]
  clear hforget
  induction batches with
  | nil => rfl
  | cons batch batches ih =>
    rw [List.map_cons, List.zip_cons_cons, List.flatMap_cons, List.flatten_cons, List.map_append,
      zip_map_self, ih]

/-- What is computed for texts are their vectors, which pass the checks. -/
theorem compute_eq (hexecutor : ∀ i, Computes M.model (call.executor i)) {missing : List ℕ}
    {computed : List (ℕ × Vector32)} (h : call.compute M missing = .ok computed) :
    computed = missing.map (fun idx => (idx, M.model (call.text idx))) ∧
      ∀ idx ∈ missing, M.Writes (call.text idx) := by
  unfold compute at h
  split at h
  · rename_i hnone
    exact ⟨(Except.ok.inj h).symm, fun idx _ hsome => absurd hnone hsome⟩
  · obtain ⟨vectors, hvectors, h⟩ := exists_of_bind h
    have hmap := mapM_eq_map (g := fun b => b.1.map fun idx => M.model (call.text idx))
      (fun b _ y hy => (embedOnExecutor_eq (hexecutor b.2) hy).1) hvectors
    constructor
    · rw [← Except.ok.inj h, hmap, zip_batches, flatten_toChunks]
    · intro idx hidx
      rw [← flatten_toChunks M.embedBatch missing] at hidx
      obtain ⟨batch, hbatch, hidx⟩ := List.mem_flatten.mp hidx
      obtain ⟨i, hi, hget⟩ := List.getElem_of_mem hbatch
      have hnumbered : (batch, i) ∈ (missing.toChunks M.embedBatch).zipIdx :=
        List.mk_mem_zipIdx_iff_getElem?.mpr (by rw [List.getElem?_eq_getElem hi, hget])
      obtain ⟨y, hy⟩ := exists_of_mapM hvectors _ hnumbered
      exact (embedOnExecutor_eq (hexecutor i) hy).2 idx hidx

/-- Writing for places changes no length. -/
theorem length_foldl_set (f : ℕ → Vector32) (places : List ℕ) (results : List (Option Vector32)) :
    ((places.map fun idx => (idx, f idx)).foldl (fun results x => results.set x.1 (some x.2))
      results).length = results.length := by
  induction places using List.reverseRecOn with
  | nil => rfl
  | append_singleton places place ih =>
    rw [List.map_append, List.foldl_append]
    exact List.length_set.trans ih

/-- What is written for places has the values of these, and elsewhere what was there. -/
theorem getD_foldl_set (f : ℕ → Vector32) (places : List ℕ) (results : List (Option Vector32))
    {idx : ℕ} (hlt : idx < results.length) :
    ((places.map fun idx => (idx, f idx)).foldl (fun results x => results.set x.1 (some x.2))
      results).getD idx none = if idx ∈ places then some (f idx) else results.getD idx none := by
  induction places using List.reverseRecOn with
  | nil => rfl
  | append_singleton places place ih =>
    rw [List.map_append, List.foldl_append]
    show (List.set _ place (some (f place))).getD idx none = _
    rw [List.getD_eq_getElem?_getD]
    by_cases hsame : place = idx
    · rw [hsame, List.getElem?_set_self (by rw [length_foldl_set]; exact hlt),
        if_pos (List.mem_append_right _ (List.mem_singleton_self idx))]
      rfl
    · rw [List.getElem?_set_ne hsame, ← List.getD_eq_getElem?_getD, ih]
      refine if_congr ?_ rfl rfl
      rw [List.mem_append, List.mem_singleton]
      exact ⟨.inl, fun h => h.resolve_right (Ne.symm hsame)⟩

/-- The places of the texts that are not in the cache are places of texts. -/
theorem lt_of_mem_missing {results : List (Option Vector32)} {idx : ℕ}
    (h : idx ∈ call.missing results) : idx < call.texts.length := by
  unfold missing at h
  rw [mem_orderBy] at h
  exact List.mem_range.mp (List.mem_filter.mp h).1

/-- The text at a place of a text is one of the texts. -/
theorem text_mem {idx : ℕ} (h : idx < call.texts.length) : call.text idx ∈ call.texts := by
  unfold text
  rw [List.getD_eq_getElem?_getD, List.getElem?_eq_getElem h]
  exact List.getElem_mem h

variable {H : Type} [DecidableEq H] {hash : String → H}

/-- What the texts of a call are to be found as: the hash of each with its vector. -/
def items (hash : String → H) (M : SemanticInference) (call : EmbedCall) (places : List ℕ) :
    List (H × Vector32) :=
  places.map fun idx => (hash (call.text idx), M.model (call.text idx))

omit [DecidableEq H] in
/-- What a call that succeeds puts in the cache are the vectors of the texts that were not there. -/
theorem items_eq (hexecutor : ∀ i, Computes M.model (call.executor i))
    {results : List (Option Vector32)} (hresults : results.length = call.texts.length)
    {computed : List (ℕ × Vector32)}
    (h : call.compute M (call.missing results) = .ok computed) :
    ((call.missing results).filterMap fun idx =>
      ((computed.foldl (fun results x => results.set x.1 (some x.2)) results).getD idx none).map
        fun v => (hash (call.text idx), v)) = items hash M call (call.missing results) := by
  rw [(compute_eq hexecutor h).1]
  have hplaces : ∀ idx ∈ call.missing results,
      ((((call.missing results).map fun idx => (idx, M.model (call.text idx))).foldl
        (fun results x => results.set x.1 (some x.2)) results).getD idx none).map
          (fun v => (hash (call.text idx), v)) =
        some (hash (call.text idx), M.model (call.text idx)) := by
    intro idx hidx
    rw [getD_foldl_set (fun idx => M.model (call.text idx)) _ _
      (by rw [hresults]; exact lt_of_mem_missing hidx), if_pos hidx]
    rfl
  rw [List.filterMap_congr hplaces]
  exact congrFun List.filterMap_eq_map _

/-- The row of a text under a model. -/
def row (hash : String → H) (M : SemanticInference) (text : String) : EmbeddingRow H :=
  ⟨M.cacheModelKey, hash text, f32sToBytes (M.model text)⟩

/-- As many results as texts are looked up. -/
theorem length_cachedVectors (cache : Table (EmbeddingRow.primaryKey (H := H))) :
    (call.cachedVectors hash M cache).length = call.texts.length := by
  unfold cachedVectors SemanticInference.getMany
  split <;> simp

/-- After a call the cache has what it had and rows of the texts of the call, whose vectors pass
the checks. -/
theorem mem_embedTexts (hexecutor : ∀ i, Computes M.model (call.executor i))
    {cache : Table (EmbeddingRow.primaryKey (H := H))} {r : EmbeddingRow H}
    (hr : r ∈ (call.embedTexts hash M cache).2.rows) :
    r ∈ cache.rows ∨ (M.cached = true ∧ ∃ text ∈ call.texts, M.Writes text ∧
      r = row hash M text) := by
  unfold embedTexts at hr
  split at hr
  -- Nothing is written when nothing was asked or nothing was missing.
  · exact .inl hr
  dsimp only at hr
  split at hr
  · exact .inl hr
  cases hcompute : call.compute M (call.missing (call.cachedVectors hash M cache)) with
  | error e =>
    rw [hcompute] at hr
    exact .inl hr
  | ok computed =>
    have hitems : _ = items hash M call (call.missing (call.cachedVectors hash M cache)) :=
      items_eq hexecutor (length_cachedVectors cache) hcompute
    rw [hcompute] at hr
    dsimp only at hr
    rw [hitems] at hr
    -- Whether the call succeeds or not, the rows that it has put are the same.
    have hput : r ∈ (M.putMany call.writes cache (items hash M call
        (call.missing (call.cachedVectors hash M cache)))).rows := by
      split at hr <;> exact hr
    unfold SemanticInference.putMany at hput
    split at hput
    · rename_i hcached
      rcases Table.mem_of_mem_foldl_insertOrReplace hput with hold | hnew
      · exact .inl hold
      · obtain ⟨item, hitem, rfl⟩ := hnew
        obtain ⟨idx, hidx, rfl⟩ := List.mem_map.mp hitem
        exact .inr ⟨(Bool.and_eq_true_iff.mp hcached).1, call.text idx,
          text_mem (lt_of_mem_missing hidx), (compute_eq hexecutor hcompute).2 idx hidx, rfl⟩
    · exact .inl hput

/-- A hit is a row under the caller's key, with a vector of the caller's dimension. -/
theorem exists_of_hit {cache : Table (EmbeddingRow.primaryKey (H := H))}
    {hit : String × Option Vector32} (h : hit ∈ call.texts.zip (call.cachedVectors hash M cache))
    {v : Vector32} (hv : hit.2 = some v) :
    M.cached = true ∧ v.length = M.embeddingDim ∧ ∃ r ∈ cache.rows,
      r.primaryKey = (M.cacheModelKey, hash hit.1) ∧ bytesToF32s r.embedding = some v := by
  unfold cachedVectors SemanticInference.getMany at h
  split at h
  · rename_i hcached
    rw [List.map_map, zip_map_self] at h
    obtain ⟨text, -, rfl⟩ := List.mem_map.mp h
    obtain ⟨hbind, hlength⟩ := Option.filter_eq_some_iff.mp hv
    obtain ⟨r, hr, hbytes⟩ := Option.bind_eq_some_iff.mp hbind
    obtain ⟨hmem, hkey⟩ := Table.find?_eq_some.mp hr
    exact ⟨(Bool.and_eq_true_iff.mp hcached).1, of_decide_eq_true hlength, r, hmem, hkey, hbytes⟩
  · have hnone := List.eq_of_mem_replicate (List.of_mem_zip h).2
    rw [hv] at hnone
    exact absurd hnone (by simp)

/-- A text that is embedded on its own. -/
def single (M : SemanticInference) (text : String) : EmbedCall :=
  ⟨[text], fun _ texts => .ok (texts.map M.model), true, true⟩

/-- The text of such a call is in the empty cache afterwards if its vector passes the checks. -/
theorem find?_embedTexts_single (hcached : M.cached = true) (hbatch : 0 < M.embedBatch)
    {text : String} (hwrites : M.Writes text) :
    (((single M text).embedTexts hash M (Table.empty _)).2).find? (M.cacheModelKey, hash text) =
      some (row hash M text) := by
  -- The cache is empty, so the text is missing.
  have hresults : (single M text).cachedVectors hash M (Table.empty _) = [none] := by
    unfold cachedVectors SemanticInference.getMany
    split <;> rfl
  have hmissing : (single M text).missing [none] = [0] := rfl
  -- The text is computed in one batch of one, and nothing is refused.
  have hcompute : (single M text).compute M [0] = .ok [(0, M.model text)] := by
    unfold compute
    split
    · rfl
    · rename_i hsome
      -- The vector is valid where it is to be written.
      obtain ⟨hlength, hfinite⟩ := hwrites hsome
      have hbatches : [0].toChunks M.embedBatch = [[0]] := by
        obtain ⟨n, hn⟩ := Nat.exists_eq_succ_of_ne_zero hbatch.ne'
        rw [hn]
        rfl
      have hone : (single M text).embedOnExecutor M 0 [0] = .ok [M.model text] := by
        have hvalid : ([M.model text].find? fun v =>
            v.length ≠ M.embeddingDim || v.any fun x => !isFinite x) = none := by
          rw [List.find?_eq_none]
          intro v hv
          rw [List.mem_singleton.mp hv]
          simpa [hlength] using hfinite
        unfold embedOnExecutor
        show (Except.ok [M.model text] >>= _) = _
        rw [ok_bind, if_neg (by simp), hvalid]
      have hall : ([[0]].zipIdx.mapM fun batch =>
          (single M text).embedOnExecutor M batch.2 batch.1) = .ok [[M.model text]] :=
        mapM_eq_ok (g := fun _ => [M.model text]) fun batch hbatch => by
          rw [List.mem_singleton.mp hbatch]
          exact hone
      rw [hbatches]
      dsimp only
      rw [hall, ok_bind]
      rfl
  -- The vector is written under the key and the text.
  have hput : (M.putMany true (Table.empty _) [(hash text, M.model text)]).find?
      (M.cacheModelKey, hash text) = some (row hash M text) := by
    unfold SemanticInference.putMany
    rw [if_pos (by rw [hcached]; rfl)]
    exact (Table.find?_insertOrReplace _ _ _).trans (if_pos rfl)
  unfold embedTexts
  rw [if_neg (by simp [single]), hresults]
  dsimp only
  rw [hmissing, if_neg (by simp), hcompute]
  dsimp only
  split <;> exact hput

/-- A model that finds the row of a text under its key reads the vector if it has its dimension. -/
theorem cachedVectors_single {M' : SemanticInference} (hcached : M'.cached = true) {text : String}
    {cache : Table (EmbeddingRow.primaryKey (H := H))}
    (hrow : cache.find? (M'.cacheModelKey, hash text) = some (row hash M text))
    (hlength : (M.model text).length = M'.embeddingDim) :
    (single M' text).cachedVectors hash M' cache = [some (M.model text)] := by
  unfold cachedVectors SemanticInference.getMany
  rw [if_pos (by rw [hcached]; rfl)]
  show [((cache.find? (M'.cacheModelKey, hash text)).bind _).filter _] = _
  rw [hrow, Option.bind_some]
  show [(bytesToF32s (f32sToBytes (M.model text))).filter _] = _
  rw [bytesToF32s_f32sToBytes, Option.filter_some, if_pos (decide_eq_true hlength)]

end EmbedCall

/-! ## Two configurations and one cache -/

namespace SemanticInference

/-- Two models use the same entries of a cache. -/
structure SharesEntries (A B : SemanticInference) : Prop where
  embeddingModelId : A.embeddingModelId = B.embeddingModelId
  maxTokens : A.maxTokens = B.maxTokens
  cached : A.cached = true ∧ B.cached = true

/-- What a model writes and another one takes up is what this one computes. -/
def AgreesWith (A B : SemanticInference) : Prop :=
  ∀ text, A.Writes text → (A.model text).length = B.embeddingDim → A.model text = B.model text

end SemanticInference

section

variable {H : Type} [DecidableEq H] (hash : String → H) (A B : SemanticInference)

/-- The model that is called, the first or the second. -/
def calledModel (second : Bool) : SemanticInference := cond second B A

/-- The cache after a call of one of two models. -/
def embedStep (cache : Table (EmbeddingRow.primaryKey (H := H))) (c : Bool × EmbedCall) :
    Table (EmbeddingRow.primaryKey (H := H)) :=
  (c.2.embedTexts hash (calledModel A B c.1) cache).2

/-- Each hit of a call is what the caller's own model computes for the text. -/
def HitsRight (cache : Table (EmbeddingRow.primaryKey (H := H))) (c : Bool × EmbedCall) : Prop :=
  ∀ hit ∈ c.2.texts.zip (c.2.cachedVectors hash (calledModel A B c.1) cache), ∀ v,
    hit.2 = some v → v = (calledModel A B c.1).model hit.1

/-- What an entry of the cache is: a row of a text of the calls, written by one of the models. -/
def EntriesWritten (calls : List (Bool × EmbedCall))
    (cache : Table (EmbeddingRow.primaryKey (H := H))) : Prop :=
  ∀ r ∈ cache.rows, ∃ second, (calledModel A B second).cached = true ∧
    ∃ c ∈ calls, ∃ text ∈ c.2.texts, (calledModel A B second).Writes text ∧
      r = EmbedCall.row hash (calledModel A B second) text

variable {hash A B}

/-- A call leaves such entries. -/
theorem EntriesWritten.step {calls : List (Bool × EmbedCall)}
    {cache : Table (EmbeddingRow.primaryKey (H := H))}
    (hcache : EntriesWritten hash A B calls cache) {c : Bool × EmbedCall} (hc : c ∈ calls)
    (hexecutor : ∀ i, Computes (calledModel A B c.1).model (c.2.executor i)) :
    EntriesWritten hash A B calls (embedStep hash A B cache c) := by
  intro r hr
  rcases EmbedCall.mem_embedTexts hexecutor hr with hold | ⟨hcached, text, htext, hwrites, hrow⟩
  · exact hcache r hold
  · exact ⟨c.1, hcached, c, hc, text, htext, hwrites, hrow⟩

/-- Where the models that share entries agree, a hit on such an entry is right. -/
theorem EntriesWritten.hitsRight {calls : List (Bool × EmbedCall)}
    {cache : Table (EmbeddingRow.primaryKey (H := H))}
    (hcache : EntriesWritten hash A B calls cache)
    (hkeys : ∀ second, (calledModel A B second).cacheModelKey =
      modelKey (calledModel A B second).embeddingModelId (calledModel A B second).maxTokens)
    (hhash : Set.InjOn hash {text | ∃ c ∈ calls, text ∈ c.2.texts})
    (hagree : A.SharesEntries B → A.AgreesWith B ∧ B.AgreesWith A) {c : Bool × EmbedCall}
    (hc : c ∈ calls) : HitsRight hash A B cache c := by
  intro hit hhit v hv
  obtain ⟨hcached, hlength, r, hr, hkey, hbytes⟩ := EmbedCall.exists_of_hit hhit hv
  obtain ⟨writer, hwriter, d, hd, text, htext, hwrites, rfl⟩ := hcache r hr
  obtain ⟨hmodelKey, htextHash⟩ := Prod.mk.inj hkey
  have hsame : text = hit.1 := hhash ⟨d, hd, htext⟩ ⟨c, hc, (List.of_mem_zip hhit).1⟩ htextHash
  have hvector : v = (calledModel A B writer).model text := by
    have hread := (bytesToF32s_f32sToBytes _).symm.trans hbytes
    exact (Option.some.inj hread).symm
  rw [hvector, ← hsame]
  rw [hvector] at hlength
  obtain ⟨hid, htokens⟩ :=
    modelKey_inj ((hkeys writer).symm.trans (hmodelKey.trans (hkeys c.1)))
  obtain ⟨called, c⟩ := c
  -- Either the caller has written the entry itself, or the two models share it.
  cases writer with
  | false =>
    cases called with
    | false => rfl
    | true => exact (hagree ⟨hid, htokens, hwriter, hcached⟩).1 text hwrites hlength
  | true =>
    cases called with
    | false => exact (hagree ⟨hid.symm, htokens.symm, hcached, hwriter⟩).2 text hwrites hlength
    | true => rfl

/-- The calls of two models on one cache are answered with right hits. -/
def AllHitsRight (hash : String → H) (A B : SemanticInference) : Prop :=
  ∀ calls : List (Bool × EmbedCall),
    (∀ c ∈ calls, ∀ i, Computes (calledModel A B c.1).model (c.2.executor i)) →
    Set.InjOn hash {text | ∃ c ∈ calls, text ∈ c.2.texts} →
    EachStep (embedStep hash A B) (HitsRight hash A B) (Table.empty _) calls

/-- One model embeds a text, then the other one finds the vector under the same key. -/
theorem model_eq_of_right (h : AllHitsRight hash A B)
    (hcached : ∀ second, (calledModel A B second).cached = true)
    (hkey : A.cacheModelKey = B.cacheModelKey) (writer : Bool)
    (hbatch : 0 < (calledModel A B writer).embedBatch) {text : String}
    (hwrites : (calledModel A B writer).Writes text)
    (hlength : ((calledModel A B writer).model text).length =
      (calledModel A B !writer).embeddingDim) :
    (calledModel A B writer).model text = (calledModel A B !writer).model text := by
  -- The two loads write under one key.
  have hkeys : (calledModel A B writer).cacheModelKey =
      (calledModel A B !writer).cacheModelKey := by
    cases writer with
    | false => exact hkey
    | true => exact hkey.symm
  -- The first call stores the vector of the text.
  have hstored : (((EmbedCall.single (calledModel A B writer) text).embedTexts hash
      (calledModel A B writer) (Table.empty _)).2).find?
        ((calledModel A B writer).cacheModelKey, hash text) =
      some (EmbedCall.row hash (calledModel A B writer) text) :=
    EmbedCall.find?_embedTexts_single (hcached writer) hbatch hwrites
  have hfound := EmbedCall.cachedVectors_single (hcached !writer) (hkeys ▸ hstored) hlength
  -- The second call finds it, and by hypothesis it is its own.
  refine h
    [(writer, EmbedCall.single (calledModel A B writer) text),
      (!writer, EmbedCall.single (calledModel A B !writer) text)] ?_ ?_
    [(writer, EmbedCall.single (calledModel A B writer) text)]
    (!writer, EmbedCall.single (calledModel A B !writer) text) [] rfl
    (text, some ((calledModel A B writer).model text)) ?_ _ rfl
  · intro c hc i texts vectors h
    rcases List.mem_pair.mp hc with rfl | rfl
    all_goals exact (Except.ok.inj h).symm
  -- Both calls are about the one text.
  · have htext : ∀ c ∈ [(writer, EmbedCall.single (calledModel A B writer) text),
        (!writer, EmbedCall.single (calledModel A B !writer) text)], ∀ z ∈ c.2.texts,
          z = text := by
      intro c hc z hz
      rcases List.mem_pair.mp hc with rfl | rfl
      all_goals exact List.mem_singleton.mp hz
    rintro x ⟨c, hc, hx⟩ y ⟨d, hd, hy⟩ -
    rw [htext c hc x hx, htext d hd y hy]
  · show _ ∈ [text].zip (EmbedCall.cachedVectors hash (calledModel A B !writer)
      (EmbedCall.single (calledModel A B !writer) text) _)
    rw [List.foldl_cons, List.foldl_nil]
    unfold embedStep
    rw [hfound]
    exact List.mem_singleton_self _

end

/-- Whatever calls two loaded models make on one cache, in any order, every hit is what the caller's
own model computes, exactly if they have other identifiers or other numbers of tokens, or one of
them has no cache, or each computes what the other one stores. -/
theorem hits_right_iff {Model H : Type} [DecidableEq H] {fastembed : Fastembed Model}
    {testEmbedding : String → ℕ → Vector32} {hostA hostB : EmbedHost}
    {configA configB : EmbeddingConfig} {A B : SemanticInference}
    (hA : withConfig fastembed testEmbedding hostA configA = .ok A)
    (hB : withConfig fastembed testEmbedding hostB configB = .ok B) (hash : String → H) :
    AllHitsRight hash A B ↔ (A.SharesEntries B → A.AgreesWith B ∧ B.AgreesWith A) := by
  obtain ⟨hkeyA, hbatchA⟩ := withConfig_spec hA
  obtain ⟨hkeyB, hbatchB⟩ := withConfig_spec hB
  have hkeys : ∀ second, (calledModel A B second).cacheModelKey =
      modelKey (calledModel A B second).embeddingModelId (calledModel A B second).maxTokens := by
    intro second
    cases second with
    | false => exact hkeyA
    | true => exact hkeyB
  constructor
  -- The keys are the same if the models and the limits are.
  · intro hright hshares
    have hsamekey : A.cacheModelKey = B.cacheModelKey := by
      rw [hkeyA, hkeyB, hshares.embeddingModelId, hshares.maxTokens]
    have hcached : ∀ second, (calledModel A B second).cached = true := by
      intro second
      cases second with
      | false => exact hshares.cached.1
      | true => exact hshares.cached.2
    exact ⟨fun text hwrites hlength => model_eq_of_right hright hcached hsamekey false hbatchA
        hwrites hlength,
      fun text hwrites hlength => model_eq_of_right hright hcached hsamekey true hbatchB
        hwrites hlength⟩
  · intro hagree calls hexecutor hhash
    -- Every row was written by a call before.
    have hwritten : ∀ before : List (Bool × EmbedCall), (∀ c ∈ before, c ∈ calls) →
        EntriesWritten hash A B calls (before.foldl (embedStep hash A B) (Table.empty _)) := by
      intro before
      induction before using List.reverseRecOn with
      | nil => exact fun _ r hr => absurd hr List.not_mem_nil
      | append_singleton before c ih =>
        intro hbefore
        rw [List.foldl_append]
        exact (ih fun d hd => hbefore d (List.mem_append_left _ hd)).step
          (hbefore c (by simp)) (hexecutor c (hbefore c (by simp)))
    intro before c after hsplit
    have hbefore : ∀ d ∈ before, d ∈ calls := by
      intro d hd
      rw [hsplit]
      exact List.mem_append_left _ hd
    exact (hwritten before hbefore).hitsRight hkeys hhash hagree (by simp [hsplit])

section

/-- A model whose files from elsewhere compute other vectors than those that are downloaded. -/
private def tuned : Fastembed Unit where
  parse _ := .ok ()
  dim _ := some 1
  tryNewFromUserDefined _ _ _ := .ok fun _ => [0x40000000]
  tryNew _ _ := .ok fun _ => [0x3f800000]

/-- A process without bundled files. -/
private def plainHost : EmbedHost where
  debugAssertions := false
  bundled := none
  readDir _ := .ok ⟨[], [], [], [], []⟩
  cached := true

/-- A configuration with a directory of model files, or without. -/
private def bgeConfig (modelDir : Option String) (maxTokens : ℕ) : EmbeddingConfig :=
  ⟨"bge-small-en-v1.5", modelDir, 1, maxTokens, 32, none⟩

/-- The model that such a configuration loads. -/
private def bge (maxTokens : ℕ) (vector : Vector32) : SemanticInference where
  embeddingModelId := "bge-small-en-v1.5"
  cacheModelKey := modelKey "bge-small-en-v1.5" maxTokens
  embeddingDim := 1
  embedBatch := 32
  maxTokens := maxTokens
  executors := 1
  model _ := vector
  cached := true

/-- The theorem for a model that is loaded with two numbers of tokens. -/
theorem hits_right_iff_tokens :
    AllHitsRight id (bge 512 [0x3f800000]) (bge 256 [0x40000000]) :=
  have hdownloaded : withConfig tuned (fun _ _ => []) plainHost (bgeConfig none 512) =
      .ok (bge 512 [0x3f800000]) := rfl
  have hlocal : withConfig tuned (fun _ _ => []) plainHost
      (bgeConfig (some "/models/tuned") 256) = .ok (bge 256 [0x40000000]) := rfl
  (hits_right_iff hdownloaded hlocal id).mpr fun h =>
    absurd (show 512 = 256 from h.maxTokens) (by omega)

/-- With a directory of other files the vectors of the downloaded model are found. -/
theorem hits_tuned :
    withConfig tuned (fun _ _ => []) plainHost (bgeConfig none 512) =
        .ok (bge 512 [0x3f800000]) ∧
      withConfig tuned (fun _ _ => []) plainHost (bgeConfig (some "/models/tuned") 512) =
        .ok (bge 512 [0x40000000]) ∧
      ¬ AllHitsRight id (bge 512 [0x3f800000]) (bge 512 [0x40000000]) := by
  refine ⟨rfl, rfl, fun h => ?_⟩
  have hcached : ∀ second, (calledModel (bge 512 [0x3f800000]) (bge 512 [0x40000000])
      second).cached = true := by decide
  have hwrites : (bge 512 [0x3f800000]).Writes "a" := by
    refine fun _ => ⟨rfl, fun x hx => ?_⟩
    rw [List.mem_singleton.mp hx]
    rfl
  have hsame : ([0x3f800000] : Vector32) = [0x40000000] :=
    model_eq_of_right h hcached rfl false (by decide) hwrites rfl
  exact absurd hsame (by decide)

end

end Tellodb
