import Tellodb.Cache.Lru
import Tellodb.Storage.Tenant
import Tellodb.Relational.OrderBy

/-!
# Reranking

`predict_scores_batch` of `semantic.rs`: the scores of a list of texts for a question, from a cache
or from the cross-encoder. The texts are split over the executors and the scores stitched together
again. The cross-encoder is a third-party model, so each executor is a function of its own, which
may fail and returns its results in an order of its own. -/

namespace Tellodb

open Relational Cache

/-! ## The code -/

/-- `TextRerank::rerank`: the results for a question and documents, each with the index of its
document. -/
abbrev TextRerank (F : Type) := String → List String → Except String (List (ℕ × F))

section

variable {F : Type} [Zero F]

/-- `slice::chunks` -/
def chunks {α : Type} (size : ℕ) (l : List α) : List (List α) :=
  (List.range ((l.length + size - 1) / size)).map fun i => (l.drop (i * size)).take size

/-- `split_for_rerank` -/
def splitForRerank (texts : List String) (n : ℕ) : List (ℕ × List String) :=
  if n ≤ 1 ∨ texts.length ≤ 8 then [(0, texts)]
  else
    let n := min n texts.length
    let chunkSize := (texts.length + n - 1) / n
    (chunks chunkSize texts).zipIdx.map fun (chunk, i) => (i * chunkSize, chunk)

/-- What `rerank_cache_key` feeds to its hasher: the question and the sorted texts, each with the
byte that ends a string. -/
def rerankHashInput (q : String) (texts : List String) : List UInt8 :=
  (q :: orderBy id texts).flatMap fun text => utf8Bytes text ++ [0xff]

/-- `rerank_cache_key` -/
def rerankCacheKey (hash : List UInt8 → UInt64) (q : String) (texts : List String) : UInt64 :=
  hash (rerankHashInput q texts)

/-- Scores written from a place on. -/
def writeScores (scores : List F) (offset : ℕ) (chunkScores : List F) : List F :=
  chunkScores.zipIdx.foldl (fun scores s => scores.set (offset + s.2) s.1) scores

/-- `rerank_on_executor` -/
def rerankOnExecutor (rerankers : List (TextRerank F)) (executor : ℕ) (q : String)
    (texts : List String) : Except String (List F) := do
  let results ← (rerankers[executor % rerankers.length]?.getD fun _ _ => .ok []) q texts
  return results.foldl (fun scores result =>
    if result.1 < scores.length then scores.set result.1 result.2 else scores)
      (List.replicate texts.length 0)

/-- The scores of a list of texts, each chunk from its executor. -/
def rerankChunks (rerankers : List (TextRerank F)) (q : String) (texts : List String) :
    Except String (List F) := do
  let results ← (splitForRerank texts rerankers.length).zipIdx.mapM fun ((offset, chunk), i) => do
    return (offset, ← rerankOnExecutor rerankers i q chunk)
  return results.foldl (fun scores result => writeScores scores result.1 result.2)
    (List.replicate texts.length 0)

/-- `predict_scores_batch`, with the cache after it. -/
def predictScoresBatch (hash : List UInt8 → UInt64) (rerankers : List (TextRerank F))
    (rerankCache : LruCache UInt64 (List F)) (q : String) (texts : List String) :
    Except String (List F) × LruCache UInt64 (List F) :=
  if texts.isEmpty then (.ok [], rerankCache)
  else if rerankers.isEmpty then (.error "reranker is disabled (TELLODB_RERANK=off)", rerankCache)
  else
    let cacheKey := rerankCacheKey hash q texts
    match rerankCache.peek cacheKey with
    | some cached => (.ok cached, rerankCache.touch cacheKey)
    | none =>
      match rerankChunks rerankers q texts with
      | .ok scores => (.ok scores, rerankCache.put cacheKey scores)
      | .error e => (.error e, rerankCache)

end

end Tellodb
