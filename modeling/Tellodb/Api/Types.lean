import Tellodb.Core.MemoryId
import Mathlib.Data.Rat.Defs

/-!
# Requests

The payloads of an ingest and of a query, as in `api/types.rs`. -/

namespace Tellodb

/-- A memory to be ingested. -/
structure IngestPayload where
  entityId : String
  memoryId : String
  /-- The event time. -/
  timestamp : UInt64
  sessionId : Option String
  turnIndex : Option UInt32
  role : Option String
  textualContent : String
  relations : List (String × String × String)
  kind : Option String
  factKey : Option String
  sourceMemoryId : Option String
  indexSemantic : Option Bool
  enableSemanticDedup : Option Bool
  enableConsolidation : Option Bool
  enableMining : Option Bool
  contentType : Option String
  factOperation : Option String
  factConfidence : Option ℚ
  factSubject : Option String
  factPredicate : Option String
  factObject : Option String
  visualDescription : Option String
  visualQuery : Option String
  deriving DecidableEq

/-- `IngestPayload::default` -/
def IngestPayload.default : IngestPayload where
  entityId := ""
  memoryId := ""
  timestamp := 0
  sessionId := none
  turnIndex := none
  role := none
  textualContent := ""
  relations := []
  kind := none
  factKey := none
  sourceMemoryId := none
  indexSemantic := none
  enableSemanticDedup := none
  enableConsolidation := none
  enableMining := none
  contentType := none
  factOperation := none
  factConfidence := none
  factSubject := none
  factPredicate := none
  factObject := none
  visualDescription := none
  visualQuery := none

/-- A query. -/
structure QueryPayload where
  textualQuery : String
  limit : ℕ
  entityId : Option String
  enableNeuralRerank : Option Bool
  includeEvidence : Option Bool
  verifyEvidence : Option Bool
  proofMode : Option String
  maxEvidenceTurnsPerSession : Option ℕ
  pointInTimeMs : Option UInt64
  knownAsOfMs : Option UInt64
  referenceTimeMs : Option UInt64

end Tellodb
