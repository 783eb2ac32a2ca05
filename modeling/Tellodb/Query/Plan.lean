/-!
# The plan of a query

What a query is taken to ask for, as in `api/plan/types.rs`, as far as its answer is ranked by
it. -/

namespace Tellodb

/-- `QueryIntent` -/
inductive QueryIntent where
  | numericAggregation
  | temporalAggregation
  | recommendation
  | inference
  | peripheralMention
  | general
  deriving DecidableEq

/-- `QueryRequirement` -/
structure QueryRequirement where
  lexicalTerms : List String
  temporalTerms : List String
  entities : List String
  requireAllEntities : Bool

/-- `CoverageFacet` -/
structure CoverageFacet where
  lexicalTerms : List String
  temporalTerms : List String
  entities : List String

/-- `QueryPlan` -/
structure QueryPlan where
  coverageFacets : List CoverageFacet
  requirements : List QueryRequirement
  preferDistilled : Bool
  preferEpisodic : Bool
  temporalTerms : List String
  lexicalTerms : List String
  intent : QueryIntent
  subjectEntities : List String
  crossEntity : Bool
  needsDecomposition : Bool
  coverageMode : Bool
  ordinalRank : Option Nat

/-- `QueryPlan::default` -/
def QueryPlan.default : QueryPlan where
  coverageFacets := []
  requirements := []
  preferDistilled := false
  preferEpisodic := false
  temporalTerms := []
  lexicalTerms := []
  intent := .general
  subjectEntities := []
  crossEntity := false
  needsDecomposition := false
  coverageMode := false
  ordinalRank := none

end Tellodb
