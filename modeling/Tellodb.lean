import Tellodb.Core.Text
import Tellodb.Relational.Table
import Tellodb.Relational.OrderBy
import Tellodb.Relational.Timeline
import Tellodb.Storage.Facts
import Tellodb.Facts.Step
import Tellodb.Facts.Batch
import Tellodb.Facts.Chain
import Tellodb.Facts.History
import Tellodb.Facts.AsOf
import Tellodb.Facts.Arrival
import Tellodb.Facts.Conflict
import Tellodb.Core.MemoryId
import Tellodb.Storage.Tenant
import Tellodb.Storage.Ingest
import Tellodb.Storage.Memories
import Tellodb.Facts.Delete
import Tellodb.Facts.LeftOut
import Tellodb.Facts.Commit
import Tellodb.Graph.Edges
import Tellodb.Cards.Latest
import Tellodb.Deletion.Exact
import Tellodb.Core.Identity
import Tellodb.Routers.Text
import Tellodb.Commit.Atomic
import Tellodb.Commit.Visible
import Tellodb.Facts.Keys
import Tellodb.Relational.Schema
import Tellodb.Storage.Schema
import Tellodb.Schema.Rehash
import Tellodb.Schema.Upgrade
import Tellodb.Schema.Opening
import Tellodb.Index.Docs
import Tellodb.Index.Migrated
import Tellodb.Index.Interleaved
import Tellodb.Deletion.Forgotten
import Tellodb.Cache.Lru
import Tellodb.Semantic.Rerank
import Tellodb.Api.Types
import Tellodb.Engine.Remember
import Tellodb.Semantic.Cached
import Tellodb.Cache.Patched
import Tellodb.Vectors.Index
import Tellodb.Vectors.Stored
import Tellodb.Vectors.Interleaved
import Tellodb.Vectors.InTurn
import Tellodb.Vectors.Handles
import Tellodb.Collections.SortedMap
import Tellodb.Embedding.Window
import Tellodb.Embedding.Batches
import Tellodb.Api.Auth
import Tellodb.Api.Handlers
import Tellodb.Relational.Unwinding
import Tellodb.Api.Isolation
import Tellodb.Lifecycle.Retention
import Tellodb.Lifecycle.Purge
import Tellodb.Facts.Origin
import Tellodb.Query.Response
import Tellodb.Query.Scope
import Tellodb.Facts.Predicates
import Tellodb.Api.RateLimit
import Tellodb.Calendar.Civil
import Tellodb.Calendar.Dates
import Tellodb.Calendar.Window
import Tellodb.Calendar.Agreement
import Tellodb.Facts.Reported
import Tellodb.Graph.Neighbours
import Tellodb.Routers.Rebuilt
import Tellodb.Machine.Bytes
import Tellodb.Semantic.Embedded
import Tellodb.Collections.Rows
import Tellodb.Vectors.Arrays
import Tellodb.Vectors.Search
import Tellodb.Embedding.Observations
import Tellodb.Embedding.Duplicates
import Tellodb.Collections.Words
import Tellodb.Expansion.Chunks
import Tellodb.Expansion.Faithful
import Tellodb.Expansion.Payloads
import Tellodb.Expansion.Distinct
import Tellodb.Collections.Grouped
import Tellodb.Ledger.Turns
import Tellodb.Entities.Resolver
import Tellodb.Search.Expression
import Tellodb.Search.Literals
import Tellodb.Search.Scoped
import Tellodb.Collections.Gathered
import Tellodb.Query.Widened
import Tellodb.Collections.Levels
import Tellodb.Collections.Tally
import Tellodb.Graph.Clusters
import Tellodb.Semantic.InOrder
import Tellodb.Query.Fused
import Tellodb.Metrics.Buckets
import Tellodb.Metrics.Extracted
import Tellodb.Collections.Lasts
import Tellodb.Routers.Batched
import Tellodb.Profiles.Recent
import Tellodb.Machine.Numbers
import Tellodb.Query.Coverage
import Tellodb.Query.Buckets
import Tellodb.Query.Selection
import Tellodb.Cards.Search
import Tellodb.Query.Hits
import Tellodb.Collections.Greedy
import Tellodb.Gliner.Spans
import Tellodb.Gliner.Encoding
import Tellodb.Engine.Turns
import Tellodb.Core.Objects
import Tellodb.Lifecycle.Expiry
import Tellodb.Profiles.Stable
import Tellodb.Facts.Restated
import Tellodb.Facts.Sent
import Tellodb.Collections.Weighed
import Tellodb.Graph.Links
import Tellodb.Platform.Keys
import Tellodb.Platform.Sessions
import Tellodb.Platform.Writer
import Tellodb.Semantic.Permits
import Tellodb.Collections.Entries
import Tellodb.Lifecycle.Stored
import Tellodb.Query.Fusion
import Tellodb.Query.Ranking
import Tellodb.Collections.Covering
import Tellodb.Machine.Errors
import Tellodb.Query.Covered
import Tellodb.Vectors.Estimate
import Tellodb.Api.Gate
