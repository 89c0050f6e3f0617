import ContextMemory.Lib.Program
import ContextMemory.Lib.Ordered
import ContextMemory.Lib.Fallible
import ContextMemory.Lib.Ranked
import ContextMemory.Lib.Runs
import ContextMemory.Lib.JsonValue
import ContextMemory.Lib.JsonText
import ContextMemory.Lib.JsonScan
import ContextMemory.Lib.JsonPhases
import ContextMemory.Lib.JsonSpace
import ContextMemory.Core.Time
import ContextMemory.Core.Models
import ContextMemory.Core.Graph
import ContextMemory.Core.Jobs
import ContextMemory.Persistence.Manifest
import ContextMemory.Persistence.Tables
import ContextMemory.Persistence.Renaming
import ContextMemory.Persistence.Database
import ContextMemory.Persistence.Migrations
import ContextMemory.Client.Hydra
import ContextMemory.Client.Http
import ContextMemory.Client.Llm
import ContextMemory.Client.Recover
import ContextMemory.Ingestion.Extraction
import ContextMemory.Ingestion.LlmExtractor
import ContextMemory.Ingestion.Resolution
import ContextMemory.Ingestion.FactLookup
import ContextMemory.Ingestion.PlanBuilder
import ContextMemory.Ingestion.GraphWriter
import ContextMemory.Ingestion.Orchestrator
import ContextMemory.Ingestion.Recovery
import ContextMemory.Ingestion.Pipeline
import ContextMemory.Ingestion.Batch
import ContextMemory.Ingestion.Fixture
import ContextMemory.Retrieval.Hydration
import ContextMemory.Retrieval.Expansion
import ContextMemory.Retrieval.Engine
import ContextMemory.Retrieval.Fusion
import ContextMemory.Retrieval.Indexes
import ContextMemory.Guarantees.Immutability
import ContextMemory.Guarantees.Provenance
import ContextMemory.Guarantees.Supersession
import ContextMemory.Guarantees.Closure
import ContextMemory.Guarantees.Completion
import ContextMemory.Guarantees.RoundTrip
import ContextMemory.Guarantees.Validity
import ContextMemory.Guarantees.Reading
import ContextMemory.Guarantees.Visibility
import ContextMemory.Guarantees.Retrieval
import ContextMemory.Guarantees.Isolation
import ContextMemory.Guarantees.Batching
import ContextMemory.Guarantees.Reextraction
import ContextMemory.Guarantees.Retries
import ContextMemory.Guarantees.Attempts
import ContextMemory.Guarantees.Entities
import ContextMemory.Guarantees.Restarts
import ContextMemory.Guarantees.Tenants
import ContextMemory.Guarantees.Plans
import ContextMemory.Guarantees.Ordering
import ContextMemory.Guarantees.Keys
import ContextMemory.Guarantees.Scheduling
import ContextMemory.Guarantees.Abstention
import ContextMemory.Guarantees.RowOrder
import ContextMemory.Guarantees.Counts
import ContextMemory.Guarantees.Mentions
import ContextMemory.Guarantees.RetryMachine
import ContextMemory.Guarantees.JsonRecovery
import ContextMemory.Guarantees.Truncation
import ContextMemory.Guarantees.Fences
import ContextMemory.Guarantees.Acceptance
import ContextMemory.Guarantees.Candidates
import ContextMemory.Guarantees.Adapter
import ContextMemory.Guarantees.TurnOrder
import ContextMemory.Guarantees.Refusals
import ContextMemory.Guarantees.CachedSearch
import ContextMemory.Guarantees.Siblings
import ContextMemory.Lib.JsonWrite
import ContextMemory.Ingestion.TransportWrite
import ContextMemory.Guarantees.Idempotency
import ContextMemory.Lib.Visit
import ContextMemory.Client.PromptSchema
import ContextMemory.Guarantees.PromptSchema
import ContextMemory.Lib.Machine
import ContextMemory.Lib.Decimal
import ContextMemory.Lib.Lines
import ContextMemory.Hydra.LeaseRecord
import ContextMemory.Hydra.Lease
import ContextMemory.Guarantees.Lease
import ContextMemory.Guarantees.LeaseAuthority
import ContextMemory.Guarantees.Cache
import ContextMemory.Guarantees.Cell
import ContextMemory.Guarantees.Csc
import ContextMemory.Guarantees.GraphIndex
import ContextMemory.Guarantees.IndexWorld
import ContextMemory.Guarantees.XlogText
import ContextMemory.Guarantees.IndexManifest
