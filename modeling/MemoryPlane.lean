import MemoryPlane.Adapters.ApiKeys
import MemoryPlane.Adapters.Checkpoints
import MemoryPlane.Adapters.Conversations
import MemoryPlane.Adapters.Delivery
import MemoryPlane.Adapters.Identities
import MemoryPlane.Adapters.InMemory
import MemoryPlane.Adapters.Listings
import MemoryPlane.Adapters.Nats
import MemoryPlane.Adapters.Postgres
import MemoryPlane.Adapters.PostgresAudit
import MemoryPlane.Adapters.PostgresConflicts
import MemoryPlane.Adapters.PostgresEncryption
import MemoryPlane.Adapters.PostgresJson
import MemoryPlane.Adapters.PostgresWrites
import MemoryPlane.Adapters.ProtectedIndex
import MemoryPlane.Adapters.Qdrant
import MemoryPlane.Adapters.QdrantPayload
import MemoryPlane.Adapters.QdrantSearch
import MemoryPlane.Adapters.ReviewLaws
import MemoryPlane.Adapters.Tables
import MemoryPlane.Adapters.Versions
import MemoryPlane.Adapters.Writes
import MemoryPlane.Api.Listings
import MemoryPlane.Api.UiSessions
import MemoryPlane.Config.Libpq
import MemoryPlane.Config.PostgresProcess
import MemoryPlane.Contracts.Commands
import MemoryPlane.Contracts.Recall
import MemoryPlane.Domain.Conversation
import MemoryPlane.Domain.Graph
import MemoryPlane.Domain.Identity
import MemoryPlane.Domain.Models
import MemoryPlane.Domain.Records
import MemoryPlane.Domain.Visibility
import MemoryPlane.Integrations.AgentPlugin
import MemoryPlane.Integrations.MemoryEnvelope
import MemoryPlane.Lib.Attempts
import MemoryPlane.Lib.Escapes
import MemoryPlane.Lib.InBand
import MemoryPlane.Lib.Keyset
import MemoryPlane.Lib.Leases
import MemoryPlane.Lib.Packing
import MemoryPlane.Lib.Paging
import MemoryPlane.Lib.PatternCuts
import MemoryPlane.Lib.Patterns
import MemoryPlane.Lib.Proc
import MemoryPlane.Lib.Replacement
import MemoryPlane.Lib.Returns
import MemoryPlane.Lib.Sequences
import MemoryPlane.Lib.Spans
import MemoryPlane.Lib.Sweeps
import MemoryPlane.Lib.Table
import MemoryPlane.Lib.VersionForest
import MemoryPlane.Lib.VersionIndex
import MemoryPlane.Python.Base64
import MemoryPlane.Python.Base64Url
import MemoryPlane.Python.Float
import MemoryPlane.Python.Json
import MemoryPlane.Python.JsonBounds
import MemoryPlane.Python.JsonOperations
import MemoryPlane.Python.JsonOrder
import MemoryPlane.Python.JsonText
import MemoryPlane.Python.JsonTokens
import MemoryPlane.Python.JsonValue
import MemoryPlane.Python.Lines
import MemoryPlane.Python.Numbers
import MemoryPlane.Python.Pieces
import MemoryPlane.Python.Text
import MemoryPlane.Python.UUID
import MemoryPlane.Python.Urls
import MemoryPlane.Python.Utf8
import MemoryPlane.Python.ZonedTime
import MemoryPlane.Runs.Acceptance
import MemoryPlane.Runs.Acknowledgement
import MemoryPlane.Runs.AgentEvents
import MemoryPlane.Runs.ApiKeys
import MemoryPlane.Runs.AuditBundle
import MemoryPlane.Runs.AuditExport
import MemoryPlane.Runs.AuditRetention
import MemoryPlane.Runs.Backfill
import MemoryPlane.Runs.BackupEncryption
import MemoryPlane.Runs.Chains
import MemoryPlane.Runs.Checkpoints
import MemoryPlane.Runs.ConflictReviews
import MemoryPlane.Runs.Consumption
import MemoryPlane.Runs.Conversations
import MemoryPlane.Runs.Curation
import MemoryPlane.Runs.Decisions
import MemoryPlane.Runs.Envelopes
import MemoryPlane.Runs.Expiry
import MemoryPlane.Runs.Immutability
import MemoryPlane.Runs.IndexRefinement
import MemoryPlane.Runs.Indexing
import MemoryPlane.Runs.Ingestion
import MemoryPlane.Runs.Keys
import MemoryPlane.Runs.Listings
import MemoryPlane.Runs.Observations
import MemoryPlane.Runs.Operations
import MemoryPlane.Runs.Outbox
import MemoryPlane.Runs.PasswordHandover
import MemoryPlane.Runs.Reflection
import MemoryPlane.Runs.ReflectionRepeats
import MemoryPlane.Runs.Reindexing
import MemoryPlane.Runs.Relay
import MemoryPlane.Runs.ReleaseEvidence
import MemoryPlane.Runs.ReleaseUrls
import MemoryPlane.Runs.Replacements
import MemoryPlane.Runs.Replay
import MemoryPlane.Runs.Resolutions
import MemoryPlane.Runs.Retrieval
import MemoryPlane.Runs.Reviews
import MemoryPlane.Runs.TurnAudit
import MemoryPlane.Runs.UiSessions
import MemoryPlane.Runs.VaultHealth
import MemoryPlane.Runs.VaultImports
import MemoryPlane.Runs.VaultManifests
import MemoryPlane.Runs.VaultPatches
import MemoryPlane.Runs.VaultPlans
import MemoryPlane.Runs.VaultRoundTrip
import MemoryPlane.Runs.VaultScope
import MemoryPlane.Runs.VectorSearch
import MemoryPlane.Runs.Visibility
import MemoryPlane.Runs.Writes
import MemoryPlane.Scripts.AuditBundle
import MemoryPlane.Scripts.AuditExport
import MemoryPlane.Scripts.AuditRetention
import MemoryPlane.Scripts.BackfillProtectedSearchTokens
import MemoryPlane.Scripts.BackupEncryption
import MemoryPlane.Scripts.ReleaseEvidence
import MemoryPlane.Scripts.ReleaseManifest
import MemoryPlane.Scripts.ReleaseReports
import MemoryPlane.Scripts.VaultManifest
import MemoryPlane.Services.ApiKeys
import MemoryPlane.Services.BeliefSlots
import MemoryPlane.Services.CardNumbers
import MemoryPlane.Services.CardRedaction
import MemoryPlane.Services.Checkpoints
import MemoryPlane.Services.Chunking
import MemoryPlane.Services.ConflictEvidence
import MemoryPlane.Services.ConflictStores
import MemoryPlane.Services.ConflictWrites
import MemoryPlane.Services.Conflicts
import MemoryPlane.Services.Context
import MemoryPlane.Services.ContextBudget
import MemoryPlane.Services.ContextPacking
import MemoryPlane.Services.Conversations
import MemoryPlane.Services.Curation
import MemoryPlane.Services.CurationRounds
import MemoryPlane.Services.Delivery
import MemoryPlane.Services.Embedding
import MemoryPlane.Services.Ingestion
import MemoryPlane.Services.MemoryStores
import MemoryPlane.Services.Observations
import MemoryPlane.Services.Privacy
import MemoryPlane.Services.PrivacyDetectors
import MemoryPlane.Services.Proposals
import MemoryPlane.Services.ProtectedSearch
import MemoryPlane.Services.Redaction
import MemoryPlane.Services.RedactionRepeats
import MemoryPlane.Services.Reflection
import MemoryPlane.Services.Replay
import MemoryPlane.Services.Retention
import MemoryPlane.Services.Retrieval
import MemoryPlane.Services.Reviews
import MemoryPlane.Services.Submission
import MemoryPlane.Services.VaultArchive
import MemoryPlane.Services.VaultExport
import MemoryPlane.Services.VaultFrontmatter
import MemoryPlane.Services.VaultHealth
import MemoryPlane.Services.VaultImport
import MemoryPlane.Services.VaultMappings
import MemoryPlane.Services.VaultNotes
import MemoryPlane.Services.VaultPatch
import MemoryPlane.Services.VaultReading
import MemoryPlane.Services.VaultSanitizer
import MemoryPlane.Services.VaultSections
import MemoryPlane.Services.VaultVectors
import MemoryPlane.Workers.NatsConsumer
