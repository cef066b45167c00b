import Mathlib.Data.List.ReduceOption
import Mathlib.Order.Lattice
import MemoryPlane.Contracts.Recall
import MemoryPlane.Python.JsonOperations

/-!
# Recall replay

A persisted recall is explained from the metadata of its audit record and from canonical
identifiers. The metadata are whatever the JSON decoder returned, so every field is read through a
coercion of its own.
-/

namespace MemoryPlane

/-- A selected canonical memory reference without its text payload. -/
structure ReplayMemoryReference where
  itemId : UUID
  layer : String
  status : String
  revision : ℕ
  deriving DecidableEq

/-- An audit record as it is read back; its metadata are what the JSON decoder made of them. -/
structure StoredAuditEvent extends AuditEvent where
  decoded : JsonMembers

/-- Redacted rendering of one durable recall audit event. -/
structure RecallReplay where
  auditEvent : StoredAuditEvent
  operation : String
  querySha256 : String
  queryChars : ℕ
  candidateCount : ℕ
  sourcesUsed : List String
  indexStale : Bool
  indexFreshness : Option IndexFreshness
  contextBudgetTokens : ℕ
  contextUsedTokens : ℕ
  traceIds : List UUID
  traversal : List RetrievalTraceStep
  references : List ReplayMemoryReference

/-- The parts of the language runtime that the reader uses. -/
structure ReplayRuntime where
  unicode : Unicode
  /-- `str(value)` of a value that is no text. -/
  str : JsonValue → String

/-- The audit log and the ledger that the service reads. -/
structure RecallReplayService where
  getEvent : UUID → UUID → Option StoredAuditEvent
  getItem : UUID → UUID → Option MemoryItem

namespace Replay

variable (rt : ReplayRuntime)

/-- `str(value)`. -/
def toText : JsonValue → String
  | .str s => s
  | v => rt.str v

/-- `max(0, min(n, 1_000_000))`. -/
def clampCount (n : ℤ) : ℕ := (max 0 (min n 1000000)).toNat

/-- Decode non-negative metrics without trusting audit JSON types. -/
def boundedInt (value : JsonValue) : Except Exn ℕ :=
  match value.toInt rt.unicode with
  | .ok n => .ok (clampCount n)
  | .error (.typeError _) | .error (.valueError _) => .ok 0
  | .error e => .error e

/-- Keep replay strings intentionally small and presentation-safe. -/
def boundedText (default : String) : JsonValue → String
  | .str s => Text.take 256 s
  | _ => default

/-- Parse bounded UUID metadata defensively without accepting arbitrary payloads. -/
def uuidTuple : JsonValue → List UUID
  | .arr rows => (rows.take 1000).filterMap fun row => UUID.parse rt.unicode (toText rt row)
  | _ => []

/-- Return a bounded set of small source names from audit metadata. -/
def textTuple : JsonValue → List String
  | .arr rows => (rows.take 32).map (boundedText "unknown")
  | _ => []

/-- Decode bounded numeric delivery state from a recall audit event. -/
def indexFreshness : JsonValue → Except Exn (Option IndexFreshness)
  | .obj members => do
    let activeMemoryCount ← boundedInt rt (JsonValue.get members "active_memory_count")
    let staleMemoryCount ← boundedInt rt (JsonValue.get members "stale_memory_count")
    let unpublishedMemoryCount ← boundedInt rt (JsonValue.get members "unpublished_memory_count")
    let processingMemoryCount ← boundedInt rt (JsonValue.get members "processing_memory_count")
    let deadLetterMemoryCount ← boundedInt rt (JsonValue.get members "dead_letter_memory_count")
    let missingDeliveryMemoryCount ←
      boundedInt rt (JsonValue.get members "missing_delivery_memory_count")
    return some
      { activeMemoryCount, staleMemoryCount, unpublishedMemoryCount, processingMemoryCount,
        deadLetterMemoryCount, missingDeliveryMemoryCount }
  | _ => .ok none

/-- `value in names` for a set of texts: a container cannot be looked up. -/
def inTexts (value : JsonValue) (names : List String) : Except Exn Bool :=
  match value with
  | .str s => .ok (decide (s ∈ names))
  | value => if value.isContainer then .error (.typeError "unhashable type") else .ok false

/-- The error class of a row, if it has one. -/
def readErrorType : JsonValue → Option String
  | .str s => if s = "" then none else some (Text.take 128 s)
  | _ => none

/-- A row whose stage and status are known and whose name fits. -/
def makeStep (sequence : ℕ) (row : JsonMembers) (stage status name : String) :
    Except Exn (Option RetrievalTraceStep) := do
  let candidateCount ← boundedInt rt (JsonValue.get row "candidate_count")
  let acceptedCount ← boundedInt rt (JsonValue.get row "accepted_count")
  let selectedCount ← boundedInt rt (JsonValue.get row "selected_count")
  let errorType := readErrorType (JsonValue.get row "error_type")
  match RetrievalTraceStep.new
    { sequence, stage, name, status, candidateCount, acceptedCount, selectedCount, errorType }
  with
  | .ok step => .ok (some step)
  | .error (.valueError _) => .ok none
  | .error e => .error e

/-- The step of a row, if it is well formed. -/
def readStep (sequence : ℕ) : JsonValue → Except Exn (Option RetrievalTraceStep)
  | .obj row => do
    let stage := JsonValue.get row "stage"
    let status := JsonValue.get row "status"
    if ← inTexts stage RetrievalTraceStep.stages then
      if ← inTexts status RetrievalTraceStep.statuses then
        match JsonValue.get row "name" with
        | .str name =>
          if name = "" ∨ 64 < name.length then .ok none
          else makeStep rt sequence row (toText rt stage) (toText rt status) name
        | _ => .ok none
      else .ok none
    else .ok none
  | _ => .ok none

/-- Decode only the fixed, text-free retrieval telemetry contract. -/
def retrievalTraversal : JsonValue → Except Exn (List RetrievalTraceStep)
  | .arr rows => do
    let steps ← ((rows.take 64).zipIdx 1).mapM fun row => readStep rt row.2 row.1
    return steps.reduceOption
  | _ => .ok []

/-- The members of the dictionary of a step. -/
def asdictMembers (step : RetrievalTraceStep) : JsonMembers :=
  [("sequence", .int step.sequence), ("stage", .str step.stage), ("name", .str step.name),
    ("status", .str step.status), ("candidate_count", .int step.candidateCount),
    ("accepted_count", .int step.acceptedCount), ("selected_count", .int step.selectedCount),
    ("error_type", step.errorType.elim .null .str)]

/-- `asdict(step)`. -/
def asdict (step : RetrievalTraceStep) : JsonValue := .obj (asdictMembers step)

end Replay

namespace RecallReplayService

open Replay

variable (s : RecallReplayService) (rt : ReplayRuntime)

/-- The traced memories that are still found in the workspace. -/
def references (tenantId workspaceId : UUID) (traceIds : List UUID) : List ReplayMemoryReference :=
  (traceIds.filterMap fun itemId => s.getItem tenantId itemId).filterMap fun item =>
    if item.workspaceId ≠ workspaceId then none
    else some ⟨item.id, item.layer.value, item.status.value, item.revision⟩

/-- Return a replay only when its event belongs to the requested scope. -/
def get (tenantId workspaceId auditEventId : UUID) : Except Exn RecallReplay :=
  match s.getEvent tenantId auditEventId with
  | none => .error (.keyError "recall replay not found")
  | some event =>
    if event.workspaceId ≠ some workspaceId then .error (.keyError "recall replay not found")
    else if event.action ≠ "memory.recall" ∨ event.resourceType ≠ "memory_recall" then
      .error (.valueError "audit event is not a recall replay")
    else do
      let metadata := event.decoded
      let traceIds := uuidTuple rt (JsonValue.get metadata "trace_ids")
      let references := s.references tenantId workspaceId traceIds
      let operation := boundedText "unknown" (JsonValue.get metadata "operation")
      let querySha256 := boundedText "" (JsonValue.get metadata "query_sha256")
      let queryChars ← boundedInt rt (JsonValue.get metadata "query_chars")
      let candidateCount ← boundedInt rt (JsonValue.get metadata "candidate_count")
      let sourcesUsed := textTuple (JsonValue.get metadata "sources_used")
      let indexStale := (JsonValue.get metadata "index_stale").truthy
      let indexFreshness ← indexFreshness rt (JsonValue.get metadata "index_freshness")
      let contextBudgetTokens ← boundedInt rt (JsonValue.get metadata "context_budget_tokens")
      let contextUsedTokens ← boundedInt rt (JsonValue.get metadata "context_used_tokens")
      let traversal ← retrievalTraversal rt (JsonValue.get metadata "retrieval_traversal")
      return {
        auditEvent := event, operation, querySha256, queryChars, candidateCount, sourcesUsed
        indexStale, indexFreshness, contextBudgetTokens, contextUsedTokens, traceIds, traversal
        references }

end RecallReplayService

end MemoryPlane
