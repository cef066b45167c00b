import Mathlib.Algebra.Order.Ring.Rat
import Mathlib.Data.Bool.Basic
import Mathlib.Data.Prod.Lex
import Mathlib.Data.String.Basic
import Mathlib.Order.Lattice
import MemoryPlane.Contracts.Recall
import MemoryPlane.Lib.Sequences
import MemoryPlane.Python.Float

/-!
# Retrieval

Candidates fan in from independent sources, are filtered, merged by identifier, scored and ranked.
Each source leaves a step in a bounded trace, and the fusion leaves the last one.
-/

namespace MemoryPlane

/-- The parts of the language runtime that retrieval uses. -/
structure RetrievalRuntime where
  floats : FloatOps
  /-- `type(error).__name__`. -/
  typeName : Exn → String
  /-- The clock, read once for a recall. -/
  now : DateTime

/-- Combine independent candidate sources. -/
structure RetrievalService where
  sources : List CandidateSource
  weights : List (String × ℚ)
  requiredSources : List String
  stalenessCheck : Option (RecallQuery → Except Exn (Bool ⊕ IndexFreshness))

namespace RetrievalService

variable (rt : RetrievalRuntime)

def defaultWeights : List (String × ℚ) :=
  [("semantic", rt.floats.round (35 / 100)), ("lexical", rt.floats.round (20 / 100)),
    ("entity", rt.floats.round (15 / 100)), ("recency", rt.floats.round (10 / 100)),
    ("importance", rt.floats.round (10 / 100)), ("trust", rt.floats.round (10 / 100))]

/-- The constructor; an empty dictionary and an empty set count as not given. -/
def new (sources : List CandidateSource) (weights : List (String × ℚ))
    (requiredSources : List String)
    (stalenessCheck : Option (RecallQuery → Except Exn (Bool ⊕ IndexFreshness))) :
    Except Exn RetrievalService :=
  match sources with
  | [] => .error (.valueError "at least one candidate source is required")
  | first :: _ =>
    let weights := if weights = [] then defaultWeights rt else weights
    let requiredSources := if requiredSources = [] then [first.name] else requiredSources
    let total := rt.floats.sum (weights.map Prod.snd)
    if rt.floats.round (1 / 1000000000) < |rt.floats.round (total - 1)| then
      .error (.valueError "retrieval weights must sum to 1.0")
    else .ok ⟨sources, weights, requiredSources, stalenessCheck⟩

/-- `value.strip()[:n] or fallback`. -/
def boundedName (n : ℕ) (fallback value : String) : String :=
  let normalized := Text.take n (Text.strip value)
  if normalized = "" then fallback else normalized

/-- Bound adapter-controlled names before they enter durable audit metadata. -/
def traceName (value : String) : String := boundedName 64 "unknown-source" value

/-- Record only a bounded class name, never an exception message. -/
def traceErrorType (error : Exn) : String := boundedName 128 "DependencyError" (rt.typeName error)

/-- The conditions under which a candidate is kept. -/
def accepts (query : RecallQuery) (item : MemoryItem) : Bool :=
  item.tenantId = query.tenantId ∧ item.workspaceId = query.workspaceId ∧
    (query.validAt.all fun moment => item.isValidAt moment) ∧ item.status.isTombstone = false ∧
    (item.scope = .private → item.agentId = query.agentId) ∧
    (item.scope = .thread → item.threadId = query.threadId)

/-- Demote uncertain states while boosting pinned core memory. -/
def statusMultiplier : MemoryStatus → ℚ
  | .pinned => rt.floats.round (115 / 100)
  | .disputed | .hypothesis => rt.floats.round (55 / 100)
  | .stale | .deprecated => rt.floats.round (35 / 100)
  | _ => 1

/-- Map age to a smooth score with a 30-day half-life. -/
def recency (createdAt : DateTime) : ℚ :=
  let micros : ℤ := Int.sub rt.now createdAt
  let seconds := rt.floats.round (micros / 1000000)
  let ageDays := max 0 (rt.floats.round (seconds / 86400))
  rt.floats.pow (1 / 2) (rt.floats.round (ageDays / 30))

variable (s : RetrievalService)

/-- `self._weights[name]`. -/
def weight (name : String) : Except Exn ℚ :=
  match s.weights.lookup name with
  | some w => .ok w
  | none => .error (.keyError name)

/-- The largest value of a signal. -/
def strongest (signal : Candidate → ℚ) (first : Candidate) (rows : List Candidate) : ℚ :=
  rows.foldl (fun best row => max best (signal row)) (signal first)

/-- The names of the sources, each once, in their order. -/
def sourceNames (rows : List Candidate) : String :=
  "+".intercalate (sortedBy (fun name => name) (rows.map fun row => row.source).dedup)

/-- Fuse signals for one item by retaining each source's strongest evidence. -/
def fuse (first : Candidate) (rows : List Candidate) : Except Exn Candidate := do
  let item := first.item
  let semantic := strongest (fun row => row.semantic) first rows
  let lexical := strongest (fun row => row.lexical) first rows
  let entity := strongest (fun row => row.entity) first rows
  let recency :=
    strongest (fun row => max row.recency (RetrievalService.recency rt item.createdAt)) first rows
  let trust := strongest (fun row => max row.trust item.confidence) first rows
  let weighted := fun (name : String) (signal : ℚ) =>
    (s.weight name).map fun w => rt.floats.round (w * signal)
  let bySemantic ← weighted "semantic" semantic
  let byLexical ← weighted "lexical" lexical
  let byEntity ← weighted "entity" entity
  let byRecency ← weighted "recency" recency
  let byImportance ← weighted "importance" item.importance
  let byTrust ← weighted "trust" trust
  let score := [byLexical, byEntity, byRecency, byImportance, byTrust].foldl
    (fun sum term => rt.floats.round (sum + term)) bySemantic
  let finalScore := min 1 (rt.floats.round (score * statusMultiplier rt item.status))
  return { first with
    source := sourceNames rows, semantic, lexical, entity, recency, trust, finalScore }

/-- The variables of the loop over the sources. -/
structure Recalling where
  grouped : List (UUID × List Candidate)
  used : List String
  traversal : List RetrievalTraceStep

/-- Append a step to the trace of the sources, unless it is full. -/
def addStep (traversal : List RetrievalTraceStep) (step : RetrievalTraceStep) :
    Except Exn (List RetrievalTraceStep) :=
  if traversal.length < 63 then
    (RetrievalTraceStep.new { step with sequence := traversal.length + 1 }).map fun step =>
      traversal ++ [step]
  else .ok traversal

/-- The step of a source that failed. -/
def degradedStep (source : CandidateSource) (error : Exn) : RetrievalTraceStep where
  sequence := 1
  stage := "source"
  name := traceName source.name
  status := "degraded"
  errorType := some (traceErrorType rt error)

/-- The step of a source that was searched. -/
def succeededStep (source : CandidateSource) (candidates accepted : ℕ) : RetrievalTraceStep where
  sequence := 1
  stage := "source"
  name := traceName source.name
  status := "succeeded"
  candidateCount := candidates
  acceptedCount := accepted

/-- One round of the loop over the sources. -/
def visit (query : RecallQuery) (r : Recalling) (source : CandidateSource) :
    Except Exn Recalling :=
  match source.search query with
  | .error e => do
    let traversal ← addStep r.traversal (degradedStep rt source e)
    if source.name ∈ s.requiredSources then .error e else return { r with traversal }
  | .ok candidates => do
    let accepted := candidates.filter fun candidate => accepts query candidate.item
    let grouped := accepted.foldl
      (fun groups candidate => addToGroup candidate.item.id candidate groups) r.grouped
    let traversal ←
      addStep r.traversal (succeededStep source candidates.length accepted.length)
    return ⟨grouped, r.used ++ [source.name], traversal⟩

/-- The step of the fusion. -/
def fusionStep (sequence grouped ranked selected : ℕ) : RetrievalTraceStep where
  sequence
  stage := "fusion"
  name := "weighted-fusion"
  status := "succeeded"
  candidateCount := grouped
  acceptedCount := ranked
  selectedCount := selected

/-- Return durable vector-delivery detail, failing closed when unknown. -/
def indexFreshness (query : RecallQuery) : Option IndexFreshness :=
  s.stalenessCheck.map fun check =>
    match check query with
    | .ok (.inr freshness) => freshness
    | .ok (.inl stale) => { staleMemoryCount := if stale then 1 else 0 }
    | .error _ => { staleMemoryCount := 1, missingDeliveryMemoryCount := 1 }

/-- The merged candidates of a score that is high enough, best and latest first. -/
def rank (query : RecallQuery) (fused : List Candidate) : List Candidate :=
  sortedByDesc (fun row => toLex (row.finalScore, row.item.createdAt)) <|
    fused.filter fun row => query.minimumScore ≤ row.finalScore

/-- Fan out to sources, merge duplicate IDs, score, filter and rank. -/
def «recall» (query : RecallQuery) : Except Exn RecallResult := do
  let r ← s.sources.foldlM (s.visit rt query) ⟨[], [], []⟩
  let groups := r.grouped.filterMap fun group =>
    group.2.head?.map fun first => (first, group.2)
  let fused ← groups.mapM fun group => s.fuse rt group.1 group.2
  let ranked := rank query fused
  let selected := ranked.take query.topK
  let fusion ← RetrievalTraceStep.new
    (fusionStep (r.traversal.length + 1) r.grouped.length ranked.length selected.length)
  let freshness := s.indexFreshness query
  return {
    candidates := selected
    sourcesUsed := r.used
    indexStale := (freshness.map IndexFreshness.stale).getD false
    indexFreshness := freshness
    traversal := r.traversal ++ [fusion] }

end RetrievalService

end MemoryPlane
