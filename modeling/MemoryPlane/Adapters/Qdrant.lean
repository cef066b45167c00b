import Mathlib.Algebra.Order.Ring.Rat
import Mathlib.Data.String.Basic
import MemoryPlane.Adapters.InMemory
import MemoryPlane.Contracts.Recall
import MemoryPlane.Lib.Proc
import MemoryPlane.Python.Float

/-!
# Vector candidate source

The candidate source over vectors, in its in-memory form: one point for each item identifier,
written by the embedding workers and searched with the ledger's guard. Lexical candidates of the
ledger itself are searched here too, since both share their terms and filters.
-/

namespace MemoryPlane

/-- A provider of vectors. -/
structure EmbeddingClient where
  modelName : String
  dimension : ℕ
  embed : String → Except Exn (List ℚ)
  /-- The query-specific call, where the provider has one. -/
  embedQuery : Option (String → Except Exn (List ℚ)) := none
  /-- The document-specific call, where the provider has one. -/
  embedDocument : Option (String → Except Exn (List ℚ)) := none

/-- An indexed item with its vector. -/
structure VectorPoint where
  item : MemoryItem
  vector : List ℚ
  deriving DecidableEq

/-- The source with its in-memory points. -/
structure QdrantCandidateSource where
  denseDim : ℕ := 1536
  queryEmbeddingClient : Option EmbeddingClient := none
  collectionModelName : Option String := none
  memItems : Table VectorPoint fun p => p.item.id := Table.empty

/-- The set of terms of a text, for lexical overlap. -/
def terms (u : Unicode) (text : String) : List (List Char) :=
  ((Text.runs u.isWord [] text.toList).map fun w => w.flatMap u.casefold).eraseDups

/-- The share of the query's terms that the item's text has. -/
def lexicalOverlap (fl : FloatOps) (u : Unicode) (query : RecallQuery) (item : MemoryItem) : ℚ :=
  let queryTerms := terms u query.text
  let overlap := (queryTerms.filter (· ∈ terms u item.text)).length
  fl.round (overlap / max 1 queryTerms.length)

namespace QdrantCandidateSource

variable (q : QdrantCandidateSource)

/-- `_validate_vector_dimensions`. -/
def validateVectorDimensions (items : List VectorPoint) : Except Exn Unit :=
  match items.find? fun p => p.vector.length ≠ q.denseDim with
  | none => .ok ()
  | some p => .error (.valueError
      s!"dense vector dimension mismatch: expected {q.denseDim}, got {p.vector.length}")

/-- `_validate_write_model`: the first model that writes names the collection. -/
def validateWriteModel (modelName : Option String) : Except Exn QdrantCandidateSource :=
  match modelName, q.collectionModelName with
  | none, some _ =>
    .error (.valueError "model_name is required for an identified Qdrant collection")
  | none, none => .ok q
  | some m, none => .ok { q with collectionModelName := some m }
  | some m, some c =>
    if m = c then .ok q
    else .error (.valueError
      s!"embedding model '{m}' does not match collection model '{c}'")

/-- Insert or update a point. -/
def upsert (item : MemoryItem) (denseVector : List ℚ) (modelName : Option String) :
    Except Exn QdrantCandidateSource := do
  q.validateVectorDimensions [⟨item, denseVector⟩]
  let q ← q.validateWriteModel modelName
  return { q with memItems := q.memItems.put ⟨item, denseVector⟩ }

/-- Remove a point by its memory item ID. -/
def delete (itemId : UUID) : QdrantCandidateSource :=
  { q with memItems := q.memItems.erase itemId }

/-- `dict.update` with points under their identifiers. -/
def updatePoints (t : Table VectorPoint fun p => p.item.id) (items : List VectorPoint) :
    Table VectorPoint fun p => p.item.id := items.foldl Table.put t

/-- Points of the workspace that the replacement does not name. -/
def staleIds (tenantId workspaceId : UUID) (items : List VectorPoint) : List UUID :=
  (q.memItems.rows.filter fun p => p.item.tenantId = tenantId ∧ p.item.workspaceId = workspaceId ∧
    p.item.id ∉ items.map fun r => r.item.id).map fun p => p.item.id

/-- Replace one workspace's vector set without touching other workspaces. -/
def syncWorkspace (tenantId workspaceId : UUID) (items : List VectorPoint)
    (modelName : Option String) : Except Exn QdrantCandidateSource := do
  if items.any fun p => p.item.tenantId ≠ tenantId ∨ p.item.workspaceId ≠ workspaceId then
    .error (.valueError "workspace sync contains an item outside its boundary")
  else
    q.validateVectorDimensions items
    let q ← q.validateWriteModel modelName
    let updated := updatePoints q.memItems items
    return { q with memItems := (q.staleIds tenantId workspaceId items).foldl Table.erase updated }

/-- The identifiers of recallable heads among the stored items, tenant by tenant. -/
def recallableHeadIds (l : Ledger) (items : List MemoryItem) : List UUID :=
  (groupBy (fun i : MemoryItem => i.tenantId) items).flatMap fun g =>
    l.filterRecallableHeads g.1 (g.2.map fun i => i.id)

/-- Project-scoped and metadata filters. -/
def matchesFilter (item : MemoryItem) (query : RecallQuery) : Bool :=
  item.tenantId = query.tenantId ∧ item.workspaceId = query.workspaceId ∧
    (query.layers = [] ∨ item.layer ∈ query.layers) ∧ (∀ b ∈ query.labels, b ∈ item.labels) ∧
    (item.scope = .thread → item.threadId = query.threadId) ∧
    (item.scope = .private → item.agentId = query.agentId) ∧ item.status.isTombstone = false

/-- Cosine similarity, moved into the unit interval. -/
def boundedCosine (fl : FloatOps) (left right : List ℚ) : ℚ :=
  if left.length ≠ right.length then 0
  else
    let dot := fl.sum (List.zipWith (fun a b => fl.round (a * b)) left right)
    let norm := fun v : List ℚ => fl.sqrt (fl.sum (v.map fun a => fl.round (a * a)))
    let cosine :=
      fl.round (dot / max (fl.round (norm left * norm right)) (fl.round (1 / 10 ^ 12)))
    max 0 (min 1 (fl.round (fl.round (cosine + 1) / 2)))

/-- `_embed_query`, if a query embedding client is given. -/
def embedQuery (text : String) : Except Exn (Option (List ℚ)) :=
  match q.queryEmbeddingClient with
  | none => .ok none
  | some client => ((client.embedQuery.getD client.embed) text).map some

/-- The semantic signal of a point; without a query vector, the bounded mean of its vector. -/
def semanticScore (fl : FloatOps) (queryVector : Option (List ℚ)) (vector : List ℚ) : ℚ :=
  match queryVector with
  | some v => boundedCosine fl v vector
  | none => max 0 (min 1 (fl.round (fl.sum vector / max 1 vector.length)))

/-- Search with cosine similarity and metadata filtering. -/
def searchInMemory (fl : FloatOps) (u : Unicode) (l : Ledger) (query : RecallQuery) :
    Except Exn (List Candidate) := do
  let queryVector ← q.embedQuery query.text
  let stored := q.memItems.rows
  let supersededIds := stored.filterMap fun p => p.item.supersedesId
  let recallableIds := recallableHeadIds l (stored.map fun p => p.item)
  let kept := stored.filter fun p =>
    p.item.id ∉ supersededIds ∧ p.item.id ∈ recallableIds ∧ matchesFilter p.item query
  let results := kept.map fun p =>
    { item := p.item
      source := "qdrant_hybrid"
      semantic := semanticScore fl queryVector p.vector
      lexical := lexicalOverlap fl u query p.item
      entity := lexicalOverlap fl u query p.item
      trust := p.item.confidence : Candidate }
  return (sortedByDesc (fun c : Candidate => fl.round (c.semantic + c.lexical)) results).take
    query.topK

/-- The source over a ledger. -/
def source (fl : FloatOps) (u : Unicode) (l : Ledger) : CandidateSource :=
  ⟨"qdrant_hybrid", q.searchInMemory fl u l⟩

end QdrantCandidateSource

/-- Portable lexical candidates of the ledger with strict metadata filtering. -/
def Ledger.search (fl : FloatOps) (u : Unicode) (l : Ledger) (query : RecallQuery) :
    List Candidate :=
  (l.listForWorkspace query.tenantId query.workspaceId query.layers).filterMap fun item =>
    if l.isRecallableHead query.tenantId item.id ∧
        (item.scope = .thread → item.threadId = query.threadId) ∧
        (item.scope = .private → item.agentId = query.agentId) ∧
        (∀ b ∈ query.labels, b ∈ item.labels) then
      let lexical := lexicalOverlap fl u query item
      if 0 < lexical ∨ item.layer = .core ∨ item.layer = .working then
        some { item, source := "sql_lexical", lexical, entity := lexical, trust := item.confidence }
      else none
    else none

/-- The lexical source over a ledger. -/
def Ledger.source (fl : FloatOps) (u : Unicode) (l : Ledger) : CandidateSource :=
  ⟨"sql_lexical", fun query => .ok (l.search fl u query)⟩

end MemoryPlane
