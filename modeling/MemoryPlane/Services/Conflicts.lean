import Mathlib.Data.Prod.Lex
import Mathlib.Data.String.Basic
import Mathlib.Order.BooleanAlgebra.Defs
import Mathlib.Algebra.Order.Ring.Rat
import MemoryPlane.Adapters.InMemory
import MemoryPlane.Lib.Proc
import MemoryPlane.Python.Float
import MemoryPlane.Services.BeliefSlots
import MemoryPlane.Services.Retention

/-!
# Conflict service

Conflict cases are built from the semantic memories of a workspace: memories with the same
belief key and at least two values. A decision may append a revision that makes the winning
value current and tombstones for the other heads, in one call of the store.
-/

namespace MemoryPlane

/-- What the language runtime supplies: its Unicode tables, name-based UUIDs and its floats. -/
structure Runtime extends FloatOps where
  unicode : Unicode
  uuid5 : UUID → String → UUID

/-- `NAMESPACE_URL`. -/
def namespaceUrl : UUID := ⟨0x6ba7b8119dad11d180b400c04fd430c8, by decide⟩

namespace ConflictService

variable (rt : Runtime)

/-- The name-based identifier of the case of a slot. -/
def caseId (tenantId workspaceId : UUID) (slot : BeliefSlot) : UUID :=
  rt.uuid5 namespaceUrl s!"uam:conflict:{tenantId.str}:{workspaceId.str}:{slot.key}"

/-- Confidence of a candidate: the mean of its rows with bounded boosts. -/
def candidateConfidence (rows : List MemoryItem) (isActive : Bool) : ℚ :=
  let base := rt.round (rt.sum (rows.map fun i => i.confidence) / rows.length)
  let boost := min (rt.round (1 / 5)) (rt.round (rt.round (1 / 20) * (rows.length - 1 : ℚ)))
  let activeBoost := if isActive then rt.round (1 / 20) else 0
  min 1 (max 0 (rt.round (rt.round (base + boost) + activeBoost)))

/-- One memory with its belief slot. -/
structure Fact where
  slot : BeliefSlot
  item : MemoryItem

/-- The candidate of one value, given the newest memory of the whole case. -/
def candidate (latest : MemoryItem) (review : Option ConflictReviewDecision) (value : String)
    (rows : List MemoryItem) : Option ConflictCandidate :=
  (rows.argmax fun i => i.createdAt).map fun newest =>
    let active :=
      match review with
      | some r =>
        if r.appliedMemoryId ≠ none then some value == r.winnerValue else newest.id == latest.id
      | none => newest.id == latest.id
    { value := value
      status := bif active then "active" else "stale"
      evidenceIds := rows.map fun i => i.id
      confidence := candidateConfidence rt rows active
      latestCreatedAt := newest.createdAt }

/-- The memories of a case by value, values in order. -/
def valueGroups (facts : List Fact) : List (String × List MemoryItem) :=
  (sortedBy Prod.fst (groupBy (fun f => f.slot.value) facts)).map fun g =>
    (g.1, g.2.map Fact.item)

/-- How a suggested winner is preferred. -/
def suggestionKey (c : ConflictCandidate) : Bool ×ₗ DateTime ×ₗ ℚ :=
  toLex (decide (c.status = "active"), toLex (c.latestCreatedAt, c.confidence))

/-- The candidates of a case, values in order. -/
def caseCandidates (latest : MemoryItem) (review : Option ConflictReviewDecision)
    (groups : List (String × List MemoryItem)) : Option (List ConflictCandidate) :=
  groups.mapM fun g => candidate rt latest review g.1 g.2

/-- A case is left out of the open inbox once its review settled it. -/
def isSettled (review : Option ConflictReviewDecision) : Bool :=
  review.any fun r => r.status ≠ .unresolved

/-- The case of one group of facts, unless it has a single value or is left out. -/
def caseOf (tenantId workspaceId : UUID) (reviews : List ConflictReviewDecision)
    (includeResolved : Bool) (facts : List Fact) : Option ConflictCase :=
  let groups := valueGroups facts
  if groups.length < 2 then none
  else
    ((facts.map Fact.item).argmax fun i => i.createdAt).bind fun latest =>
      facts.head?.bind fun first =>
        let id := caseId rt tenantId workspaceId first.slot
        let review := reviews.reverse.find? fun r => r.caseId = id
        (caseCandidates rt latest review groups).bind fun candidates =>
          if !includeResolved && isSettled review then none
          else
            (candidates.argmax suggestionKey).map fun suggested =>
              { id := id
                tenantId := tenantId
                workspaceId := workspaceId
                subject := first.slot.subject
                predicate := first.slot.predicate
                candidates := candidates
                suggestedWinnerValue := suggested.value
                suggestedReason := "newest active value with strongest evidence; " ++
                  "raw memories remain append-only"
                review := review }

/-- Order of the inbox. -/
def caseKey (c : ConflictCase) : String ×ₗ String ×ₗ UUID :=
  toLex (c.subject, toLex (c.predicate, c.id))

/-- The facts of a workspace: its semantic memories with their slots, in creation order. -/
def factsOf (l : Ledger) (tenantId workspaceId : UUID) : List Fact :=
  (l.listForWorkspace tenantId workspaceId [.semantic]).map fun i =>
    ⟨extractBeliefSlot rt.unicode i.text, i⟩

/-- Return deterministic conflict cases for semantic memories. -/
def listCases (s : InMemoryMemoryStore) (tenantId workspaceId : UUID) (includeResolved : Bool) :
    List ConflictCase :=
  let groups := groupBy (fun f => f.slot.key) (factsOf rt s.toLedger tenantId workspaceId)
  let reviews := s.listConflictReviews tenantId workspaceId
  sortedBy caseKey
    (groups.filterMap fun g => caseOf rt tenantId workspaceId reviews includeResolved g.2)

/-- The payload of the event that announces a resolution write. -/
def resolutionPayload (item : MemoryItem) : JsonObject :=
  [("memory_id", .str item.id.str),
    ("supersedes_id", .str ((item.supersedesId.map UUID.str).getD "None")),
    ("revision", .int item.revision), ("layer", .str item.layer.value), ("jobs", retentionJobs),
    ("reason", .str "conflict-resolution")]

/-- Newest memory, later identifiers first among equals. -/
def recencyKey (i : MemoryItem) : DateTime ×ₗ UUID := toLex (i.createdAt, i.id)

/-- The archiving revision of one losing head. -/
def tombstone (case : ConflictCase) (d : Draws) (loser : MemoryItem) :
    Except Exn (MemoryItem × IntegrationEvent × ℕ) := do
  let stone ← loser.supersede loser.text none (some .archived) (d.uuid4 0) (d.now 0)
  let stone := stone.replaceMetadata <| stone.metadata.merge
    [("conflict_case_id", .str case.id.str), ("archived_by_conflict_resolution", .bool true)]
  return (stone, retainedEvent stone (resolutionPayload stone) (d.uuid4 1) (d.now 1),
    loser.revision)

/-- The archiving revisions of all losing heads. -/
def tombstones (case : ConflictCase) (d : Draws) :
    List MemoryItem → Except Exn (List (MemoryItem × IntegrationEvent × ℕ))
  | [] => .ok []
  | loser :: rest => do
    let w ← tombstone case d loser
    let ws ← tombstones case (d.drop 2) rest
    return w :: ws

/-- The revision of a losing head that carries the text of the winner. -/
def graft (case : ConflictCase) (d : Draws) (source parent : MemoryItem) :
    Except Exn (MemoryItem × IntegrationEvent × ℕ) := do
  let applied ← parent.supersede source.text (some source.confidence) (some .active)
    (d.uuid4 0) (d.now 0)
  let applied := applied.replaceProvenance
    { sourceKind := "conflict-review"
      originUri := some s!"conflict://{case.id.str}"
      objectKey := some source.id.str
      quote := some source.text
      extractionVersion := "operator-resolution-v1" }
    (applied.metadata.merge
      [("conflict_case_id", .str case.id.str), ("winner_evidence_id", .str source.id.str)])
  return (applied, retainedEvent applied (resolutionPayload applied) (d.uuid4 1) (d.now 1),
    parent.revision)

/-- The memories that a resolution looks at. -/
structure Evidence where
  /-- Memories of the winning value. -/
  winnerItems : List MemoryItem
  /-- Memories of the winning value that are still recallable heads. -/
  winnerHeads : List MemoryItem
  /-- Recallable heads of the other values. -/
  loserHeads : List MemoryItem

/-- The stored memories under the evidence identifiers of a case. -/
def evidenceIds (case : ConflictCase) : List UUID :=
  case.candidates.flatMap ConflictCandidate.evidenceIds

/-- Sort the stored evidence of a case into winners and losers. -/
def evidence (case : ConflictCase) (winner : ConflictCandidate) (items : List MemoryItem)
    (recallable : List UUID) : Evidence :=
  let item (id : UUID) : Option MemoryItem := items.find? fun i => i.id = id
  let winnerItems := winner.evidenceIds.filterMap item
  { winnerItems := winnerItems
    winnerHeads := winnerItems.filter fun i => i.id ∈ recallable
    loserHeads := (case.candidates.filter fun c => c.value ≠ winner.value).flatMap fun c =>
      (c.evidenceIds.filter fun id => id ∈ recallable).filterMap item }

/-- The writes of a resolution and the memory that is current after it. -/
def resolutionWrites (case : ConflictCase) (d : Draws) (e : Evidence) :
    Except Exn (UUID × List (MemoryItem × IntegrationEvent × ℕ)) :=
  match e.winnerItems.argmax recencyKey with
  | none => .error (.valueError "max() arg is an empty sequence")
  | some source =>
    match e.winnerHeads.argmax recencyKey with
    | some applied => do
      let ws ← tombstones case d e.loserHeads
      return (applied.id, ws)
    | none =>
      match e.loserHeads.argmax recencyKey with
      | none => .error (.valueError "conflict has no recallable head to supersede")
      | some parent => do
        let w ← graft case d source parent
        let ws ← tombstones case (d.drop 2) (e.loserHeads.erase parent)
        return (w.1.id, w :: ws)

/-- `_apply_winner`. -/
def applyWinner (case : ConflictCase) (decision : ConflictReviewDecision) (winnerValue : String)
    (audit : Option AuditEvent) (d : Draws) :
    Proc InMemoryMemoryStore Exn ConflictReviewDecision := do
  match case.candidates.reverse.find? fun c => c.value = winnerValue with
  | none => .raise (.valueError "winner_value must match one of the conflict candidates")
  | some winner =>
    let ids := (evidenceIds case).eraseDups
    let items ← Proc.read fun s => ids.filterMap fun id => s.get case.tenantId id
    if items.length ≠ ids.length then .raise (.valueError "conflict evidence is incomplete")
    else
      let recallable ← Proc.read fun s =>
        s.filterRecallableHeads case.tenantId (items.map fun i => i.id)
      let (appliedId, writes) ← Proc.ofExcept
        (resolutionWrites case d (evidence case winner items recallable))
      Proc.invoke fun s => s.applyConflictResolution
        { decision with appliedMemoryId := some appliedId } writes audit

/-- Persist the review and make its winner canonical when required. -/
def decide (tenantId workspaceId caseId : UUID) (status : ConflictReviewStatus)
    (winnerValue : Option String) (reason : String) (audit : Option AuditEvent) (d : Draws) :
    Proc InMemoryMemoryStore Exn ConflictReviewDecision :=
  if status.appliesWinner ∧ winnerValue.all Text.isBlank then
    .raise (.valueError "winner_value is required for accepted/overridden decisions")
  else do
    let cases ← Proc.read fun s => listCases rt s tenantId workspaceId true
    match cases.find? fun c => c.id = caseId with
    | none => .raise (.valueError "conflict case not found")
    | some case =>
      match case.review.filter fun r => r.appliedMemoryId ≠ none with
      | some r =>
        if r.status = status ∧ r.winnerValue = winnerValue then return r
        else .raise (.valueError "conflict resolution is already applied and immutable")
      | none =>
        let decision : ConflictReviewDecision :=
          { tenantId := tenantId
            workspaceId := workspaceId
            caseId := caseId
            status := status
            winnerValue := winnerValue
            reason := reason
            appliedMemoryId := none
            updatedAt := d.now 0 }
        if status.appliesWinner then
          applyWinner case decision (Text.strip (winnerValue.getD "")) audit (d.tick 1)
        else
          Proc.invoke fun s =>
            let (saved, t) := s.saveConflictReview decision audit
            (.ok saved, t)

end ConflictService

end MemoryPlane
