import MemoryPlane.Domain.Models

/-!
# Events, proposals, reviews and audit records

The records that accompany memory items: the versioned integration event of the outbox, the
operator audit event, the memory proposal and its review, and the conflict case with its
decision. Records with a checking constructor carry the outcome of the check.
-/

namespace MemoryPlane

/-- What `uuid4()` and `datetime.now(UTC)` return during one operation, in order of use. -/
structure Draws where
  uuid4 : ℕ → UUID
  now : ℕ → DateTime

/-- The first `n` identifiers drawn are distinct and none of the used ones. -/
def Draws.Fresh (d : Draws) (n : ℕ) (used : List UUID) : Prop :=
  (∀ i < n, ∀ j < n, d.uuid4 i = d.uuid4 j → i = j) ∧ ∀ i < n, d.uuid4 i ∉ used

/-- The draws left after the first `n` of each kind. -/
def Draws.drop (d : Draws) (n : ℕ) : Draws := ⟨fun i => d.uuid4 (n + i), fun i => d.now (n + i)⟩

/-- The draws left after the first `n` readings of the clock. -/
def Draws.tick (d : Draws) (n : ℕ) : Draws := ⟨d.uuid4, fun i => d.now (n + i)⟩

/-- `name.rsplit(".", 1)[-1]`. -/
def lastDotted (name : String) : List Char :=
  (name.toList.reverse.takeWhile (· ≠ '.')).reverse

/-- Self-contained, idempotently consumable integration event. -/
structure IntegrationEvent where
  name : String
  tenantId : UUID
  workspaceId : UUID
  payload : JsonObject
  id : UUID
  occurredAt : DateTime
  correlationId : Option UUID
  /-- The event name ends in a version. -/
  versioned : (lastDotted name).head? = some 'v'
  deriving DecidableEq

/-- The name of the event that announces one stored memory item. -/
def memoryRetained : String := "memory.retained.v1"

/-- The event that announces an item, with its payload. -/
def retainedEvent (item : MemoryItem) (payload : JsonObject) (id : UUID) (now : DateTime) :
    IntegrationEvent where
  name := memoryRetained
  tenantId := item.tenantId
  workspaceId := item.workspaceId
  payload := payload
  id := id
  occurredAt := now
  correlationId := some item.id
  versioned := by decide

/-- An event announces an item under the item's own boundary. -/
structure IntegrationEvent.Announces (e : IntegrationEvent) (item : MemoryItem) : Prop where
  name : e.name = memoryRetained
  correlation : e.correlationId = some item.id
  tenant : e.tenantId = item.tenantId
  workspace : e.workspaceId = item.workspaceId

theorem retainedEvent_announces (item : MemoryItem) (payload : JsonObject) (id : UUID)
    (now : DateTime) : (retainedEvent item payload id now).Announces item :=
  ⟨rfl, rfl, rfl, rfl⟩

/-- Fields of a durable record of an operator, agent or system action. -/
structure AuditFields where
  tenantId : UUID
  workspaceId : Option UUID
  action : String
  actor : String
  actorType : String
  resourceType : String
  resourceId : Option String
  status : String
  metadata : JsonObject
  id : UUID
  createdAt : DateTime
  deriving DecidableEq

/-- `AuditEvent.__post_init__`. -/
def AuditFields.postInit (a : AuditFields) : Except Exn Unit :=
  if Text.isBlank a.action then .error (.valueError "audit action must not be empty")
  else if Text.isBlank a.actor then .error (.valueError "audit actor must not be empty")
  else if Text.isBlank a.actorType then .error (.valueError "audit actor_type must not be empty")
  else if Text.isBlank a.resourceType then
    .error (.valueError "audit resource_type must not be empty")
  else if a.status ∉ ["succeeded", "failed", "denied"] then
    .error (.valueError "audit status must be succeeded, failed or denied")
  else .ok ()

/-- An audit record that passed its constructor. -/
structure AuditEvent extends AuditFields where
  valid : toAuditFields.postInit = .ok ()
  deriving DecidableEq

/-- `replace(event, resource_id=...)`. -/
def AuditEvent.replaceResource (a : AuditEvent) (resourceId : String) : AuditEvent :=
  { a with resourceId := some resourceId, valid := a.valid }

/-- `replace(event, workspace_id=..., resource_id=...)`. -/
def AuditEvent.replaceScope (a : AuditEvent) (workspaceId : UUID) (resourceId : String) :
    AuditEvent :=
  { a with workspaceId := some workspaceId, resourceId := some resourceId, valid := a.valid }

/-- Requested destination of a proposed memory change. -/
inductive MemoryProposalTarget where
  | auto | fact | preference | decision | task | graph | procedure
  deriving DecidableEq

def MemoryProposalTarget.value : MemoryProposalTarget → String
  | .auto => "auto"
  | .fact => "fact"
  | .preference => "preference"
  | .decision => "decision"
  | .task => "task"
  | .graph => "graph"
  | .procedure => "procedure"

/-- Review state of a proposal. -/
inductive MemoryProposalStatus where
  | «open» | needsReview | accepted | rejected
  deriving DecidableEq

/-- Fields of a proposed memory update. -/
structure ProposalFields where
  tenantId : UUID
  workspaceId : UUID
  «namespace» : String
  requester : String
  target : MemoryProposalTarget
  proposal : String
  evidence : String
  id : UUID
  agentId : Option UUID
  threadId : Option UUID
  confidence : ℚ
  importance : ℚ
  status : MemoryProposalStatus
  metadata : JsonObject
  createdAt : DateTime
  reviewedAt : Option DateTime
  reviewer : Option String
  reviewReason : String
  deriving DecidableEq

/-- `MemoryProposal.__post_init__`. -/
def ProposalFields.postInit (p : ProposalFields) : Except Exn Unit :=
  if Text.isBlank p.namespace then .error (.valueError "proposal namespace must not be empty")
  else if Text.isBlank p.requester then
    .error (.valueError "proposal requester must not be empty")
  else if Text.isBlank p.proposal then .error (.valueError "proposal text must not be empty")
  else if ¬(0 ≤ p.confidence ∧ p.confidence ≤ 1) then
    .error (.valueError "confidence must be between 0 and 1")
  else if ¬(0 ≤ p.importance ∧ p.importance ≤ 1) then
    .error (.valueError "importance must be between 0 and 1")
  else .ok ()

/-- A proposed memory update that passed its constructor. -/
structure MemoryProposal extends ProposalFields where
  valid : toProposalFields.postInit = .ok ()
  deriving DecidableEq

/-- Construction, which runs the checks. -/
def MemoryProposal.new (p : ProposalFields) : Except Exn MemoryProposal :=
  match h : p.postInit with
  | .ok () => .ok ⟨p, h⟩
  | .error e => .error e

theorem MemoryProposal.new_eq_ok {p : ProposalFields} {i : MemoryProposal} :
    MemoryProposal.new p = .ok i ↔ i.toProposalFields = p := by
  unfold MemoryProposal.new
  constructor
  · intro h
    split at h
    · cases h
      rfl
    · cases h
  · rintro rfl
    split
    · rfl
    · rename_i e he
      rw [i.valid] at he
      cases he

/-- The constructor bounds the scores of a proposal. -/
theorem MemoryProposal.bounds (p : MemoryProposal) :
    (0 ≤ p.confidence ∧ p.confidence ≤ 1) ∧ (0 ≤ p.importance ∧ p.importance ≤ 1) := by
  have h := p.valid
  unfold ProposalFields.postInit at h
  split at h
  · cases h
  split at h
  · cases h
  split at h
  · cases h
  split at h
  · cases h
  split at h
  · cases h
  · rename_i hc hi
    exact ⟨not_not.mp hc, not_not.mp hi⟩

/-- A proposal as it is submitted: open, under a drawn identifier. -/
def MemoryProposal.submitted (p : MemoryProposal) (id : UUID) : MemoryProposal :=
  { p with id := id, status := .open, valid := p.valid }

/-- The copy of a proposal that a review leaves behind. -/
def MemoryProposal.reviewed (p : MemoryProposal) (status : MemoryProposalStatus)
    (reviewedAt : DateTime) (reviewer reviewReason : String) (metadata : JsonObject) :
    MemoryProposal :=
  { p with
    status := status
    reviewedAt := some reviewedAt
    reviewer := some reviewer
    reviewReason := reviewReason
    metadata := metadata
    valid := p.valid }

/-- Human review state of a conflict case. -/
inductive ConflictReviewStatus where
  | unresolved | accepted | overridden | dismissed
  deriving DecidableEq

/-- The decision names a winner that must become current. -/
def ConflictReviewStatus.appliesWinner (status : ConflictReviewStatus) : Bool :=
  status == .accepted || status == .overridden

/-- One competing value in a conflict case. -/
structure ConflictCandidate where
  value : String
  status : String
  evidenceIds : List UUID
  confidence : ℚ
  latestCreatedAt : DateTime
  deriving DecidableEq

/-- Persisted decision for a conflict case. -/
structure ConflictReviewDecision where
  tenantId : UUID
  workspaceId : UUID
  caseId : UUID
  status : ConflictReviewStatus
  winnerValue : Option String
  reason : String
  appliedMemoryId : Option UUID
  updatedAt : DateTime
  deriving DecidableEq

/-- Inspectable case produced from contradictory memory evidence. -/
structure ConflictCase where
  id : UUID
  tenantId : UUID
  workspaceId : UUID
  subject : String
  predicate : String
  candidates : List ConflictCandidate
  suggestedWinnerValue : String
  suggestedReason : String
  review : Option ConflictReviewDecision
  deriving DecidableEq

end MemoryPlane
