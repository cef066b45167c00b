import MemoryPlane.Adapters.Tables
import MemoryPlane.Services.Proposals

/-!
# The write services over an adapter

The calls of the retention and proposal services on the ports of any adapter, and what a
repository must do for the results about reviews to hold of it.
-/

namespace MemoryPlane

/-- What an operation returns. -/
inductive Reply where
  | retained (result : RetainResult)
  | submitted (proposal : MemoryProposal) (created : Bool)
  | reviewed (result : ReviewMemoryProposalResult)
  | decided (decision : ConflictReviewDecision)
  deriving DecidableEq

/-- The reply reports a memory item as created; a decision reports no such flag. -/
def Reply.reportsCreated : Reply → Bool
  | .retained r => r.created
  | .submitted _ _ => false
  | .reviewed r => r.retained.any RetainResult.created
  | .decided _ => true

/-- The ports of one adapter. -/
structure MemoryStores (σ : Type) where
  retention : RetentionStore σ
  proposals : MemoryProposalRepository σ

/-- The ports of the in-memory store. -/
def inMemoryStores : MemoryStores InMemoryMemoryStore := ⟨inMemoryRetention, inMemoryProposals⟩

/-- One call of the retention or the proposal service, with its arguments. -/
inductive MemoryOperation where
  | retain (command : RetainCommand) (audit : Option AuditEvent)
  | supersede (command : SupersedeMemoryCommand) (audit : Option AuditEvent)
  | submit (proposal : MemoryProposal) (idempotencyKey : Option String)
      (audit : Option AuditEvent)
  | accept (command : ReviewMemoryProposalCommand) (audit : Option AuditEvent)
  | reject (command : ReviewMemoryProposalCommand) (audit : Option AuditEvent)

/-- The calls that an operation makes. -/
def MemoryOperation.program {σ : Type} (stores : MemoryStores σ) (privacy : PrivacyGuard)
    (d : Draws) : MemoryOperation → Proc σ Exn Reply
  | .retain command audit => do
    return .retained (← RetentionService.retain stores.retention privacy command audit d)
  | .supersede command audit => do
    return .retained (← RetentionService.supersede stores.retention privacy command audit d)
  | .submit proposal key audit => do
    let (stored, created) ← Proc.invoke <|
      stores.proposals.appendProposal (proposal.submitted (d.uuid4 0)) key audit
    return .submitted stored created
  | .accept command audit => do
    return .reviewed (← MemoryProposalService.accept stores.proposals privacy command audit d)
  | .reject command audit => do
    return .reviewed (← MemoryProposalService.reject stores.proposals command audit d)

/-- What a repository does, in terms of its tables. A repository recovers when it finds the
memory of an accepted proposal without its key. -/
structure ReviewLaws {σ : Type} (stores : MemoryStores σ) (tables : σ → ReviewTables)
    (admits : σ → Option AuditEvent → Prop) (recovers : Bool) : Prop where
  getProposal : ∀ x t id, stores.proposals.getProposal x t id = (tables x).getProposal t id
  retain : ∀ x item event key audit,
    WriteOutcome (tables x) ⟨item, event, scopeIdempotencyKey item.workspaceId key⟩
      (stores.retention.retain item event key audit x).1
      (tables (stores.retention.retain item event key audit x).2)
  supersede : ∀ x item event expected key audit,
    WriteOutcome (tables x) ⟨item, event, scopeIdempotencyKey item.workspaceId key⟩
      (stores.retention.supersedeIfCurrent item event expected key audit x).1
      (tables (stores.retention.supersedeIfCurrent item event expected key audit x).2)
  submit : ∀ x proposal key audit,
    SubmitOutcome (tables x) proposal (stores.proposals.appendProposal proposal key audit x).1
      (tables (stores.proposals.appendProposal proposal key audit x).2)
  save : ∀ x proposal audit,
    SaveOutcome (tables x) proposal (stores.proposals.saveProposalReview proposal audit x).1
      (tables (stores.proposals.saveProposalReview proposal audit x).2)
  /-- A reviewed copy of a stored proposal is saved exactly when its audit event is admitted. -/
  saves : ∀ x proposal audit,
    (stores.proposals.saveProposalReview proposal audit x).1.isOk = true ↔
      ((tables x).getProposal proposal.tenantId proposal.id).isSome ∧ admits x audit
  accept : ∀ x proposal item event reviewer reason key audit now,
    AcceptOutcome (tables x) proposal
      ⟨item, event, scopeIdempotencyKey item.workspaceId (some key)⟩
      (fun current => InMemoryMemoryStore.acceptedCopy current item reviewer reason now)
      (stores.proposals.acceptProposalWithMemory proposal item event reviewer reason key audit now
        x).1
      (tables (stores.proposals.acceptProposalWithMemory proposal item event reviewer reason key
        audit now x).2)
  /-- A used key of the tenant returns its item. -/
  replays : ∀ x proposal item event reviewer reason key audit now current e i,
    event.Announces item → (tables x).getProposal proposal.tenantId proposal.id = some current →
      current.status ≠ .rejected →
      (tables x).keyEntry item.tenantId (scopeIdempotencyKey item.workspaceId (some key)) = some e →
      (tables x).items.find e.itemId = some i → i.tenantId = item.tenantId →
        stores.proposals.acceptProposalWithMemory proposal item event reviewer reason key audit now
          x = (.ok (current, i, false), x)
  /-- An unused key of an accepted proposal returns its item or nothing. -/
  recovery : ∀ x proposal item event reviewer reason key audit now current i,
    event.Announces item → (tables x).getProposal proposal.tenantId proposal.id = some current →
      current.status = .accepted →
        current.metadata.get "accepted_memory_id" = some (.str i.id.str) →
      (tables x).keyEntry item.tenantId (scopeIdempotencyKey item.workspaceId (some key)) = none →
      i ∈ (tables x).items.rows →
        stores.proposals.acceptProposalWithMemory proposal item event reviewer reason key audit now
          x = (if recovers then .ok (current, i, false)
            else .error (.runtimeError "accepted proposal is missing its idempotent memory record"),
          x)

end MemoryPlane
