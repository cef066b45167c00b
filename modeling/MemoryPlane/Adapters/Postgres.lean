import MemoryPlane.Adapters.Versions
import MemoryPlane.Services.MemoryStores

/-!
# PostgreSQL ledger, one call at a time

The calls of the PostgreSQL adapter that write memories and proposals, each as one committed
transaction: a call that raises leaves the tables as they were. Foreign keys are checked
against the rows that the item refers to, primary keys against the tables. Interleaved
transactions are a matter of their own.
-/

namespace MemoryPlane

/-- The tables behind memories and proposals. -/
structure PostgresMemoryLedger extends Ledger where
  proposals : Table MemoryProposal fun p => p.id
  proposalIdempotency : Table IdempotencyEntry fun e => (e.tenantId, e.key)
  auditEvents : Table AuditEvent fun a => a.id
  /-- The tenant, workspace, agent and thread that an item names exist. -/
  provisioned : MemoryItem → Bool
  /-- The tenant and workspace of a proposal exist. -/
  provisionedProposal : MemoryProposal → Bool
  /-- The tenant and workspace of an audit event exist. -/
  provisionedAudit : AuditEvent → Bool

namespace PostgresMemoryLedger

open Ledger

variable (s : PostgresMemoryLedger)

/-- An empty ledger with its provisioned identities. -/
def empty (provisioned : MemoryItem → Bool) (provisionedProposal : MemoryProposal → Bool)
    (provisionedAudit : AuditEvent → Bool) : PostgresMemoryLedger where
  toLedger := Ledger.empty
  proposals := Table.empty
  proposalIdempotency := Table.empty
  auditEvents := Table.empty
  provisioned := provisioned
  provisionedProposal := provisionedProposal
  provisionedAudit := provisionedAudit

/-- `_validate_event`. -/
def validateEvent (item : MemoryItem) (event : IntegrationEvent) : Except Exn Unit :=
  if (item.tenantId, item.workspaceId) ≠ (event.tenantId, event.workspaceId) then
    .error (.valueError "memory item and event must share tenant/workspace")
  else if event.correlationId ≠ some item.id then
    .error (.valueError "retention event must correlate to the memory item")
  else .ok ()

/-- `_get_by_idempotency_key`: the key joined with its item, under the tenant. -/
def byIdempotencyKey (tenantId : UUID) (key : Option String) : Option MemoryItem :=
  (key.bind fun k => s.idempotency.find (tenantId, k)).bind fun e => s.get tenantId e.itemId

/-- The foreign keys of a new item hold. -/
def references (item : MemoryItem) : Bool :=
  s.provisioned item && item.supersedesId.all fun p => (s.items.find p).isSome

/-- `_insert_item`; `onForeignKey` is what the caller makes of a missing reference. -/
def insertItem (item : MemoryItem) (onForeignKey : Exn) : Except Exn PostgresMemoryLedger :=
  if (s.items.find item.id).isSome then .error (.databaseError "memory_items_pkey")
  else if s.references item = false then .error onForeignKey
  else .ok { s with items := s.items.put item }

/-- Insert into `idempotency_keys`, if a key is given. -/
def insertKey (item : MemoryItem) (key : Option String) : Except Exn PostgresMemoryLedger :=
  match key with
  | none => .ok s
  | some k =>
    if (s.idempotency.find (item.tenantId, k)).isSome then
      .error (.databaseError "idempotency_keys_pkey")
    else .ok { s with idempotency := s.idempotency.put ⟨item.tenantId, k, item.id⟩ }

/-- `_insert_event`. -/
def insertEvent (event : IntegrationEvent) : Except Exn PostgresMemoryLedger :=
  if s.events.any fun e => e.id = event.id then .error (.databaseError "outbox_events_pkey")
  else .ok { s with events := s.events ++ [event] }

/-- `_insert_audit_event`, if one is given. -/
def insertAuditEvent (audit : Option AuditEvent) : Except Exn PostgresMemoryLedger :=
  match audit with
  | none => .ok s
  | some a =>
    if (s.auditEvents.find a.id).isSome then .error (.databaseError "audit_events_pkey")
    else if s.provisionedAudit a = false then .error (.databaseError "foreign key")
    else .ok { s with auditEvents := s.auditEvents.put a }

/-- The inserts of one memory, in the order of the transaction. -/
def insertMemory (item : MemoryItem) (event : IntegrationEvent) (key : Option String)
    (onForeignKey : Exn) : Except Exn PostgresMemoryLedger := do
  let s ← s.insertItem item onForeignKey
  let s ← s.insertKey item key
  s.insertEvent event

/-- Commit what a transaction computed, or roll back. -/
def transact {α : Type} (r : Except Exn (α × PostgresMemoryLedger)) :
    Except Exn α × PostgresMemoryLedger :=
  match r with
  | .ok (a, t) => (.ok a, t)
  | .error e => (.error e, s)

/-- Atomically append memory, idempotency key and outbox event. -/
def retain (item : MemoryItem) (event : IntegrationEvent) (idempotencyKey : Option String)
    (audit : Option AuditEvent) : Except Exn (MemoryItem × Bool) × PostgresMemoryLedger :=
  s.transact <| do
    let key := scopeIdempotencyKey item.workspaceId idempotencyKey
    validateEvent item event
    match s.byIdempotencyKey item.tenantId key with
    | some existing => return ((existing, false), s)
    | none =>
      let t ← s.insertMemory item event key (.valueError "tenant or workspace is not provisioned")
      let t ← t.insertAuditEvent audit
      return ((item, true), t)

/-- Greater revisions first, then greater identifiers. -/
def chainKey (i : MemoryItem) : ℕ ×ₗ UUID := toLex (i.revision, i.id)

/-- The recursive query for the head of a chain: the rows of the tenant that descend from
the item, the greatest first. -/
def chainHead (tenantId : UUID) (item : MemoryItem) : Option MemoryItem :=
  let rows := s.items.rows.filter fun i => i.tenantId = tenantId
  (revisionScheme.closure rows (rows.length + 1) [item]).argmax chainKey

/-- CAS append a replacement and its outbox event. -/
def supersedeIfCurrent (item : MemoryItem) (event : IntegrationEvent) (expectedRevision : ℕ)
    (idempotencyKey : Option String) (audit : Option AuditEvent) :
    Except Exn (MemoryItem × Bool) × PostgresMemoryLedger :=
  s.transact <|
    match item.supersedesId with
    | none => .error (.valueError "replacement item must declare supersedes_id")
    | some parentId => do
      let key := scopeIdempotencyKey item.workspaceId idempotencyKey
      validateEvent item event
      match s.byIdempotencyKey item.tenantId key with
      | some existing => return ((existing, false), s)
      | none =>
        match s.get item.tenantId parentId with
        | none => .error (.keyError "memory item not found")
        | some parent =>
          let head := s.chainHead item.tenantId parent
          let actual := (head.getD parent).revision
          if head.any fun h => h.id ≠ parentId ∨ parent.revision ≠ expectedRevision then
            .error (.revisionConflict parentId expectedRevision actual)
          else do
            let t ← s.insertMemory item event key (.databaseError "foreign key")
            let t ← t.insertAuditEvent audit
            return ((item, true), t)

/-- Load one memory proposal under its tenant. -/
def getProposal (tenantId proposalId : UUID) : Option MemoryProposal :=
  (s.proposals.find proposalId).filter fun p => p.tenantId = tenantId

/-- Append one memory proposal. -/
def appendProposal (proposal : MemoryProposal) (idempotencyKey : Option String)
    (audit : Option AuditEvent) : Except Exn (MemoryProposal × Bool) × PostgresMemoryLedger :=
  s.transact <| do
    let key := scopeIdempotencyKey proposal.workspaceId idempotencyKey
    let entry := key.bind fun k => s.proposalIdempotency.find (proposal.tenantId, k)
    match entry.bind fun e => s.getProposal proposal.tenantId e.itemId with
    | some existing => return ((existing, false), s)
    | none =>
      if (s.proposals.find proposal.id).isSome then
        .error (.databaseError "memory_proposals_pkey")
      else if s.provisionedProposal proposal = false then .error (.databaseError "foreign key")
      else
        let t := { s with
          proposals := s.proposals.put proposal
          proposalIdempotency :=
            match key with
            | none => s.proposalIdempotency
            | some k => s.proposalIdempotency.put ⟨proposal.tenantId, k, proposal.id⟩ }
        let t ← t.insertAuditEvent audit
        return ((proposal, true), t)

/-- The stored proposal with the review fields of another copy. -/
def reviewUpdate (current proposal : MemoryProposal) : MemoryProposal :=
  { current with
    status := proposal.status
    metadata := proposal.metadata
    reviewedAt := proposal.reviewedAt
    reviewer := proposal.reviewer
    reviewReason := proposal.reviewReason
    valid := current.valid }

/-- Update the row of a proposal. -/
def updateProposal (proposal : MemoryProposal) : PostgresMemoryLedger :=
  { s with proposals := s.proposals.put proposal }

/-- Persist the review fields of a proposal. -/
def saveProposalReview (proposal : MemoryProposal) (audit : Option AuditEvent) :
    Except Exn MemoryProposal × PostgresMemoryLedger :=
  match s.getProposal proposal.tenantId proposal.id with
  | none =>
    -- the transaction commits its audit event before the missing row is reported
    match s.insertAuditEvent audit with
    | .ok t => (.error (.keyError "memory proposal not found"), t)
    | .error e => (.error e, s)
  | some current =>
    s.transact <| do
      let t ← (s.updateProposal (reviewUpdate current proposal)).insertAuditEvent audit
      return (proposal, t)

/-- Atomically accept an open proposal with its memory and outbox event; `now` is the time of
the review. -/
def acceptProposalWithMemory (proposal : MemoryProposal) (item : MemoryItem)
    (event : IntegrationEvent) (reviewer reason idempotencyKey : String)
    (audit : Option AuditEvent) (now : DateTime) :
    Except Exn (MemoryProposal × MemoryItem × Bool) × PostgresMemoryLedger :=
  s.transact <| do
    let key := scopeIdempotencyKey item.workspaceId (some idempotencyKey)
    validateEvent item event
    match s.getProposal proposal.tenantId proposal.id with
    | none => .error (.keyError "memory proposal not found")
    | some current =>
      if current.status = .rejected then
        .error (.valueError "rejected proposal cannot be accepted")
      else
        match s.byIdempotencyKey item.tenantId key with
        | some existing => return ((current, existing, false), s)
        | none =>
          if current.status = .accepted then
            .error (.runtimeError "accepted proposal is missing its idempotent memory record")
          else do
            let t ← s.insertMemory item event key
              (.valueError "tenant or workspace is not provisioned")
            let reviewed := InMemoryMemoryStore.acceptedCopy current item reviewer reason now
            let t ← (t.updateProposal reviewed).insertAuditEvent audit
            return ((reviewed, item, true), t)

end PostgresMemoryLedger

/-- The ports of the PostgreSQL ledger. -/
def postgresStores : MemoryStores PostgresMemoryLedger where
  retention :=
    { get := fun s => s.get
      retain := fun item event key audit s => s.retain item event key audit
      supersedeIfCurrent := fun item event expected key audit s =>
        s.supersedeIfCurrent item event expected key audit }
  proposals :=
    { appendProposal := fun p key audit s => s.appendProposal p key audit
      getProposal := fun s => s.getProposal
      saveProposalReview := fun p audit s => s.saveProposalReview p audit
      acceptProposalWithMemory := fun p item event reviewer reason key audit now s =>
        s.acceptProposalWithMemory p item event reviewer reason key audit now }

end MemoryPlane
