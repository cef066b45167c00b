import MemoryPlane.Adapters.Conversations
import MemoryPlane.Domain.Graph
import MemoryPlane.Lib.Keyset

/-!
# Listings of the in-memory store

Audit events, conversation turns and proposals are listed newest first, graph edges oldest first,
each behind a cursor of a moment and an identifier. The cursor of a listing may compare printed
identifiers where the order compares the identifiers themselves.
-/

namespace MemoryPlane

/-- A position in a listing: a moment and an identifier. -/
abbrev Cursor := DateTime ×ₗ UUID

/-- `rows[:limit]`. -/
def sliceTo {α : Type} (limit : ℤ) (rows : List α) : List α :=
  if 0 ≤ limit then rows.take limit.toNat else rows.take (rows.length - limit.natAbs)

theorem sliceTo_natCast {α : Type} (n : ℕ) (rows : List α) : sliceTo n rows = rows.take n := by
  rw [sliceTo, if_pos (by omega), Int.toNat_natCast]

/-- The optional filters of an audit listing. -/
structure AuditFilter where
  workspaceId : Option UUID
  action : Option String
  resourceType : Option String
  createdAfter : Option DateTime
  deriving DecidableEq

/-- The event passes the filters of one tenant's listing. -/
def AuditFilter.selects (q : AuditFilter) (tenantId : UUID) (event : AuditEvent) : Bool :=
  event.tenantId = tenantId && q.workspaceId.all (fun w => event.workspaceId = some w) &&
    q.action.all (fun a => event.action = a) &&
    q.resourceType.all (fun r => event.resourceType = r) &&
    q.createdAfter.all (fun t => t ≤ event.createdAt)

/-- The optional filters of a listing of turns. -/
structure TurnFilter where
  threadId : Option UUID
  «namespace» : Option String
  deriving DecidableEq

/-- The turn passes the filters of one workspace's listing. -/
def TurnFilter.selects (q : TurnFilter) (tenantId workspaceId : UUID) (turn : ConversationTurn) :
    Bool :=
  turn.tenantId = tenantId && turn.workspaceId = workspaceId &&
    q.threadId.all (fun t => turn.threadId = t) && q.namespace.all (fun n => turn.namespace = n)

/-- The optional filters of a listing of proposals. -/
structure ProposalFilter where
  «namespace» : Option String
  status : Option MemoryProposalStatus
  deriving DecidableEq

/-- The proposal passes the filters of one workspace's listing. -/
def ProposalFilter.selects (q : ProposalFilter) (tenantId workspaceId : UUID)
    (proposal : MemoryProposal) : Bool :=
  proposal.tenantId = tenantId && proposal.workspaceId = workspaceId &&
    q.namespace.all (fun n => proposal.namespace = n) &&
    q.status.all (fun s => proposal.status = s)

/-- The edge touches the item and has the type asked for. -/
def MemoryEdge.isNeighbor (edge : MemoryEdge) (tenantId workspaceId itemId : UUID)
    (edgeType : Option MemoryEdgeType) : Bool :=
  edge.tenantId = tenantId && edge.workspaceId = workspaceId &&
    (edge.srcId = itemId || edge.dstId = itemId) && edgeType.all fun t => edge.edgeType = t

def auditKey (event : AuditEvent) : Cursor := toLex (event.createdAt, event.id)

def turnKey (turn : ConversationTurn) : Cursor := toLex (turn.createdAt, turn.id)

def proposalKey (proposal : MemoryProposal) : Cursor := toLex (proposal.createdAt, proposal.id)

def edgeKey (edge : MemoryEdge) : Cursor := toLex (edge.createdAt, edge.id)

/-- Behind a moment, or at it with a smaller printed identifier. -/
def printedBefore (createdAt : DateTime) (id : UUID) (before : Option DateTime)
    (beforeId : Option UUID) : Bool :=
  before.all fun t => createdAt < t || beforeId.any fun i => createdAt = t && id.str < i.str

/-- List recent audit events for operator review. -/
def InMemoryMemoryStore.listAuditEvents (s : InMemoryMemoryStore) (tenantId : UUID)
    (q : AuditFilter) (createdBefore : Option DateTime) (beforeEventId : Option UUID)
    (limit : ℤ) : List AuditEvent :=
  sliceTo limit <| sortedByDesc auditKey <| s.auditEvents.rows.filter fun event =>
    q.selects tenantId event && printedBefore event.createdAt event.id createdBefore beforeEventId

/-- List recent raw conversation turns. -/
def ConversationStore.listTurns (s : ConversationStore) (tenantId workspaceId : UUID)
    (q : TurnFilter) (beforeCreatedAt : Option DateTime) (beforeTurnId : Option UUID)
    (limit : ℤ) : List ConversationTurn :=
  sliceTo limit <| sortedByDesc turnKey <| s.turns.rows.filter fun turn =>
    q.selects tenantId workspaceId turn &&
      printedBefore turn.createdAt turn.id beforeCreatedAt beforeTurnId

/-- List recent memory proposals. -/
def InMemoryMemoryStore.listProposals (s : InMemoryMemoryStore) (tenantId workspaceId : UUID)
    (q : ProposalFilter) (beforeCreatedAt : Option DateTime) (beforeProposalId : Option UUID)
    (limit : ℤ) : List MemoryProposal :=
  sliceTo limit <| sortedByDesc proposalKey <| s.proposals.rows.filter fun proposal =>
    q.selects tenantId workspaceId proposal &&
      beforeCreatedAt.all fun t => beforeProposalId.all fun i => proposalKey proposal < toLex (t, i)

/-- The store with its graph. -/
structure GraphStore extends ConversationStore where
  edges : Table MemoryEdge fun e => e.id
  deriving DecidableEq

/-- List incoming and outgoing graph edges. -/
def GraphStore.listNeighbors (s : GraphStore) (tenantId workspaceId itemId : UUID)
    (edgeType : Option MemoryEdgeType) (afterCreatedAt : Option DateTime)
    (afterEdgeId : Option UUID) (limit : ℤ) : List MemoryEdge :=
  let rows := s.edges.rows.filter fun edge =>
    edge.isNeighbor tenantId workspaceId itemId edgeType &&
      afterCreatedAt.all fun t => afterEdgeId.all fun i => toLex (t, i) < edgeKey edge
  -- One row beyond the public page of 500 may be asked for.
  let safeLimit := max 1 (min limit 501)
  sliceTo safeLimit (sortedBy edgeKey rows)

/-- Comparing printed identifiers compares positions. -/
theorem printedBefore_iff {createdAt : DateTime} {id : UUID} {cursor : Option Cursor} :
    printedBefore createdAt id (cursor.map fun c => (ofLex c).1)
        (cursor.map fun c => (ofLex c).2) =
      cursor.all fun c => toLex (createdAt, id) < c := by
  cases cursor with
  | none => rfl
  | some c =>
    rw [printedBefore, Bool.eq_iff_iff]
    simp only [Option.map_some, Option.all_some, Option.any_some, Bool.or_eq_true,
      Bool.and_eq_true, decide_eq_true_eq, UUID.str_lt_str, Prod.Lex.lt_iff, ofLex_toLex]

end MemoryPlane
