import MemoryPlane.Adapters.Listings

/-!
# Listing endpoints

Four endpoints serve a listing page by page. Each clamps the limit of the client, asks for one row
more than the page holds, and hands out the position of the last row while more rows follow.
-/

namespace MemoryPlane

/-- `HTTPException`. -/
structure HTTPException where
  statusCode : ℕ
  detail : String
  deriving DecidableEq

/-- What a listing endpoint answers. -/
structure ListingResponse (α : Type) where
  count : ℕ
  limit : ℤ
  hasMore : Bool
  nextCreatedAt : Option DateTime
  nextId : Option UUID
  rows : List α
  deriving DecidableEq

/-- The page of fetched rows that a response shows: a row beyond the limit says that more follow. -/
def listingResponse {α : Type} (createdAt : α → DateTime) (id : α → UUID) (safeLimit : ℤ)
    (fetched : List α) : ListingResponse α :=
  let hasMore := decide (safeLimit < fetched.length)
  let rows := sliceTo safeLimit fetched
  let cursor := if hasMore then rows.getLast? else none
  { count := rows.length
    limit := safeLimit
    hasMore := hasMore
    nextCreatedAt := cursor.map createdAt
    nextId := cursor.map id
    rows := rows }

/-- `max(1, min(int(limit), most))`. -/
def clampLimit (most limit : ℤ) : ℤ := max 1 (min limit most)

/-- List recent audit events under the tenant boundary. -/
def AuditLogService.listEvents (s : InMemoryMemoryStore) (tenantId : UUID) (q : AuditFilter)
    (createdBefore : Option DateTime) (beforeEventId : Option UUID) (limit : ℤ) :
    List AuditEvent :=
  s.listAuditEvents tenantId q createdBefore beforeEventId (clampLimit 500 limit)

/-- Export recent audit events for operator review and incident response. -/
def listAuditEvents (s : InMemoryMemoryStore) (tenantId : UUID)
    (workspaceId : Option UUID) (action resourceType : Option String) (limit : ℤ)
    (beforeCreatedAt : Option DateTime) (beforeEventId : Option UUID) :
    Except HTTPException (ListingResponse AuditEvent) :=
  let safeLimit := clampLimit 500 limit
  .ok <| listingResponse (fun e => e.createdAt) (fun e => e.id) safeLimit <|
    AuditLogService.listEvents s tenantId ⟨workspaceId, action, resourceType, none⟩
      beforeCreatedAt beforeEventId (safeLimit + 1)

/-- List recent raw transcript turns for operator review. -/
def listConversationTurns (s : ConversationStore) (tenantId workspaceId : UUID)
    (threadId : Option UUID) («namespace» : Option String) (limit : ℤ)
    (beforeCreatedAt : Option DateTime) (beforeTurnId : Option UUID) :
    Except HTTPException (ListingResponse ConversationTurn) :=
  let safeLimit := clampLimit 200 limit
  .ok <| listingResponse (fun t => t.createdAt) (fun t => t.id) safeLimit <|
    s.listTurns tenantId workspaceId ⟨threadId, «namespace»⟩ beforeCreatedAt beforeTurnId
      (safeLimit + 1)

/-- List proposed memory updates for review. -/
def listMemoryProposals (s : InMemoryMemoryStore) (tenantId workspaceId : UUID)
    («namespace» : Option String) (status : Option MemoryProposalStatus) (limit : ℤ)
    (beforeCreatedAt : Option DateTime) (beforeProposalId : Option UUID) :
    Except HTTPException (ListingResponse MemoryProposal) :=
  if beforeCreatedAt.isNone != beforeProposalId.isNone then
    .error ⟨422, "before_created_at and before_proposal_id must be supplied together"⟩
  else
    let safeLimit := clampLimit 200 limit
    .ok <| listingResponse (fun p => p.createdAt) (fun p => p.id) safeLimit <|
      s.listProposals tenantId workspaceId ⟨«namespace», status⟩ beforeCreatedAt beforeProposalId
        (safeLimit + 1)

/-- List incoming and outgoing graph edges for a memory item. -/
def listGraphNeighbors (s : GraphStore) (itemId workspaceId tenantId : UUID)
    (edgeType : Option MemoryEdgeType) (limit : ℤ) (afterCreatedAt : Option DateTime)
    (afterEdgeId : Option UUID) : Except HTTPException (ListingResponse MemoryEdge) :=
  if afterCreatedAt.isNone != afterEdgeId.isNone then
    .error ⟨422, "after_created_at and after_edge_id must be supplied together"⟩
  else
    let safeLimit := clampLimit 500 limit
    .ok <| listingResponse (fun e => e.createdAt) (fun e => e.id) safeLimit <|
      s.listNeighbors tenantId workspaceId itemId edgeType afterCreatedAt afterEdgeId
        (safeLimit + 1)

namespace ListingResponse

variable {α : Type}

/-- The position that a client sends back: it has both parts or none. -/
def cursor (r : ListingResponse α) : Option Cursor :=
  match r.nextCreatedAt, r.nextId with
  | some t, some i => some (toLex (t, i))
  | _, _ => none

/-- What a client makes of a response. -/
def page (r : ListingResponse α) : Paging.Page α Cursor := ⟨r.rows, r.hasMore, r.cursor⟩

/-- The requests of a client who sends back the position of the last response. -/
def fetch (endpoint : Option DateTime → Option UUID → Except HTTPException (ListingResponse α))
    (cursor : Option Cursor) : Except HTTPException (Paging.Page α Cursor) :=
  (endpoint (cursor.map fun c => (ofLex c).1) (cursor.map fun c => (ofLex c).2)).map page

theorem page_listingResponse (createdAt : α → DateTime) (id : α → UUID) (size : ℕ)
    (fetched : List α) :
    (listingResponse createdAt id size fetched).page =
      Paging.cutPage (fun x => toLex (createdAt x, id x)) size fetched := by
  have hmore : decide ((size : ℤ) < fetched.length) = decide (size < fetched.length) := by
    rw [decide_eq_decide]
    omega
  simp only [page, cursor, listingResponse, Paging.cutPage, sliceTo_natCast, hmore]
  congr 1
  cases decide (size < fetched.length) with
  | false => rfl
  | true => cases (fetched.take size).getLast? <;> rfl

end ListingResponse

/-- Following the positions that an endpoint hands out, from its first page on, a client receives
these pages. -/
def Traverses {α : Type}
    (endpoint : Option DateTime → Option UUID → Except HTTPException (ListingResponse α))
    (pages : List (List α)) : Prop :=
  Paging.Follows (ListingResponse.fetch endpoint) none pages

end MemoryPlane
