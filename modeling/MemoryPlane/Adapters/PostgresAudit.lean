import MemoryPlane.Adapters.Listings

/-!
# Audit events in PostgreSQL

The table of audit events behind its row policy: appending, listing newest first behind a cursor,
and pruning oldest first up to a cutoff. A role that bypasses row policies sees the rows of every
tenant, but prunes those of one.
-/

namespace MemoryPlane

/-- The table `audit_events`, and whether the role of the connection is subject to its policy. -/
structure AuditTable where
  rows : Table AuditEvent fun event => event.id
  rowSecurity : Bool
  deriving DecidableEq

/-- The event passes the optional filters of a query. -/
def AuditFilter.admits (q : AuditFilter) (event : AuditEvent) : Bool :=
  q.workspaceId.all (fun w => event.workspaceId = some w) &&
    q.action.all (fun a => event.action = a) &&
    q.resourceType.all (fun r => event.resourceType = r) &&
    q.createdAfter.all (fun t => t ≤ event.createdAt)

namespace AuditTable

variable (t : AuditTable) (tenantId : UUID)

/-- A transaction of the tenant sees the row. -/
def sees (event : AuditEvent) : Bool := !t.rowSecurity || event.tenantId = tenantId

/-- `insert into audit_events ... on conflict (id) do nothing`. -/
def appendAuditEvent (event : AuditEvent) : AuditTable := { t with rows := t.rows.setDefault event }

/-- The rows of a listing: those that are seen, pass the filters and lie before the cursor. -/
def listed (q : AuditFilter) (createdBefore : Option DateTime) (beforeEventId : Option UUID) :
    List AuditEvent :=
  t.rows.rows.filter fun event => t.sees tenantId event && q.admits event &&
    printedBefore event.createdAt event.id createdBefore beforeEventId

/-- List recent audit events under RLS. -/
def listAuditEvents (q : AuditFilter) (createdBefore : Option DateTime)
    (beforeEventId : Option UUID) (limit : ℤ) : List AuditEvent :=
  -- callers of the API request one row more than the public page of 500
  let safeLimit := max 1 (min limit 501)
  (sortedByDesc auditKey (t.listed tenantId q createdBefore beforeEventId)).take safeLimit.toNat

/-- The rows that pruning selects. -/
def expired (createdBefore : DateTime) (workspaceId : Option UUID) : List AuditEvent :=
  t.rows.rows.filter fun event => t.sees tenantId event && event.createdAt < createdBefore &&
    workspaceId.all fun w => event.workspaceId = some w

/-- `doomed`: the identifiers of the oldest of these rows. -/
def doomed (createdBefore : DateTime) (workspaceId : Option UUID) (limit : ℤ) : List UUID :=
  let safeLimit := max 1 (min limit 500)
  ((sortedBy auditKey (t.expired tenantId createdBefore workspaceId)).take safeLimit.toNat).map
    fun event => event.id

/-- Delete old audit events under RLS after external retention export; the deleted rows and the
table without them. -/
def pruneAuditEvents (createdBefore : DateTime) (workspaceId : Option UUID) (limit : ℤ) :
    List AuditEvent × AuditTable :=
  let gone := fun event : AuditEvent =>
    decide (event.id ∈ t.doomed tenantId createdBefore workspaceId limit) &&
      event.tenantId = tenantId
  (t.rows.rows.filter gone, { t with rows := t.rows.filter fun event => !gone event })

end AuditTable

end MemoryPlane
