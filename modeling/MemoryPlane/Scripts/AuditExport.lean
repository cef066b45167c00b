import MemoryPlane.Api.Listings
import MemoryPlane.Python.JsonText
import MemoryPlane.Python.Utf8

/-!
# Audit export

The script that streams audit events into a file of JSON lines, page after page and newest first,
and collects the digest and the bounds of what it wrote. An event whose texts cannot be encoded ends
the export with an exception.
-/

namespace MemoryPlane

/-- The parts of the standard library that the export uses. -/
structure ExportRuntime where
  floats : FloatText
  isoformat : DateTime → String
  /-- The characters that stand for surrogate code points. -/
  surrogate : Char → Bool
  /-- The hexadecimal digest of some bytes. -/
  sha256 : List UInt8 → String

/-- Digest and bounded metadata collected while JSONL is streamed to disk. -/
structure AuditExportStats where
  eventCount : ℕ
  pageCount : ℕ
  byteCount : ℕ
  sha256 : String
  newest : Option DateTime
  oldest : Option DateTime
  deriving DecidableEq

/-- The options of an export. -/
structure ExportOptions where
  tenantId : UUID
  filter : AuditFilter
  createdBefore : Option DateTime
  limit : ℤ
  batchSize : ℤ
  allPages : Bool

/-- What an export has written and counted; the digest is given by the bytes it has seen. -/
structure ExportState where
  file : List UInt8
  digest : List UInt8
  count : ℕ
  pages : ℕ
  byteCount : ℕ
  newest : Option DateTime
  oldest : Option DateTime
  deriving DecidableEq

/-- A file with its statistics. -/
structure AuditExport where
  file : List UInt8
  stats : AuditExportStats
  deriving DecidableEq

/-- A text of the event holds a surrogate, so that its line cannot be encoded. -/
def ExportRuntime.hasSurrogate (rt : ExportRuntime) (event : AuditEvent) : Bool :=
  let bad := Utf8.hasSurrogate rt.surrogate
  [event.action, event.actor, event.actorType, event.resourceType, event.status].any bad ||
    event.resourceId.any bad || (Json.obj event.metadata).anyText bad

namespace AuditExport

variable (rt : ExportRuntime)

/-- `_json_ready(event)`. -/
def jsonReady (event : AuditEvent) : Json :=
  let text (value : Option String) : Json := (value.map Json.str).getD .null
  .obj [("tenant_id", .str event.tenantId.str),
    ("workspace_id", text (event.workspaceId.map UUID.str)),
    ("action", .str event.action), ("actor", .str event.actor),
    ("actor_type", .str event.actorType),
    ("resource_type", .str event.resourceType), ("resource_id", text event.resourceId),
    ("status", .str event.status), ("metadata", .obj event.metadata), ("id", .str event.id.str),
    ("created_at", .str (rt.isoformat event.createdAt))]

/-- The line of one event. -/
def line (event : AuditEvent) : Except String (List UInt8) :=
  if rt.hasSurrogate event then .error "UnicodeEncodeError: surrogates not allowed"
  else .ok (Utf8.encode (Json.dumps rt.floats false (jsonReady rt event) ++ ['\n']))

def start : ExportState := ⟨[], [], 0, 0, 0, none, none⟩

/-- The line of an event is written, hashed and counted. -/
def wroteLine (st : ExportState) (event : AuditEvent) (line : List UInt8) : ExportState where
  file := st.file ++ line
  digest := st.digest ++ line
  count := st.count + 1
  pages := st.pages
  byteCount := st.byteCount + line.length
  newest := some (st.newest.elim event.createdAt fun newest => max newest event.createdAt)
  oldest := some (st.oldest.elim event.createdAt fun oldest => min oldest event.createdAt)

/-- Write one event. -/
def writeEvent (st : ExportState) (event : AuditEvent) : Except String ExportState := do
  return wroteLine st event (← line rt event)

/-- Write one page. -/
def writePage (st : ExportState) (page : List AuditEvent) : Except String ExportState :=
  page.foldlM (writeEvent rt) { st with pages := st.pages + 1 }

variable (s : InMemoryMemoryStore) (options : ExportOptions)

/-- The size of a page. -/
def pageLimit : ℤ := max 1 (min (if options.allPages then options.batchSize else options.limit) 500)

/-- One page before a position. -/
def fetch (createdBefore : Option DateTime) (beforeEventId : Option UUID) : List AuditEvent :=
  AuditLogService.listEvents s options.tenantId options.filter createdBefore beforeEventId
    (pageLimit options)

/-- One round of the loop: its last event where another page follows. -/
def writeRound (createdBefore : Option DateTime) (beforeEventId : Option UUID) (st : ExportState) :
    Except String (ExportState × Option AuditEvent) := do
  let page := fetch s options createdBefore beforeEventId
  let st ← writePage rt st page
  if !options.allPages || decide ((page.length : ℤ) < pageLimit options) then return (st, none)
  else
    match page.getLast? with
    | none => throw "IndexError: tuple index out of range"
    | some last => return (st, some last)

/-- What follows a round: its exception, its state, or the next round behind its last event. -/
def afterRound
    (next : Option DateTime → Option UUID → ExportState → Option (Except String ExportState)) :
    Except String (ExportState × Option AuditEvent) → Option (Except String ExportState)
  | .error e => some (.error e)
  | .ok (st, none) => some (.ok st)
  | .ok (st, some last) => next (some last.createdAt) (some last.id) st

/-- The loop over the pages: `none` while so many rounds have not been enough. -/
def writePages : ℕ → Option DateTime → Option UUID → ExportState →
    Option (Except String ExportState)
  | 0, _, _, _ => none
  | rounds + 1, createdBefore, beforeEventId, st =>
    afterRound (writePages rounds) (writeRound rt s options createdBefore beforeEventId st)

/-- The result of an export. -/
def finish (st : ExportState) : AuditExport :=
  ⟨st.file, ⟨st.count, st.pages, st.byteCount, rt.sha256 st.digest, st.newest, st.oldest⟩⟩

/-- Stream cursor pages into JSONL. -/
def writeEvents (rounds : ℕ) : Option (Except String AuditExport) :=
  (writePages rt s options rounds options.createdBefore none start).map (·.map (finish rt))

/-- The events that an export is to write. -/
def matching : List AuditEvent :=
  s.auditEvents.rows.filter fun event => options.filter.selects options.tenantId event &&
    options.createdBefore.all fun t => event.createdAt < t

end AuditExport

end MemoryPlane
