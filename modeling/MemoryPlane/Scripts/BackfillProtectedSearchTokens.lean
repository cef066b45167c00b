import Mathlib.Algebra.GroupWithZero.Nat
import Mathlib.Data.Prod.Lex
import MemoryPlane.Adapters.ProtectedIndex
import MemoryPlane.Lib.Paging

/-!
# Backfill of the protected index

A run indexes the rows of one workspace behind a cursor, batch by batch in the order of their
creation, and saves the cursor that it reached in a state file. The file says nothing about the key
under which the rows before the cursor were indexed.
-/

namespace MemoryPlane

/-- Where a run stands: the moment and the identifier of the last row. -/
abbrev BackfillCursor := DateTime ×ₗ UUID

/-- The place of a row in the order of the scan. -/
def rowKey (r : MemoryRow) : BackfillCursor := toLex (r.item.createdAt, r.item.id)

/-- The options of a run, and the active key of the ledger if the index is on. -/
structure BackfillOptions where
  key : Option ProtectedKey
  batchSize : ℤ := 500
  maxBatches : Option ℤ := none
  dryRun : Bool := false

/-- What a run reports. -/
structure BackfillReport where
  completedAt : DateTime
  tenantId : UUID
  workspaceId : UUID
  keyVersion : ℕ
  dryRun : Bool
  complete : Bool
  batches : ℕ
  rowsScanned : ℕ
  digestsWritten : ℕ
  cursor : Option BackfillCursor

/-- The tables and the state file that the runs on one workspace share. -/
structure BackfillWorld (δ : Type) extends ProtectedTables δ where
  state : Option BackfillCursor

namespace Backfill

variable {δ : Type} [LinearOrder δ] (u : Unicode) (hmac : String → List Char → δ)
  (tenantId workspaceId : UUID)

/-- The row belongs to the workspace and is not deleted. -/
def inScope (r : MemoryRow) : Bool :=
  r.item.tenantId = tenantId ∧ r.item.workspaceId = workspaceId ∧ r.deleted = false

/-- The rows that a run may read. -/
def scopeRows (x : ProtectedTables δ) : List MemoryRow :=
  x.rows.rows.filter (inScope tenantId workspaceId)

/-- The loop of a run that may read so many batches. -/
def scanRows (x : ProtectedTables δ) (batchSize limit : ℕ) (cursor : Option BackfillCursor) :
    Paging.Scan MemoryRow BackfillCursor :=
  Paging.scan rowKey batchSize (scopeRows tenantId workspaceId x) limit cursor

/-- The tables after the committed batches of a run. -/
def indexRows (k : ProtectedKey) (dryRun : Bool) (visited : List MemoryRow)
    (x : ProtectedTables δ) : ProtectedTables δ :=
  if dryRun then x
  else ⟨x.rows, insertTokens x.tokens (visited.flatMap fun r => indexTokens u hmac k r.item)⟩

/-- The checks of a run: its key, and its batch size and number as natural numbers. Without a
number of batches a run goes on until no row is left, for which one more than there are rows is
enough. -/
def admitted (x : ProtectedTables δ) (o : BackfillOptions) : Except Exn (ProtectedKey × ℕ × ℕ) :=
  match o.key with
  | none => .error (.valueError "UAM_PROTECTED_SEARCH_INDEX must be hmac-v1 for backfill")
  | some k =>
    if ¬(1 ≤ o.batchSize ∧ o.batchSize ≤ 10000) then
      .error (.valueError "batch_size must be between 1 and 10000")
    else
      match o.maxBatches with
      | none => .ok (k, o.batchSize.toNat, x.rows.rows.length + 1)
      | some n =>
        if n < 1 then .error (.valueError "max_batches must be positive when provided")
        else .ok (k, o.batchSize.toNat, n.toNat)

/-- `backfill_workspace`. -/
def backfillWorkspace (x : ProtectedTables δ) (cursor : Option BackfillCursor) (o : BackfillOptions)
    (now : DateTime) : Except Exn (BackfillReport × ProtectedTables δ) :=
  (admitted x o).map fun (k, batchSize, limit) =>
    let scan := scanRows tenantId workspaceId x batchSize limit cursor
    (⟨now, tenantId, workspaceId, k.version, o.dryRun, scan.complete, scan.pages.length,
        scan.visited.length,
        (scan.visited.map fun r => (protectedIndexDigests u hmac r.item.text k.key).length).sum,
        scan.cursor⟩,
      indexRows u hmac k o.dryRun scan.visited x)

/-- `main`: the state file is read before the run and written after it, unless the run is dry. -/
def main (w : BackfillWorld δ) (o : BackfillOptions) (now : DateTime) :
    Except Exn (BackfillReport × BackfillWorld δ) :=
  (backfillWorkspace u hmac tenantId workspaceId w.toProtectedTables w.state o now).map
    fun (report, x) => (report, ⟨x, if o.dryRun then w.state else report.cursor⟩)

/-- A run that is interrupted before it writes the state file keeps its first batches, at most so
many. -/
def interrupt (w : BackfillWorld δ) (o : BackfillOptions) (batches : ℕ) : BackfillWorld δ :=
  match admitted w.toProtectedTables o with
  | .error _ => w
  | .ok (k, batchSize, limit) =>
    ⟨indexRows u hmac k o.dryRun
      (scanRows tenantId workspaceId w.toProtectedTables batchSize (min batches limit)
        w.state).visited w.toProtectedTables, w.state⟩

/-- What happens between the reports of a workspace. -/
inductive Event where
  /-- A memory is appended by a writer, which indexes it if its own index is on. -/
  | append (row : MemoryRow) (writer : Option ProtectedKey)
  | run (o : BackfillOptions) (now : DateTime)
  | interrupted (o : BackfillOptions) (batches : ℕ)

/-- A canonical row under a new identifier, and its tokens. -/
def appendRow (row : MemoryRow) (writer : Option ProtectedKey) (x : ProtectedTables δ) :
    ProtectedTables δ :=
  match x.rows.find row.item.id with
  | some _ => x
  | none =>
    ⟨x.rows.put row,
      insertTokens x.tokens ((writer.map fun k => indexTokens u hmac k row.item).getD [])⟩

/-- One event. -/
def step (w : BackfillWorld δ) : Event → BackfillWorld δ
  | .append row writer =>
    { w with toProtectedTables := appendRow u hmac row writer w.toProtectedTables }
  | .run o now =>
    match main u hmac tenantId workspaceId w o now with
    | .ok (_, w') => w'
    | .error _ => w
  | .interrupted o batches => interrupt u hmac tenantId workspaceId w o batches

/-- The events in order. -/
def after (w : BackfillWorld δ) (events : List Event) : BackfillWorld δ :=
  events.foldl (step u hmac tenantId workspaceId) w

end Backfill

end MemoryPlane
