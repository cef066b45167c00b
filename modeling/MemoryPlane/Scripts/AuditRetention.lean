import MemoryPlane.Adapters.PostgresAudit

/-!
# Audit retention

The operator script that exports the audit events before a cutoff, verifies the bundle and prunes
the same selection. The export reads page after page, newest first, and the pruning deletes batch
after batch, oldest first; between any two of these statements the system may append events.
-/

namespace MemoryPlane

namespace AuditTable

variable (t : AuditTable) (tenantId : UUID)

/-- The limit that the service passes on: `max(1, min(int(limit), 500))`. -/
def serviceLimit (limit : ℤ) : ℤ := max 1 (min limit 500)

/-- `AuditLogService.list_events` over this table. -/
def listEvents (q : AuditFilter) (createdBefore : Option DateTime) (beforeEventId : Option UUID)
    (limit : ℤ) : List AuditEvent :=
  t.listAuditEvents tenantId q createdBefore beforeEventId (serviceLimit limit)

/-- `AuditLogService.prune_events` over this table. -/
def pruneEvents (createdBefore : DateTime) (workspaceId : Option UUID) (limit : ℤ) :
    List AuditEvent × AuditTable :=
  t.pruneAuditEvents tenantId createdBefore workspaceId (serviceLimit limit)

end AuditTable

/-- The options of the script. -/
structure RetentionArgs where
  databaseUrl : Option String
  tenantId : UUID
  workspaceId : UUID
  allWorkspaces : Bool := false
  retainDays : Option ℤ := some 365
  cutoff : Option String := none
  signingKey : Option String := none
  batchSize : ℤ := 500
  maxDeleteBatches : ℤ := 100
  apply : Bool := false
  allowUnsignedExport : Bool := false

/-- What a run works with once its options are accepted. -/
structure RetentionPlan where
  tenantId : UUID
  workspaceId : Option UUID
  cutoff : DateTime
  -- the value of `--until` as the export reads it
  createdBefore : Option DateTime
  batchSize : ℤ
  maxDeleteBatches : ℤ
  apply : Bool

namespace AuditRetention

/-- A text option that is given and not empty. -/
def given (option : Option String) : Bool := option.any fun text => text ≠ ""

/-- The errors of the argument parser. -/
def checkArgs (args : RetentionArgs) : Except String Unit :=
  if !given args.databaseUrl then .error "database URL is required"
  else if args.apply && !given args.signingKey && !args.allowUnsignedExport then
    .error "--apply requires --signing-key or --allow-unsigned-export"
  else if args.retainDays.any fun days => days < 1 then .error "--retain-days must be positive"
  else .ok ()

variable (iso : IsoFormat)

/-- `_cutoff`. -/
def cutoff (value : Option String) (retainDays : Option ℤ) (now : DateTime) :
    Except Exn DateTime :=
  match value.filter fun text => text ≠ "" with
  | some text => iso.parse text
  | none =>
    let days := retainDays.getD 365
    if 999999999 < days then
      .error (.overflowError s!"days={days}; must have magnitude <= 999999999")
    else .ok (Int.sub now (days * 86400000000))

/-- `_parse_datetime` of the export. -/
def parseDatetime (value : String) : Except Exn (Option DateTime) :=
  if value = "" then .ok none else (iso.parse value).map some

/-- The plan of a run, unless the parser rejects its options or a moment cannot be read. -/
def plan (args : RetentionArgs) (now : DateTime) : Except (String ⊕ Exn) RetentionPlan := do
  (checkArgs args).mapError .inl
  let moment ← (cutoff iso args.cutoff args.retainDays now).mapError .inr
  let createdBefore ← (parseDatetime iso (iso.format moment)).mapError .inr
  return { tenantId := args.tenantId
           workspaceId := if args.allWorkspaces then none else some args.workspaceId
           cutoff := moment
           createdBefore
           batchSize := args.batchSize
           maxDeleteBatches := args.maxDeleteBatches
           apply := args.apply }

end AuditRetention

/-- Where a run stands. -/
inductive RetentionPhase where
  /-- The export asks for the page before this position. -/
  | exporting (createdBefore : Option DateTime) (beforeEventId : Option UUID)
  | exported
  /-- So many batches may still be pruned. -/
  | pruning (batches : ℕ)
  | ended
  deriving DecidableEq

/-- The audit table, the bundle so far and what was pruned. -/
structure RetentionRun where
  table : AuditTable
  phase : RetentionPhase
  bundle : List AuditEvent
  deleted : List AuditEvent
  deriving DecidableEq

/-- What may happen next: the system appends an event that was created by now, or the run takes
its next step. The export and the verification run in processes of their own, which may fail, and
every statement may raise. -/
inductive RetentionAction where
  | append (event : AuditEvent) (now : DateTime) (past : event.createdAt ≤ now)
  | page
  | verify (ok : Bool)
  | prune
  | fail

namespace RetentionPlan

variable (plan : RetentionPlan)

/-- The page size of the export, and the size of a batch as the loop of the script knows it. -/
def pageLimit : ℤ := max 1 (min plan.batchSize 500)

/-- The filters of the export. -/
def filter : AuditFilter := ⟨plan.workspaceId, none, none, none⟩

def start (table : AuditTable) : RetentionRun :=
  ⟨table, .exporting plan.createdBefore none, [], []⟩

/-- One round of the loop of `_write_events`. -/
def readPage (x : RetentionRun) (createdBefore : Option DateTime) (beforeEventId : Option UUID) :
    RetentionRun :=
  let page := x.table.listEvents plan.tenantId plan.filter createdBefore
    beforeEventId plan.pageLimit
  { x with
    bundle := x.bundle ++ page
    phase :=
      if page.length < plan.pageLimit then .exported
      else
        match page.getLast? with
        | none => .exported
        | some last => .exporting (some last.createdAt) (some last.id) }

/-- One round of the loop that prunes. -/
def pruneBatch (x : RetentionRun) (batches : ℕ) : RetentionRun :=
  let (gone, table) := x.table.pruneEvents plan.tenantId plan.cutoff
    plan.workspaceId plan.batchSize
  { x with
    table
    deleted := x.deleted ++ gone
    phase := if gone.length < plan.pageLimit then .ended else .pruning batches }

/-- One action, where it can happen. -/
def step (x : RetentionRun) : RetentionAction → Option RetentionRun
  | .append event _ _ => some { x with table := x.table.appendAuditEvent event }
  | .page =>
    match x.phase with
    | .exporting createdBefore beforeEventId =>
      some (plan.readPage x createdBefore beforeEventId)
    | _ => none
  | .verify ok =>
    match x.phase with
    | .exported =>
      some { x with
        phase :=
          if ok && plan.apply && x.bundle.length ≠ 0 then
            .pruning (max 1 plan.maxDeleteBatches).toNat
          else .ended }
    | _ => none
  | .prune =>
    match x.phase with
    | .pruning (batches + 1) => some (plan.pruneBatch x batches)
    | _ => none
  | .fail => some { x with phase := .ended }

/-- A sequence of actions. -/
def run : List RetentionAction → RetentionRun → Option RetentionRun
  | [], x => some x
  | action :: rest, x => (plan.step x action).bind (run rest)

end RetentionPlan

end MemoryPlane
