import Mathlib.Data.String.Basic
import MemoryPlane.Lib.Sequences
import MemoryPlane.Python.JsonOperations
import MemoryPlane.Python.Urls
import MemoryPlane.Services.Replay

/-!
# Reports of a release

Every report that a release manifest lists has a verifier of its own. It is called with whatever
object the report decodes to, and what it raises is not caught.
-/

namespace MemoryPlane

/-- One release evidence verification result. -/
structure EvidenceCheck where
  name : String
  passed : Bool
  detail : String
  deriving DecidableEq

/-- What `datetime.fromisoformat` returns: the time that is written, in microseconds, and the offset
of its time zone, if it has one. -/
structure Timestamp where
  wall : ℤ
  offset : Option ℤ
  deriving DecidableEq

/-- The parts of the standard library that the verifier uses; exceptions that it catches are given
by the text of their type and message. -/
structure EvidenceRuntime extends ReplayRuntime where
  url : UrlRuntime
  loads : List Char → Except String JsonValue
  /-- `json.dumps` with sorted names and without blanks. -/
  dumps : JsonValue → List Char
  decodeError : List UInt8 → String
  repr : JsonValue → String
  reprPairs : List (String × String) → String
  /-- The characters that stand for surrogate code points. -/
  surrogate : Char → Bool
  sha256 : List UInt8 → List UInt8
  hmacSha256 : List UInt8 → List UInt8 → List UInt8
  /-- `datetime.fromisoformat`, or the message of its `ValueError`. -/
  fromIsoformat : List Char → Except String Timestamp
  isoformat : Timestamp → String
  formatFloat : PyFloat → String
  /-- A number of hours in the format `.2f`. -/
  formatHours : PyFloat → String
  /-- The hours of a time in microseconds, not below zero, in the format `.2f`. -/
  formatAge : ℤ → String
  /-- `timedelta(hours=h)` in microseconds: `none` where it overflows. -/
  timedeltaHours : ℚ → Option ℤ

namespace ReleaseReports

variable (rt : EvidenceRuntime)

/-- `s.lower()`. -/
def lower (s : String) : String := String.ofList (rt.url.lower s.toList)

/-- `str(value)`. -/
def toText (v : JsonValue) : String := Replay.toText rt.toReplayRuntime v

/-- `int(value)`. -/
def toInt (v : JsonValue) : Except Exn ℤ :=
  bif v.textWith (fun s => tooManyDigits rt.unicode s.toList) then
    .error (.valueError "Exceeds the limit (4300 digits) for integer string conversion")
  else v.toInt rt.unicode

/-- `value or 0`. -/
def orZero (v : JsonValue) : JsonValue := bif v.truthy then v else .int 0

/-- `value or []`. -/
def orEmpty (v : JsonValue) : JsonValue := bif v.truthy then v else .arr []

def formatCheck (name : String) (payload : JsonMembers) (expected : String) : EvidenceCheck :=
  let actual := JsonValue.get payload "format"
  let passed := actual.equal (.str expected)
  { name := name ++ ":format"
    passed
    detail := bif passed then "format=" ++ expected
      else "expected " ++ expected ++ ", got " ++ rt.repr actual }

def okCheck (name : String) (payload : JsonMembers) : EvidenceCheck :=
  let ok := JsonValue.get payload "ok"
  { name := name ++ ":ok"
    passed := ok.isBool true
    detail := bif ok.isBool true then "ok=true" else "ok is " ++ rt.repr ok }

/-- The name of a row of checks, if it has one. -/
def checkName : JsonValue → Option String
  | .obj row =>
    let name := JsonValue.get row "name"
    bif name.truthy then some (toText rt name) else none
  | _ => none

def checkNames (payload : JsonMembers) : List String :=
  match JsonValue.getD payload "checks" (.arr []) with
  | .arr rows => rows.filterMap (checkName rt)
  | _ => []

/-- `sorted(required - names)`. -/
def missingNames (required names : List String) : List String :=
  sortedBy id (required.filter fun name => !names.elem name)

/-- The check that no name is missing. -/
def requiredChecks (name present : String) (missing : List String) : EvidenceCheck :=
  { name := name ++ ":required-checks"
    passed := missing.isEmpty
    detail := bif missing.isEmpty then present else "missing: " ++ ", ".intercalate missing }

/-- A report with a format and a list of required checks. -/
def verifyReport (name format : String) (required : List String) (payload : JsonMembers) :
    List EvidenceCheck :=
  [formatCheck rt name payload format, okCheck rt name payload,
    requiredChecks name "required checks present" (missingNames required (checkNames rt payload))]

def verifyAgentSoak (payload : JsonMembers) : List EvidenceCheck :=
  let names := checkNames rt payload
  [formatCheck rt "agent_soak" payload "obelisk-agent-soak-v1", okCheck rt "agent_soak" payload,
    { name := "agent_soak:openclaw"
      passed := names.any fun name => "openclaw:recall:".toList.isPrefixOf name.toList
      detail := "OpenClaw recall lifecycle evidence present" },
    { name := "agent_soak:hermes"
      passed := names.any fun name => "hermes:recall:".toList.isPrefixOf name.toList
      detail := "Hermes recall lifecycle evidence present" },
    requiredChecks "agent_soak" "required checks present"
      (missingNames ["build-identity", "health", "cross-workspace-leakage"] names)]

def verifyMemoryLlm : JsonMembers → List EvidenceCheck :=
  verifyReport rt "memory_llm" "obelisk-memory-llm-eval-v1"
    ["chat-completions", "json-memory-curation"]

def verifyConversationPipeline (payload : JsonMembers) : List EvidenceCheck :=
  verifyReport rt "conversation_pipeline" "obelisk-conversation-pipeline-v1"
    ["build-identity", "raw-turn-stored", "raw-turn-listed", "raw-turn-not-recalled",
      "curation-created-memory", "curated-memory-recalled"] payload ++
  [{ name := "conversation_pipeline:turn-and-memory"
     passed := (JsonValue.get payload "turn_id").truthy &&
       (JsonValue.get payload "memory_id").truthy
     detail := "raw turn and curated memory ids present" }]

def verifyEmbedding : JsonMembers → List EvidenceCheck :=
  verifyReport rt "embedding" "obelisk-embedding-eval-v1"
    ["endpoint-reachable", "dimension", "semantic:storage routing",
      "semantic:production embedding model", "semantic:openclaw integration",
      "semantic:hermes integration"]

def verifyMetricsHealth : JsonMembers → List EvidenceCheck :=
  verifyReport rt "metrics_health" "obelisk-metrics-health-v1"
    ["outbox_pending_total", "outbox_dead_letter_total", "outbox_lag_seconds",
      "processed_events_inflight_total"]

def verifyOpsSchedule : JsonMembers → List EvidenceCheck :=
  verifyReport rt "ops_schedule" "obelisk-ops-schedule-preflight-v1"
    ["backup-schedule:file-exists", "backup-schedule:required-command",
      "audit-retention-schedule:file-exists", "audit-retention-schedule:required-command",
      "metrics-schedule:file-exists", "metrics-schedule:required-command",
      "UAM_BACKUP_ALERT_WEBHOOK:configured", "UAM_METRICS_ALERT_WEBHOOK:configured",
      "backup-artifact-root:durable-prefix", "audit-artifact-root:durable-prefix"]

def verifyObservability : JsonMembers → List EvidenceCheck :=
  verifyReport rt "observability" "obelisk-observability-preflight-v1"
    ["grafana-dashboard:json-valid", "grafana-dashboard:required-metrics",
      "prometheus-alerts:required-alerts", "prometheus-alerts:required-metrics",
      "prometheus-alerts:production-group"]

/-- `int(agents or 0) >= 2 and int(total_operations or 0) >= 4`. -/
def parallelism (payload : JsonMembers) : Except Exn Bool := do
  let agents ← toInt rt (orZero (JsonValue.get payload "agents"))
  bif decide (2 ≤ agents) then do
    let operations ← toInt rt (orZero (JsonValue.get payload "total_operations"))
    return decide (4 ≤ operations)
  else return false

def verifyLoadSmoke (payload : JsonMembers) : Except Exn (List EvidenceCheck) := do
  let passed ← parallelism rt payload
  return verifyReport rt "load_smoke" "obelisk-load-smoke-v1"
    ["build-identity", "health", "concurrent-retain-recall", "error-rate", "retain-p95",
      "recall-p95", "metrics-backlog"] payload ++
    [{ name := "load_smoke:parallelism", passed, detail := "parallel load evidence present" }]

def verifyReleaseNotes (payload : JsonMembers) : Except Exn (List EvidenceCheck) := do
  let rollback := JsonValue.get payload "rollback"
  let items ← (orEmpty rollback).iterate
  let rollbackText := " ".intercalate (items.map fun item => lower rt (toText rt item))
  return [formatCheck rt "release_notes" payload "obelisk-release-notes-v1",
    okCheck rt "release_notes" payload,
    { name := "release_notes:changelog"
      passed := match JsonValue.get payload "changelog" with
        | .arr entries => !entries.isEmpty
        | _ => false
      detail := "versioned changelog present" },
    { name := "release_notes:rollback"
      passed := match rollback with
        | .arr steps => decide (4 ≤ steps.length) && Text.contains rollbackText "restore" &&
          Text.contains rollbackText "previous"
        | _ => false
      detail := "rollback instructions include previous ref and restore guidance" }]

/-- The names of the steps that are objects and satisfy a predicate. -/
def stepNames (p : JsonMembers → Bool) (steps : List JsonValue) : List String :=
  steps.filterMap fun step => match step with
    | .obj row => bif p row then some (toText rt (JsonValue.get row "name")) else none
    | _ => none

def verifyScheduledBackup (payload : JsonMembers) : Except Exn (List EvidenceCheck) := do
  let steps ← (JsonValue.getD payload "steps" (.arr [])).iterate
  let names := stepNames rt (fun _ => true) steps
  let skipped := stepNames rt (fun row => (JsonValue.get row "skipped").truthy) steps
  let ran := fun name => names.elem name && !skipped.elem name
  let backupPath := toText rt (JsonValue.getD payload "backup_path" (.str ""))
  return [formatCheck rt "scheduled_backup" payload "obelisk-scheduled-backup-report-v2",
    okCheck rt "scheduled_backup" payload,
    { name := "scheduled_backup:restore-drill", passed := ran "restore_drill"
      detail := "restore drill ran and was not skipped" },
    { name := "scheduled_backup:audit-export", passed := ran "audit_export"
      detail := "audit export ran and was not skipped" },
    { name := "scheduled_backup:encrypted-artifact"
      passed := ran "backup_encryption" && ".dump.enc".toList.isSuffixOf backupPath.toList &&
        match JsonValue.get payload "backup_encryption" with
        | .obj encryption => (JsonValue.get encryption "algorithm").equal (.str "AES-256-GCM")
        | _ => false
      detail := "backup encryption completed with an AES-256-GCM artifact" }]

def verifyRestoreRecovery (payload : JsonMembers) : List EvidenceCheck :=
  let checks := (JsonValue.get payload "checks").members
  let required := ["restore_drill", "reindex", "semantic_recall", "recovery_probe"]
  let missing := sortedBy id (required.filter fun name => !(JsonValue.get checks name).isBool true)
  [formatCheck rt "restore_recovery" payload "obelisk-restore-recovery-evidence-v1",
    okCheck rt "restore_recovery" payload,
    requiredChecks "restore_recovery" "recovery facts verified" missing]

def verifyBranchProtection (payload : JsonMembers) : List EvidenceCheck :=
  let required :=
    ["pull-request-required", "status-checks-required", "strict-status-checks", "admins-enforced"]
  [{ name := "branch_protection:passed", passed := (JsonValue.get payload "passed").isBool true
     detail := "branch protection verifier passed" },
    requiredChecks "branch_protection" "required checks present"
      (missingNames required (checkNames rt payload))]

def verifyAuditRetention (payload : JsonMembers) : List EvidenceCheck :=
  [formatCheck rt "audit_retention" payload "obelisk-audit-retention-v1",
    okCheck rt "audit_retention" payload,
    { name := "audit_retention:verified-export"
      passed := (JsonValue.get payload "verified_export").isBool true
      detail := "pre-prune audit export verified" },
    { name := "audit_retention:signed-export"
      passed := (JsonValue.get payload "signed_export").isBool true
      detail := "pre-prune audit export was signed" }]

def verifyDeploymentPreflight (payload : JsonMembers) : List EvidenceCheck :=
  verifyReport rt "deployment_preflight" "obelisk-deployment-preflight-v1"
    ["public-url-https", "public-health", "public-security-headers", "backend-not-public"]
      payload ++
  [{ name := "deployment_preflight:backend-not-public"
     passed := (JsonValue.get payload "backend_probe_performed").isBool true &&
       (JsonValue.get payload "backend_publicly_reachable").isBool false
     detail := "direct backend exposure probe passed" }]

/-- What a secret's checks leave out, if anything. -/
def missingOfSecret (names : List String) (secret : String) : Option String :=
  let ofSecret := names.filter fun name => (secret ++ ":").toList.isPrefixOf name.toList
  let suffixes := ofSecret.map fun name =>
    String.ofList ((Urls.partition ':' name.toList).2.getD [])
  let missing :=
    missingNames ["raw-empty", "file-configured", "file-readable", "file-prefix"] suffixes
  bif missing.isEmpty then none else some (secret ++ " missing " ++ ",".intercalate missing)

def verifySecretFiles (payload : JsonMembers) : Except Exn (List EvidenceCheck) := do
  let secrets ← (JsonValue.getD payload "required_secrets" (.arr [])).iterate
  let declared := secrets.filterMap fun secret => match secret with
    | .str name => some name
    | _ => none
  let missingBySecret := (sortedBy id ("UAM_BACKUP_ENCRYPTION_KEY" :: declared).dedup).filterMap
    (missingOfSecret (checkNames rt payload))
  let passed := missingBySecret.isEmpty && !declared.isEmpty
  return [formatCheck rt "secret_files" payload "obelisk-secret-files-preflight-v1",
    okCheck rt "secret_files" payload,
    { name := "secret_files:all-required-secrets-checked"
      passed
      detail := bif passed then "all required secrets have raw/file/read/prefix checks"
        else bif missingBySecret.isEmpty then "required_secrets missing"
        else "; ".intercalate missingBySecret }]

def verifyVaultImport (payload : JsonMembers) : List EvidenceCheck :=
  [formatCheck rt "vault_import" payload "obelisk-vault-import-report-v1",
    okCheck rt "vault_import" payload,
    { name := "vault_import:require-signature"
      passed := (JsonValue.get payload "require_signature").isBool true
      detail := "vault import required a signed manifest" },
    { name := "vault_import:verified-signed-manifest"
      passed := (JsonValue.get payload "manifest_verified").isBool true &&
        (JsonValue.get payload "manifest_signed").isBool true
      detail := "signed vault manifest verified before import planning/apply" }]

/-- A row says that the probe of the model settings was skipped. -/
def skippedProbe : JsonValue → Bool
  | .obj row => (JsonValue.get row "name").equal (.str "model-settings-probe") &&
    Text.contains (lower rt (toText rt (JsonValue.getD row "detail" (.str "")))) "skipped"
  | _ => false

def verifyUiWalkthrough (payload : JsonMembers) : Except Exn (List EvidenceCheck) := do
  let rows ← (JsonValue.getD payload "checks" (.arr [])).iterate
  let skipped := rows.any (skippedProbe rt)
  return verifyReport rt "ui_walkthrough" "obelisk-ui-walkthrough-v1"
    ["build-identity", "ui-served", "retain-recall", "conflict-decision", "vault-editable-text",
      "vault-archive", "model-settings-probe", "reindex", "metrics-surface"] payload ++
    [{ name := "ui_walkthrough:model-probe-not-skipped"
       passed := !skipped
       detail := bif skipped then "model settings probe was skipped"
         else "model settings probe ran" }]

/-- The verifiers of the reports, in the order in which they are called. -/
def readers : List (String × (JsonMembers → Except Exn (List EvidenceCheck))) :=
  [("agent_soak", fun p => .ok (verifyAgentSoak rt p)),
    ("conversation_pipeline", fun p => .ok (verifyConversationPipeline rt p)),
    ("embedding", fun p => .ok (verifyEmbedding rt p)),
    ("memory_llm", fun p => .ok (verifyMemoryLlm rt p)),
    ("load_smoke", verifyLoadSmoke rt),
    ("metrics_health", fun p => .ok (verifyMetricsHealth rt p)),
    ("ops_schedule", fun p => .ok (verifyOpsSchedule rt p)),
    ("observability", fun p => .ok (verifyObservability rt p)),
    ("release_notes", verifyReleaseNotes rt),
    ("scheduled_backup", verifyScheduledBackup rt),
    ("restore_recovery", fun p => .ok (verifyRestoreRecovery rt p)),
    ("audit_retention", fun p => .ok (verifyAuditRetention rt p)),
    ("deployment_preflight", fun p => .ok (verifyDeploymentPreflight rt p)),
    ("secret_files", verifySecretFiles rt),
    ("vault_import", fun p => .ok (verifyVaultImport rt p)),
    ("branch_protection", fun p => .ok (verifyBranchProtection rt p)),
    ("ui_walkthrough", verifyUiWalkthrough rt)]

end ReleaseReports

end MemoryPlane
