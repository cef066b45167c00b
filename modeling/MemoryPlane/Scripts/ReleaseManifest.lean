import MemoryPlane.Scripts.ReleaseEvidence

/-!
# Release manifests

The reports are read and checked one by one; then those that could be read are compared with the
manifest and with each other.
-/

namespace MemoryPlane

namespace ReleaseEvidence

open ReleaseReports (lower toText)

section CrossIdentity

variable (rt : EvidenceRuntime) (maxAgeHours : PyFloat) (manifest : JsonMembers)

/-- `payloads.get(name, {})`. -/
def payloadOf (payloads : List (String × JsonMembers)) (name : String) : JsonMembers :=
  ((payloads.find? fun p => p.1 = name).map Prod.snd).getD []

/-- What `_match_runtime_build` returns. -/
structure BuildMatch where
  ok : Bool
  detail : String
  version : String
  time : String

/-- Match one live report's immutable runtime identity to the manifest. -/
def matchRuntimeBuild (build : JsonValue) (target : JsonMembers) : BuildMatch :=
  match build with
  | .obj row =>
    let version := JsonValue.get row "version"
    let sourceCommit := JsonValue.get row "source_commit"
    let imageDigest := JsonValue.get row "image_digest"
    let deploymentId := JsonValue.get row "deployment_id"
    let time := awareDatetime rt (JsonValue.get row "build_time")
    { ok := (version.textWith fun s => !Text.isBlank s) && sourceCommit.textWith isCommit &&
        sourceCommit.equal (JsonValue.get manifest "source_commit") &&
        imageDigest.textWith isImageDigest &&
        imageDigest.equal (JsonValue.get manifest "image_digest") &&
        (deploymentId.textWith fun _ => true) &&
        deploymentId.equal (JsonValue.get target "deployment_id") && time.isSome
      detail := "source=" ++ rt.repr sourceCommit ++ " image=" ++ rt.repr imageDigest ++
        " deployment=" ++ rt.repr deploymentId ++ " version=" ++ rt.repr version
      version := match version with
        | .str s => Text.strip s
        | _ => ""
      time := (time.map rt.isoformat).getD "" }
  | _ => { ok := false, detail := "build identity missing", version := "", time := "" }

/-- The times of a report and of the manifest, as a check shows them. -/
def timesDetail (report generated : Timestamp) : String :=
  "report=" ++ rt.isoformat report ++ " manifest=" ++ rt.isoformat generated

/-- A report may be five minutes younger than the manifest, and as much older as the age limit. -/
def freshReport (report generated : Timestamp) : Except Exn Bool :=
  bif maxAgeValid maxAgeHours then
    withinAge rt (-fiveMinutes) (generated.utc - report.utc) (positiveHours maxAgeHours)
  else .ok false

/-- The freshness of a live report. -/
def runtimeFreshness (name : String) (payload : JsonMembers) : Except Exn EvidenceCheck :=
  match awareDatetime rt (JsonValue.get payload "generated_at"),
    awareDatetime rt (JsonValue.get manifest "generated_at") with
  | some report, some generated => do
    let passed ← freshReport rt maxAgeHours report generated
    return { name := "identity:" ++ name ++ "-freshness", passed
             detail := timesDetail rt report generated }
  | _, _ => .ok { name := "identity:" ++ name ++ "-freshness", passed := false
                  detail := "generated_at missing or lacks timezone" }

/-- The freshness of a model report, whose times are shown only if the age limit is valid. -/
def modelFreshness (name : String) (payload : JsonMembers) : Except Exn EvidenceCheck :=
  match awareDatetime rt (JsonValue.get payload "generated_at"),
    awareDatetime rt (JsonValue.get manifest "generated_at") with
  | some report, some generated => do
    let passed ← freshReport rt maxAgeHours report generated
    return { name := "identity:" ++ name ++ "-freshness", passed
             detail := bif maxAgeValid maxAgeHours then timesDetail rt report generated
               else "generated_at missing or lacks timezone" }
  | _, _ => .ok { name := "identity:" ++ name ++ "-freshness", passed := false
                  detail := "generated_at missing or lacks timezone" }

/-- The live reports. -/
def runtimeReports : List String :=
  ["agent_soak", "conversation_pipeline", "load_smoke", "ui_walkthrough"]

/-- The checks of a live report, and its version and build time if its build matches. -/
def runtimeChecks (payloads : List (String × JsonMembers)) (name : String) :
    Except Exn (List EvidenceCheck × Option (String × String)) := do
  let target := (JsonValue.get manifest "target").members
  let apiUrl := JsonValue.get target "api_url"
  let payload := payloadOf payloads name
  let baseUrl := JsonValue.get payload "base_url"
  let onTarget ← sameUrl rt baseUrl apiUrl
  let build := matchRuntimeBuild rt manifest (JsonValue.get payload "build") target
  let freshness ← runtimeFreshness rt maxAgeHours manifest name payload
  return ([
    { name := "identity:" ++ name ++ "-target", passed := onTarget
      detail := "report=" ++ rt.repr baseUrl ++ " target=" ++ rt.repr apiUrl },
    { name := "identity:" ++ name ++ "-build", passed := build.ok, detail := build.detail },
    freshness], bif build.ok then some (build.version, build.time) else none)

/-- The live reports exercised one version and build time. -/
def buildConsistency (builds : List (String × String)) : EvidenceCheck :=
  let consistent := builds.length = runtimeReports.length && builds.dedup.length = 1
  { name := "identity:runtime-build-consistency"
    passed := consistent
    detail := bif consistent then "all live reports exercised one version/build time"
      else "runtime builds=" ++ rt.reprPairs builds }

/-- Only non-secret model identity fields for verifier diagnostics. -/
def modelReportView (payload : JsonMembers) : JsonMembers :=
  ["provider", "base_url", "model", "dimension", "config_fingerprint"].filterMap fun key =>
    bif payload.any (fun m => m.1 = key) then some (key, JsonValue.get payload key) else none

/-- A model report names the provider, the address and the model of the manifest, and agrees with it
on one more field. -/
def modelMatches (target : JsonValue) (report : JsonMembers) (field : String) :
    Except Exn Bool :=
  match target with
  | .obj model =>
    bif (JsonValue.get model "provider").equal (JsonValue.get report "provider") then do
      let same ← sameUrl rt (JsonValue.get model "base_url") (JsonValue.get report "base_url")
      return same && (JsonValue.get model "model").equal (JsonValue.get report "model") &&
        (JsonValue.get model field).equal (JsonValue.get report field)
    else .ok false
  | _ => .ok false

/-- The check of a model report. -/
def modelCheck (name : String) (target : JsonValue) (report : JsonMembers) (field : String) :
    Except Exn EvidenceCheck := do
  let passed ← modelMatches rt target report field
  return { name, passed
           detail := "manifest=" ++ rt.repr target ++ " report=" ++
             rt.repr (.obj (modelReportView report)) }

def verifyCrossArtifactIdentity (payloads : List (String × JsonMembers)) :
    Except Exn (List EvidenceCheck) := do
  let releaseNotes := payloadOf payloads "release_notes"
  let target := (JsonValue.get manifest "target").members
  let notes : List EvidenceCheck := [
    { name := "identity:release-notes-release"
      passed := (JsonValue.get releaseNotes "release").equal (JsonValue.get manifest "release")
      detail := "release notes match manifest release" },
    { name := "identity:release-notes-commit"
      passed := (JsonValue.get releaseNotes "current_commit").equal
        (JsonValue.get manifest "source_commit")
      detail := "release notes match manifest source commit" }]
  let runtime ← runtimeReports.mapM (runtimeChecks rt maxAgeHours manifest payloads)
  let models := (JsonValue.get manifest "models").members
  let embeddingReport := payloadOf payloads "embedding"
  let embedding ← modelCheck rt "identity:embedding-model" (JsonValue.get models "embedding")
    embeddingReport "dimension"
  let llmReport := payloadOf payloads "memory_llm"
  let llm ← modelCheck rt "identity:memory-llm-model" (JsonValue.get models "memory_llm")
    llmReport "config_fingerprint"
  let embeddingFresh ← modelFreshness rt maxAgeHours manifest "embedding" embeddingReport
  let llmFresh ← modelFreshness rt maxAgeHours manifest "memory_llm" llmReport
  let deployedUrl := JsonValue.get (payloadOf payloads "deployment_preflight") "public_url"
  let publicUrl := JsonValue.get target "public_url"
  let deployed ← sameUrl rt deployedUrl publicUrl
  return notes ++ runtime.flatMap Prod.fst ++
    [buildConsistency rt (runtime.filterMap Prod.snd), embedding, llm, embeddingFresh, llmFresh,
      { name := "identity:deployment-public-url", passed := deployed
        detail := "report=" ++ rt.repr deployedUrl ++ " target=" ++ rt.repr publicUrl }]

end CrossIdentity

section Manifest

variable (rt : EvidenceRuntime) (files : EvidenceFiles) (options : EvidenceOptions)

/-- A check that failed because something could not be read. -/
def unread (name detail : String) : List EvidenceCheck := [{ name, passed := false, detail }]

/-- The checks of one artifact, and its report if it could be read. The verifier of the report runs
outside of what is caught. -/
def verifyArtifact (name : String) (verifier : JsonMembers → Except Exn (List EvidenceCheck))
    (entry : JsonValue) : Except Exn (List EvidenceCheck × Option (String × JsonMembers)) :=
  match artifactEntry files entry with
  | .error e => .ok (unread (name ++ ":path") e, none)
  | .ok (path, expectedSha256) =>
    match files.readBytes path with
    | .error e => .ok (unread (name ++ ":read") (path ++ ": " ++ e), none)
    | .ok bytes => do
      let checksumOk ← compareDigest (AuditBundle.hexdigest (rt.sha256 bytes)) expectedSha256
      let checksum : EvidenceCheck :=
        { name := name ++ ":sha256", passed := checksumOk
          detail := bif checksumOk then "artifact checksum verified"
            else "artifact checksum mismatch" }
      match decodeJsonObject rt bytes with
      | .error e => return (checksum :: unread (name ++ ":read") (path ++ ": " ++ e), none)
      | .ok payload =>
        let checks ← verifier payload
        return (checksum :: checks, some (name, payload))

/-- The check that exactly the required artifacts are listed. -/
def artifactSetCheck (names : List String) : EvidenceCheck :=
  let missing := sortedBy id (requiredArtifacts.filter fun name => !names.elem name)
  let extra := sortedBy id (names.dedup.filter fun name => !requiredArtifacts.elem name)
  let exact := missing.isEmpty && extra.isEmpty
  let parts := (if missing = [] then [] else ["missing artifacts: " ++ ", ".intercalate missing]) ++
    (if extra = [] then [] else ["unexpected artifacts: " ++ ", ".intercalate extra])
  { name := "manifest:required-artifacts"
    passed := exact
    detail := bif exact then "exact required artifact set listed" else "; ".intercalate parts }

def releaseCheck (manifest : JsonMembers) : EvidenceCheck :=
  match JsonValue.get manifest "release" with
  | .str release =>
    if Text.isBlank release then
      { name := "manifest:release", passed := false, detail := "release missing" }
    else { name := "manifest:release", passed := true, detail := "release=" ++ release }
  | _ => { name := "manifest:release", passed := false, detail := "release missing" }

/-- The checks of the artifacts and of what they say about each other. -/
def verifyArtifacts (manifest artifacts : JsonMembers) : Except Exn (List EvidenceCheck) := do
  let results ← (ReleaseReports.readers rt).mapM fun reader =>
    verifyArtifact rt files reader.1 reader.2 (JsonValue.get artifacts reader.1)
  let cross ← verifyCrossArtifactIdentity rt options.maxAgeHours manifest
    (results.filterMap Prod.snd)
  return results.flatMap Prod.fst ++ cross

/-- Return release evidence checks for a manifest path. -/
def verifyManifest : Except Exn (List EvidenceCheck) :=
  match readJson rt files with
  | .error e => .ok (unread "manifest:read" e)
  | .ok manifest => do
    let identity ← verifyManifestIdentity rt options manifest
    let signature ← verifyManifestSignature rt manifest options.signingKey
    let checks := ReleaseReports.formatCheck rt "manifest" manifest manifestFormat ::
      releaseCheck manifest :: identity ++ signature
    match JsonValue.get manifest "artifacts" with
    | .obj artifacts => do
      let reports ← verifyArtifacts rt files options manifest artifacts
      return checks ++ artifactSetCheck (artifacts.map Prod.fst) :: reports
    | _ => return checks ++ unread "manifest:artifacts" "artifacts must be an object"

end Manifest

end ReleaseEvidence

end MemoryPlane
