import MemoryPlane.Scripts.AuditBundle
import MemoryPlane.Scripts.ReleaseReports

/-!
# Verification of release evidence

A manifest names the release, its build and its target, is signed, and lists a report for each
required artifact. The verifier collects checks; the release passes if no collected check failed.
-/

namespace MemoryPlane

/-- The files beside a manifest, where a path is given by its text; an exception is given by the
text of its type and message. -/
structure EvidenceFiles where
  manifest : Except String (List UInt8)
  isAbsolute : String → Bool
  /-- `(base / raw).resolve()`. -/
  resolve : String → Except String String
  /-- `path.is_relative_to(base)`. -/
  isInside : String → Bool
  readBytes : String → Except String (List UInt8)

/-- What the operator asks for; the current time is given in microseconds. -/
structure EvidenceOptions where
  signingKey : Option String
  maxAgeHours : PyFloat
  now : ℤ
  expectedSourceCommit : Option String
  expectedImageDigest : Option String
  expectedDeploymentId : Option String

/-- `MANIFEST_FORMAT`. -/
def manifestFormat : String := "obelisk-release-evidence-manifest-v2"

/-- `SIGNATURE_ALGORITHM`. -/
def signatureAlgorithm : String := "hmac-sha256"

/-- `REQUIRED_ARTIFACTS`. -/
def requiredArtifacts : List String :=
  ["agent_soak", "conversation_pipeline", "embedding", "memory_llm", "load_smoke",
    "metrics_health", "ops_schedule", "observability", "release_notes", "scheduled_backup",
    "restore_recovery", "audit_retention", "deployment_preflight", "secret_files", "vault_import",
    "branch_protection", "ui_walkthrough"]

namespace Timestamp

/-- The time in UTC, in microseconds. -/
def utc (t : Timestamp) : ℤ := t.wall - t.offset.getD 0

end Timestamp

namespace ReleaseEvidence

open ReleaseReports (lower toText)

/-- `datetime.min`, in microseconds since 1970. -/
def minMoment : ℤ := -62135596800000000

/-- `datetime.max`, in microseconds since 1970. -/
def maxMoment : ℤ := 253402300799999999

/-- `timedelta(minutes=5)`. -/
def fiveMinutes : ℤ := 300000000

/-- `re.fullmatch("[0-9a-fA-F]{n}", s)`. -/
def isHexText (n : ℕ) (s : List Char) : Bool :=
  s.length = n && s.all fun c => (Urls.hexValue c).isSome

/-- `_COMMIT_RE.fullmatch(s)`. -/
def isCommit (s : String) : Bool := isHexText 40 s.toList

/-- `_IMAGE_DIGEST_RE.fullmatch(s)`. -/
def isImageDigest (s : String) : Bool :=
  "sha256:".toList.isPrefixOf s.toList && isHexText 64 (s.toList.drop 7)

/-- `hmac.compare_digest` of two texts. -/
def compareDigest (a b : String) : Except Exn Bool :=
  match AuditBundle.compareDigest a b with
  | .ok same => .ok same
  | .error _ =>
    .error (.typeError "comparing strings with non-ASCII characters is not supported")

section Files

variable (rt : EvidenceRuntime) (files : EvidenceFiles)

/-- The path of an artifact and the digest listed for it, which has ASCII characters only. -/
def artifactEntry : JsonValue → Except String (String × String)
  | .obj row =>
    match JsonValue.get row "path" with
    | .str rawPath =>
      if Text.isBlank rawPath then .error "ValueError: artifact path must be a non-empty string"
      else if files.isAbsolute rawPath then
        .error "ValueError: artifact path must be relative to the release bundle"
      else do
        let path ← files.resolve rawPath
        if files.isInside path then
          match JsonValue.get row "sha256" with
          | .str digest =>
            if isHexText 64 digest.toList then
              .ok (path, String.ofList (digest.toList.map Char.toLower))
            else .error "ValueError: artifact sha256 must be a 64-character hex digest"
          | _ => .error "ValueError: artifact sha256 must be a 64-character hex digest"
        else .error "ValueError: artifact path escapes the release bundle"
    | _ => .error "ValueError: artifact path must be a non-empty string"
  | _ => .error "ValueError: artifact entry must be an object with path and sha256"

def decodeJsonObject (data : List UInt8) : Except String JsonMembers :=
  match Utf8.decode data with
  | none => .error (rt.decodeError data)
  | some text =>
    match rt.loads text with
    | .ok (.obj members) => .ok members
    | .ok _ => .error "ValueError: JSON root must be an object"
    | .error e => .error e

/-- `_read_json` of the manifest. -/
def readJson : Except String JsonMembers := files.manifest >>= decodeJsonObject rt

/-- The manifest without the value of its signature. -/
def unsigned (manifest : JsonMembers) : JsonMembers :=
  match JsonValue.get manifest "signature" with
  | .obj signature => manifest.map fun m =>
    if m.1 = "signature" then (m.1, .obj (signature.filter fun s => s.1 ≠ "value")) else m
  | _ => manifest

/-- Stable bytes signed by the release operator. The printer escapes no surrogate, and none can be
encoded. -/
def canonicalManifestBytes (manifest : JsonMembers) : Except Exn (List UInt8) :=
  bif (JsonValue.obj (unsigned manifest)).anyText (Utf8.hasSurrogate rt.surrogate) then
    .error (.valueError "'utf-8' codec can't encode character: surrogates not allowed")
  else .ok (Utf8.encode (rt.dumps (.obj (unsigned manifest))))

/-- HMAC-SHA256 for a canonical release evidence manifest. -/
def signManifest (manifest : JsonMembers) (signingKey : String) : Except Exn String :=
  bif Utf8.hasSurrogate rt.surrogate signingKey then
    .error (.valueError "'utf-8' codec can't encode character: surrogates not allowed")
  else do
    let bytes ← canonicalManifestBytes rt manifest
    return AuditBundle.hexdigest (rt.hmacSha256 (Utf8.encode signingKey.toList) bytes)

/-- The signature is compared only if its algorithm and the key are right. -/
def signatureValid (manifest signature : JsonMembers) (signingKey : Option String) :
    Except Exn Bool :=
  match JsonValue.get signature "value", signingKey with
  | .str value, some key =>
    bif (JsonValue.get signature "algorithm").equal (.str signatureAlgorithm) &&
        decide (32 ≤ key.toList.length) then do
      let expected ← signManifest rt manifest key
      compareDigest value expected
    else .ok false
  | _, _ => .ok false

def verifyManifestSignature (manifest : JsonMembers) (signingKey : Option String) :
    Except Exn (List EvidenceCheck) :=
  match JsonValue.get manifest "signature" with
  | .obj signature => do
    let algorithm := JsonValue.get signature "algorithm"
    let keyId := JsonValue.get signature "key_id"
    let key := signingKey.getD ""
    let valid ← signatureValid rt manifest signature signingKey
    return [
      { name := "manifest:signature-algorithm"
        passed := algorithm.equal (.str signatureAlgorithm)
        detail := "algorithm=" ++ rt.repr algorithm },
      { name := "manifest:signature-key-id"
        passed := keyId.textWith fun s => !Text.isBlank s
        detail := "key_id=" ++ rt.repr keyId },
      { name := "manifest:signing-key"
        passed := decide (32 ≤ key.toList.length)
        detail := if key = "" then "operator signing key missing"
          else "operator signing key configured" },
      { name := "manifest:signature"
        passed := valid
        detail := bif valid then "manifest signature verified" else "manifest signature mismatch" }]
  | _ => .ok
    [{ name := "manifest:signature", passed := false, detail := "signature object missing" }]

end Files

section Urls

variable (rt : EvidenceRuntime)

/-- The URL has a host and nothing but a path behind it. -/
def validHttpUrl (requireHttps : Bool) : JsonValue → Bool
  | .str s =>
    match Urls.urlsplit rt.url s.toList with
    | .ok split =>
      let scheme := split.scheme.map Char.toLower
      (scheme = "https".toList || (!requireHttps && scheme = "http".toList)) &&
        split.netloc ≠ [] && (split.hostname rt.url).isSome && split.username.isNone &&
        split.password.isNone && !split.netloc.elem '@' && split.query.isEmpty &&
        split.fragment.isEmpty
    | .error _ => false
  | _ => false

/-- The text of a URL is split once more without the white space around it. -/
def normalizeUrl (value : JsonValue) : Except Exn (Option (List Char)) :=
  match value with
  | .str s =>
    bif Text.isBlank s || !validHttpUrl rt false value then .ok none
    else do
      let split ← Urls.urlsplit rt.url (Text.stripWith isSpace s.toList)
      let scheme := split.scheme.map Char.toLower
      bif (scheme ≠ "http".toList && scheme ≠ "https".toList) || split.netloc.isEmpty then
        return none
      else
        let path := Text.rstripWith (fun c => c = '/') split.path
        return some (Urls.urlunsplit ⟨scheme, rt.url.lower split.netloc, path, [], []⟩)
  | _ => .ok none

/-- `_normalize_url(a) == _normalize_url(b)`. -/
def sameUrl (a b : JsonValue) : Except Exn Bool := do
  let first ← normalizeUrl rt a
  let second ← normalizeUrl rt b
  return decide (first = second)

end Urls

section Times

variable (rt : EvidenceRuntime)

/-- `datetime.fromisoformat(s.replace("Z", "+00:00"))`. -/
def parseTimestamp (s : String) : Except String Timestamp :=
  rt.fromIsoformat (s.toList.flatMap fun c => if c = 'Z' then "+00:00".toList else [c])

def awareDatetime : JsonValue → Option Timestamp
  | .str s =>
    match parseTimestamp rt s with
    | .ok t => if t.offset.isSome then some t else none
    | .error _ => none
  | _ => none

/-- `max_age_hours >= 0`. -/
def nonNegative : PyFloat → Bool
  | .finite q => decide (0 ≤ q)
  | .infinite negative => !negative
  | .nan => false

/-- `math.isfinite(max_age_hours) and max_age_hours >= 0`. -/
def maxAgeValid : PyFloat → Bool
  | .finite q => decide (0 ≤ q)
  | _ => false

/-- The limit that a valid age is compared with, if it is above zero. -/
def positiveHours : PyFloat → Option ℚ
  | .finite q => if 0 < q then some q else none
  | _ => none

/-- An age is not below a bound and not above the limit; the limit is computed only if the age is
not below the bound. -/
def withinAge (low age : ℤ) (hours : Option ℚ) : Except Exn Bool :=
  if age < low then .ok false
  else
    match hours with
    | none => .ok true
    | some h =>
      match rt.timedeltaHours h with
      | some limit => .ok (decide (age ≤ limit))
      | none => .error (.overflowError "days are out of the range of timedelta")

end Times

section Identity

variable (rt : EvidenceRuntime) (options : EvidenceOptions) (manifest : JsonMembers)

/-- The check against an expected text, if one is given. -/
def expectedCheck (name : String) (expected : Option String) (actual : JsonValue) :
    List EvidenceCheck :=
  match expected with
  | some text =>
    [{ name, passed := actual.equal (.str text)
       detail := "expected=" ++ rt.repr (.str text) ++ " actual=" ++ rt.repr actual }]
  | none => []

def targetChecks : List EvidenceCheck :=
  match JsonValue.get manifest "target" with
  | .obj target =>
    let deploymentId := JsonValue.get target "deployment_id"
    let apiUrl := JsonValue.get target "api_url"
    let publicUrl := JsonValue.get target "public_url"
    [{ name := "manifest:deployment-id", passed := deploymentId.textWith fun s => !Text.isBlank s
       detail := "deployment_id=" ++ rt.repr deploymentId },
      { name := "manifest:api-url", passed := validHttpUrl rt false apiUrl
        detail := "api_url=" ++ rt.repr apiUrl },
      { name := "manifest:public-url", passed := validHttpUrl rt true publicUrl
        detail := "public_url=" ++ rt.repr publicUrl }] ++
      expectedCheck rt "manifest:expected-deployment-id" options.expectedDeploymentId deploymentId
  | _ => [{ name := "manifest:target", passed := false, detail := "target object missing" }]

/-- The check of a generation time that could not be read. -/
def unreadTime (message : String) : List EvidenceCheck :=
  [{ name := "manifest:generated-at", passed := false, detail := message }]

/-- The checks of a generation time with a time zone; its moment in UTC and the latest plausible one
must be in the calendar. -/
def timeChecks (t : Timestamp) : Except Exn (List EvidenceCheck) :=
  if minMoment ≤ t.utc ∧ t.utc ≤ maxMoment ∧ options.now + fiveMinutes ≤ maxMoment then do
    let futureOk := decide (t.utc ≤ options.now + fiveMinutes)
    let age := options.now - t.utc
    let checks : List EvidenceCheck := [
      { name := "manifest:generated-at", passed := true
        detail := "generated_at=" ++ rt.isoformat ⟨t.utc, some 0⟩ },
      { name := "manifest:not-from-future", passed := futureOk
        detail := bif futureOk then "timestamp is plausible" else "timestamp is in the future" }]
    match positiveHours options.maxAgeHours with
    | some hours => do
      let fresh ← withinAge rt 0 age (some hours)
      return checks ++ [
        { name := "manifest:freshness", passed := fresh
          detail := "age_hours=" ++ rt.formatAge age ++ " limit=" ++
            rt.formatHours options.maxAgeHours }]
    | none => return checks
  else .error (.overflowError "date value out of range")

def generatedChecks : Except Exn (List EvidenceCheck) :=
  match JsonValue.get manifest "generated_at" with
  | .str s =>
    match parseTimestamp rt s with
    | .ok t =>
      if t.offset.isSome then timeChecks rt options t
      else .ok (unreadTime "generated_at must include timezone")
    | .error message => .ok (unreadTime message)
  | _ => .ok (unreadTime "generated_at must be a string")

def verifyManifestIdentity : Except Exn (List EvidenceCheck) := do
  let sourceCommit := JsonValue.get manifest "source_commit"
  let imageDigest := JsonValue.get manifest "image_digest"
  let maxAge := "max_age_hours=" ++ rt.formatFloat options.maxAgeHours
  let generated ← generatedChecks rt options manifest
  return [
    { name := "manifest:max-age", passed := maxAgeValid options.maxAgeHours
      detail := bif maxAgeValid options.maxAgeHours then maxAge
        else "max_age_hours must be finite and non-negative" },
    { name := "manifest:max-age-policy", passed := nonNegative options.maxAgeHours
      detail := maxAge },
    { name := "manifest:source-commit", passed := sourceCommit.textWith isCommit
      detail := "source_commit=" ++ rt.repr sourceCommit },
    { name := "manifest:image-digest", passed := imageDigest.textWith isImageDigest
      detail := "image_digest=" ++ rt.repr imageDigest }] ++
    expectedCheck rt "manifest:expected-source-commit" options.expectedSourceCommit sourceCommit ++
    expectedCheck rt "manifest:expected-image-digest" options.expectedImageDigest imageDigest ++
    targetChecks rt options manifest ++ generated

end Identity

end ReleaseEvidence

end MemoryPlane
