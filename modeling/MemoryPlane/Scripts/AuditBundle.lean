import MemoryPlane.Python.JsonValue
import MemoryPlane.Python.Utf8

/-!
# Verification of an audit bundle

A bundle is a directory with a manifest, its checksum, perhaps its signature, and the events. The
verifier collects checks and accepts the bundle if no collected check failed.
-/

namespace MemoryPlane

/-- What stands at the path of a file of the bundle; errors are given by their text. -/
inductive BundleFile where
  | absent (error : String)
  | unreadable (error : String)
  | file (bytes : List UInt8)
  deriving DecidableEq

/-- The content of a directory, by file name. -/
abbrev BundleDirectory := String → BundleFile

/-- What the JSON decoder makes of a text. -/
inductive Decoded where
  | value (v : JsonValue)
  /-- `JSONDecodeError`, which the verifier handles. -/
  | malformed (error : String)
  /-- Any other exception. -/
  | raised (error : String)

/-- The parts of the standard library that the verifier uses. -/
structure BundleRuntime where
  loads : List Char → Decoded
  /-- `str(value)`. -/
  str : JsonValue → String
  sha256 : List UInt8 → List UInt8
  hmacSha256 : List UInt8 → List UInt8 → List UInt8

/-- One check of a verification. -/
structure BundleCheck where
  name : String
  ok : Bool
  expected : Option String := none
  actual : Option String := none
  error : Option String := none
  detail : Option String := none
  deriving DecidableEq

namespace AuditBundle

/-- The hexadecimal digits of some bytes. -/
def hexdigest (bytes : List UInt8) : String :=
  String.ofList (bytes.flatMap fun byte => hexDigits 2 byte.toNat)

variable (rt : BundleRuntime) (directory : BundleDirectory)

def sha256Hex (payload : List UInt8) : String := hexdigest (rt.sha256 payload)

def hmacSha256Hex (secret : String) (payload : List UInt8) : String :=
  hexdigest (rt.hmacSha256 (Utf8.encode secret.toList) payload)

/-- `hmac.compare_digest` of two texts. -/
def compareDigest (a b : String) : Except String Bool :=
  if a.toList.all (fun c => c.toNat < 128) && b.toList.all (fun c => c.toNat < 128) then
    .ok (a = b)
  else .error "TypeError: comparing strings with non-ASCII characters is not supported"

/-- Read a required file and append a failed check when it is missing. -/
def readRequired (name : String) : Option (List UInt8) × List BundleCheck :=
  match directory name with
  | .file bytes => (some bytes, [])
  | .absent error | .unreadable error => (none, [{ name, ok := false, error := some error }])

/-- Read the first digest field from a sha or signature file. -/
def readDigest (name : String) : Except String (Option String × List BundleCheck) :=
  match directory name with
  | .absent error | .unreadable error =>
    .ok (none, [{ name, ok := false, error := some error }])
  | .file bytes =>
    match Utf8.decode bytes with
    | none => .error "UnicodeDecodeError: invalid start byte"
    | some text =>
      match Text.split text with
      | [] => .ok (none, [{ name, ok := false, error := some "list index out of range" }])
      | word :: _ => .ok (some (String.ofList word), [])

/-- The check of a digest, if both sides of it are known. -/
def digestChecks (name : String) (actual expected : Option String) :
    Except String (List BundleCheck) :=
  match actual, expected with
  | some actual, some expected => do
    let ok ← compareDigest actual expected
    return [{ name, ok, expected := some expected, actual := some actual }]
  | _, _ => .ok []

/-- The manifest, if it is an object. A text that is no JSON fails a check; nothing is checked if
it is JSON of another kind. -/
def parseManifest : Option (List UInt8) → Except String (Option JsonMembers × List BundleCheck)
  | none => .ok (none, [])
  | some bytes =>
    match Utf8.decode bytes with
    | none => .error "UnicodeDecodeError: invalid start byte"
    | some text =>
      match rt.loads text with
      | .value (.obj members) => .ok (some members, [])
      | .value _ => .ok (none, [])
      | .malformed error =>
        .ok (none, [{ name := "manifest.json", ok := false, error := some error }])
      | .raised error => .error error

/-- The digest that a manifest lists for the events, or the empty text. -/
def listedDigest (manifest : JsonMembers) : String :=
  let files := match JsonValue.get manifest "files" with
    | .arr rows => rows
    | _ => []
  let rows := files.filterMap fun row => match row with
    | .obj members => some members
    | _ => none
  let row := rows.find? fun members => match JsonValue.get members "path" with
    | .str path => path = "audit-events.jsonl"
    | _ => false
  let digest := JsonValue.get (row.getD []) "sha256"
  match digest with
  | .str text => text
  | _ => if digest.truthy then rt.str digest else ""

/-- The check of the events against the manifest. -/
def eventChecks (manifest : Option JsonMembers) (events : Option (List UInt8)) :
    Except String (List BundleCheck) :=
  match manifest, events with
  | some manifest, some events => do
    let expected := listedDigest rt manifest
    let actual := sha256Hex rt events
    let ok ← if expected = "" then .ok false else compareDigest actual expected
    return [{ name := "audit-events.jsonl.sha256", ok
              expected := some expected, actual := some actual }]
  | _, _ => .ok []

/-- The check of the signature: an empty key counts as none. -/
def signatureChecks (manifest : Option (List UInt8)) (signingKey : Option String) :
    Except String (List BundleCheck) :=
  match signingKey.filter (· ≠ "") with
  | some key => do
    let (expected, unread) ← readDigest directory "manifest.sig"
    let checks ← digestChecks "manifest.sig" (manifest.map (hmacSha256Hex rt key)) expected
    return unread ++ checks
  | none =>
    match directory "manifest.sig" with
    | .absent _ => .ok [{ name := "manifest.sig", ok := true, detail := some "unsigned bundle" }]
    | _ => .ok [{ name := "manifest.sig", ok := false, detail := some "signing key required" }]

/-- The checks that a verification collects. -/
def collectChecks (signingKey : Option String) : Except String (List BundleCheck) := do
  let manifestBytes := (readRequired directory "manifest.json").1
  let (expected, unread) ← readDigest directory "manifest.sha256"
  let digests ← digestChecks "manifest.sha256" (manifestBytes.map (sha256Hex rt)) expected
  let (manifest, malformed) ← parseManifest rt manifestBytes
  let events := (readRequired directory "audit-events.jsonl").1
  let listed ← eventChecks rt manifest events
  let signed ← signatureChecks rt directory manifestBytes signingKey
  return (readRequired directory "manifest.json").2 ++ unread ++ digests ++ malformed ++
    (readRequired directory "audit-events.jsonl").2 ++ listed ++ signed

/-- Verify checksum and optional signature files for one audit bundle. -/
def verifyBundle (signingKey : Option String) : Except String ℕ := do
  let checks ← collectChecks rt directory signingKey
  return if checks.all (·.ok) then 0 else 1

end AuditBundle

end MemoryPlane
