import Mathlib.Data.String.Basic
import MemoryPlane.Services.VaultImport

/-!
# Vault manifests

A materialized vault lists its Markdown files in a manifest with a checksum and a signature. The
importer may ask for the manifest to be verified before it reads the directory.
-/

namespace MemoryPlane

/-- What stands at a path. -/
inductive FileNode where
  | file (bytes : List UInt8)
  | directory
  deriving DecidableEq

/-- An entry of a directory tree; its path is relative to the root. -/
structure TreeEntry where
  parts : List String
  node : FileNode
  deriving DecidableEq

/-- The content of a directory. -/
abbrev DirectoryTree := Table TreeEntry fun entry => entry.parts

/-- The parts of the standard library that the scripts use. Failures are given by their text. -/
structure ManifestRuntime where
  unicode : Unicode
  /-- `read_text(encoding="utf-8")` on the bytes of a file. -/
  readText : List UInt8 → Except String String
  /-- `json.loads`. -/
  loads : String → Except String Json
  /-- `repr(value)`. -/
  repr : Json → String
  sha256Hex : List UInt8 → String
  /-- The hexadecimal HMAC-SHA-256 of a message under a key. -/
  hmacSha256Hex : List UInt8 → List UInt8 → String

/-- The report of a verification. -/
structure VaultManifestVerification where
  fileCount : ℕ
  signed : Bool
  deriving DecidableEq

namespace VaultManifest

def manifestName : String := ".uam-vault-manifest.json"

def checksumName : String := ".uam-vault-manifest.sha256"

def signatureName : String := ".uam-vault-manifest.sig"

def manifestFormat : String := "obelisk-vault-manifest-v1"

def signatureAlgorithm : String := "hmac-sha256"

variable (rt : ManifestRuntime) (tree : DirectoryTree)

/-- `Path(text).parts` of a relative path. -/
def pathParts (text : String) : List String :=
  ((text.toList.splitOn '/').filter fun part => part ≠ [] ∧ part ≠ ['.']).map String.ofList

/-- What stands below the root; the root itself is a directory. -/
def nodeAt (parts : List String) : Option FileNode :=
  if parts = [] then some .directory else (tree.find parts).map TreeEntry.node

/-- `path.read_bytes()`. -/
def readBytes (parts : List String) : Except String (List UInt8) :=
  match nodeAt tree parts with
  | some (.file bytes) => .ok bytes
  | some .directory => .error "IsADirectoryError: [Errno 21] Is a directory"
  | none => .error "FileNotFoundError: [Errno 2] No such file or directory"

/-- `path.read_text(encoding="utf-8")`. -/
def readTextAt (name : String) : Except String String := do rt.readText (← readBytes tree [name])

/-- `hmac.compare_digest` of two texts. -/
def compareDigest (a b : String) : Except String Bool :=
  if (a.toList ++ b.toList).all fun c => c.toNat < 128 then .ok (a = b)
  else .error "TypeError: comparing strings with non-ASCII characters is not supported"

/-- `str(value)`. -/
def textOf : Json → String
  | .str text => text
  | value => rt.repr value

/-- `int(value)`. -/
def intOf : Json → Except String ℤ
  | .int n => .ok n
  | .bool b => .ok b.toNat
  | .float q => .ok (q.num.tdiv q.den)
  | .str text =>
    match parseInt rt.unicode text.toList with
    | some n => .ok n
    | none => .error s!"ValueError: invalid literal for int() with base 10: {text}"
  | _ => .error "TypeError: int() argument must be a string, a bytes-like object or a real number"

/-- `_verify_file_entry`. -/
def verifyFileEntry : Json → Except String Unit
  | .obj members => do
    let relative := textOf rt ((JsonObject.get members "path").getD (.str ""))
    if relative = "" ∨ Text.startsWith ['/'] relative.toList = true ∨ ".." ∈ pathParts relative then
      throw s!"ValueError: unsafe vault manifest path: {rt.repr (.str relative)}"
    if nodeAt tree (pathParts relative) = none then
      throw s!"ValueError: vault manifest references missing file: {relative}"
    let data ← readBytes tree (pathParts relative)
    let expectedSize ← intOf rt ((JsonObject.get members "bytes").getD (.int (-1)))
    if (data.length : ℤ) ≠ expectedSize then
      throw s!"ValueError: vault file size mismatch: {relative}"
    let expectedSha := textOf rt ((JsonObject.get members "sha256").getD (.str ""))
    let same ← compareDigest (rt.sha256Hex data) expectedSha
    if same = false then throw s!"ValueError: vault file checksum mismatch: {relative}"
  | _ => throw "ValueError: vault manifest file entry must be an object"

/-- The loop over the entries. -/
def verifyFileEntries : List Json → Except String Unit
  | [] => .ok ()
  | entry :: rest => do
    verifyFileEntry rt tree entry
    verifyFileEntries rest

/-- `_read_checksum`. -/
def readChecksum : Except String String := do
  let text := Text.stripWith isSpace (← readTextAt rt tree checksumName).toList
  match Text.split text with
  | [] => .error "ValueError: empty vault manifest checksum"
  | word :: _ => .ok (String.ofList word)

/-- `_read_signature`. -/
def readSignature : Except String String := do
  let text := Text.stripWith isSpace (← readTextAt rt tree signatureName).toList
  let mark := (signatureAlgorithm ++ ":").toList
  if Text.startsWith mark text then .ok (String.ofList (text.drop mark.length))
  else .error "ValueError: unsupported vault manifest signature algorithm"

/-- The text of the manifest and the entries that it lists, once its checksum fits. -/
def readManifest : Except String (String × List Json) := do
  if (nodeAt tree [manifestName]) = none then
    throw s!"ValueError: missing vault manifest: {manifestName}"
  if (nodeAt tree [checksumName]) = none then
    throw s!"ValueError: missing vault manifest checksum: {checksumName}"
  let payload ← readTextAt rt tree manifestName
  let expectedChecksum ← readChecksum rt tree
  let same ← compareDigest (rt.sha256Hex payload.toUTF8.toList) expectedChecksum
  if same = false then throw "ValueError: vault manifest checksum mismatch"
  match ← rt.loads payload with
  | .obj members =>
    let format := (JsonObject.get members "format").getD .null
    if format ≠ .str manifestFormat then
      throw s!"ValueError: unsupported vault manifest format: {rt.repr format}"
    match JsonObject.get members "files" with
    | some (.arr files) => return (payload, files)
    | _ => throw "ValueError: vault manifest missing files list"
  | value => throw s!"AttributeError: {rt.repr value} has no attribute 'get'"

/-- The check of the signature; it tells whether there is one. -/
def verifySignature (payload : String) (signingKey : Option String) (requireSignature : Bool) :
    Except String Bool := do
  let signed := (nodeAt tree [signatureName]).isSome
  if requireSignature && !signed then
    throw s!"ValueError: missing vault manifest signature: {signatureName}"
  if signed || requireSignature then
    match signingKey.filter fun key => key ≠ "" with
    | none => throw "ValueError: vault manifest signature verification requires a signing key"
    | some key =>
      let signature ← readSignature rt tree
      let expected := rt.hmacSha256Hex key.toUTF8.toList payload.toUTF8.toList
      let same ← compareDigest signature expected
      if same = false then throw "ValueError: vault manifest signature mismatch"
  return signed

/-- Verify a materialized vault manifest before import. -/
def verifyVaultManifest (signingKey : Option String) (requireSignature : Bool) :
    Except String VaultManifestVerification := do
  let (payload, files) ← readManifest rt tree
  verifyFileEntries rt tree files
  let signed ← verifySignature rt tree payload signingKey requireSignature
  return ⟨files.length, signed⟩

end VaultManifest

namespace ImportVault

variable (rt : ManifestRuntime) (tree : DirectoryTree)

/-- `sorted(root.rglob("*.md"))`. -/
def markdownEntries : List TreeEntry :=
  sortedBy (fun entry => entry.parts) <| tree.rows.filter fun entry =>
    entry.parts.getLast?.any fun name => Text.endsWith ".md".toList name.toList

/-- The files of the import: every Markdown file of the tree, with its text. -/
def collectFiles : List TreeEntry → Except String (List VaultImportSource)
  | [] => .ok []
  | entry :: rest => do
    let content ← rt.readText (← VaultManifest.readBytes tree entry.parts)
    let others ← collectFiles rest
    return ⟨"/".intercalate entry.parts, content.toList⟩ :: others

/-- The Markdown files that the importer has read when it ends or meets one that it cannot read. -/
def filesRead : List TreeEntry :=
  (markdownEntries tree).takeWhile fun entry =>
    ((VaultManifest.readBytes tree entry.parts).bind rt.readText).isOk

/-- The beginning of `main`: the manifest is verified if there is one or it is asked for, and the
files are read. -/
def prepare (signingKey : Option String) (requireManifest requireSignature : Bool) :
    Except String (Option VaultManifestVerification × List VaultImportSource) := do
  let verification ←
    if requireManifest || requireSignature ||
        (VaultManifest.nodeAt tree [VaultManifest.manifestName]).isSome then
      (VaultManifest.verifyVaultManifest rt tree signingKey requireSignature).map some
    else .ok none
  let files ← collectFiles rt tree (markdownEntries tree)
  return (verification, files)

end ImportVault

end MemoryPlane
