import Mathlib.Data.String.Basic
import MemoryPlane.Domain.Models
import MemoryPlane.Lib.Sequences
import MemoryPlane.Python.Lines

/-!
# Writing vault notes

The note of a memory item: a block of frontmatter, the text of the item, and sections for its
provenance, its quote and its links. Every value of the frontmatter is printed on the line of its
key or, when it is a list or a dictionary, on indented lines below it.
-/

namespace MemoryPlane

/-- A text on one line. -/
def IsLine (s : List Char) : Prop := ∀ c ∈ s, isLineBreak c = false

-- The library can also decide a statement about all characters by trying every character.
instance (s : List Char) : Decidable (IsLine s) :=
  List.decidableBAll (fun c => isLineBreak c = false) s

/-- How the language prints floats and moments. -/
structure NotePrinting where
  /-- `str` of a float. -/
  float : ℚ → String
  /-- `isoformat` of a moment. -/
  isoformat : DateTime → String
  float_line : ∀ q, IsLine (float q).toList
  isoformat_line : ∀ t, IsLine (isoformat t).toList

/-- One generated Markdown file inside a vault export. -/
structure VaultFile where
  path : String
  content : List Char
  deriving DecidableEq

namespace VaultExporter

open Text

/-- A text in double quotes, with its backslashes and quotes escaped. -/
def quoted (s : List Char) : List Char :=
  '"' :: replace ['"'] ['\\', '"'] (replace ['\\'] ['\\', '\\'] s) ++ ['"']

variable (pr : NotePrinting)

mutual
/-- Render YAML scalars, lists and shallow dicts without dependencies. -/
def yamlValue (indent : ℕ) : Json → List Char
  | .null => "null".toList
  | .bool b => if b then "true".toList else "false".toList
  | .int n => (toString n).toList
  | .float q => (pr.float q).toList
  | .str s => quoted s.toList
  | .arr xs =>
    if xs.isEmpty then "[]".toList else '\n' :: joinLines (yamlItems (indent + 2) xs)
  | .obj members =>
    if members.isEmpty then "\x7b\x7d".toList
    else '\n' :: joinLines ((sortedBy Prod.fst (yamlMembers (indent + 2) members)).map Prod.snd)

/-- The items of a list, each behind its dash. -/
def yamlItems (pad : ℕ) : List Json → List (List Char)
  | [] => []
  | x :: xs => (List.replicate pad ' ' ++ '-' :: ' ' :: yamlValue pad x) :: yamlItems pad xs

/-- The members of a dictionary by name, each behind its key. -/
def yamlMembers (pad : ℕ) : List (String × Json) → List (String × List Char)
  | [] => []
  | (key, value) :: rest =>
    (key, List.replicate pad ' ' ++ (key.toList ++ ':' :: ' ' :: yamlValue pad value)) ::
      yamlMembers pad rest
end

/-- `_frontmatter`: one entry for each value, between two rulers. -/
def frontmatter (values : JsonObject) : List Char :=
  joinLines ("---".toList ::
    values.map (fun m => m.1.toList ++ ':' :: ' ' :: yamlValue pr 0 m.2) ++ ["---".toList])

/-- `_memory_name`. -/
def memoryName (id : UUID) : String := "mem-" ++ id.str

/-- `_optional_uuid`. -/
def optionalUuid (id : Option UUID) : Json := (id.map fun i => Json.str i.str).getD .null

/-- `_optional_datetime`. -/
def optionalDatetime (t : Option DateTime) : Json :=
  (t.map fun t => Json.str (pr.isoformat t)).getD .null

/-- A text that may be missing. -/
def optionalText (s : Option String) : Json := (s.map Json.str).getD .null

/-- `_blockquote`. -/
def blockquote (text : List Char) : List Char :=
  joinLines ((splitlines text).map fun line => '>' :: ' ' :: line)

/-- The status of a note: that of the item unless a later revision replaces it. -/
def noteStatus (item : MemoryItem) (supersededBy : Option UUID) : String :=
  if supersededBy.isSome then "superseded" else item.status.value

/-- The frontmatter of a note. -/
def noteMembers (item : MemoryItem) (supersededBy : Option UUID) : JsonObject :=
  [("id", .str (memoryName item.id)),
    ("type", .str "memory"),
    ("status", .str (noteStatus item supersededBy)),
    ("layer", .str item.layer.value),
    ("scope", .str item.scope.value),
    ("kind", .str item.kind),
    ("tenant_id", .str item.tenantId.str),
    ("workspace_id", .str item.workspaceId.str),
    ("agent_id", optionalUuid item.agentId),
    ("thread_id", optionalUuid item.threadId),
    ("labels", .arr (item.labels.map Json.str)),
    ("importance", .float item.importance),
    ("salience", .float item.salience),
    ("confidence", .float item.confidence),
    ("revision", .int item.revision),
    ("supersedes_id", optionalUuid item.supersedesId),
    ("superseded_by", optionalUuid supersededBy),
    ("observed_at", optionalDatetime pr (some item.observedAt)),
    ("valid_from", optionalDatetime pr item.validFrom),
    ("valid_to", optionalDatetime pr item.validTo),
    ("created_at", optionalDatetime pr (some item.createdAt)),
    ("source_kind", .str item.provenance.sourceKind),
    ("origin_uri", optionalText item.provenance.originUri),
    ("object_key", optionalText item.provenance.objectKey),
    ("checksum_sha256", optionalText item.provenance.checksumSha256),
    ("extraction_version", .str item.provenance.extractionVersion),
    ("metadata", .obj item.metadata)]

/-- A line of the provenance section, for a text that is there and not empty. -/
def provenanceLine (before : String) (text : Option String) (after : String) : List (List Char) :=
  match text with
  | none => []
  | some text => if text = "" then [] else [before.toList ++ text.toList ++ after.toList]

/-- The lines that link a note to its neighbours in the chain of revisions. -/
def noteLinks (item : MemoryItem) (supersededBy : Option UUID) : List (List Char) :=
  (item.supersedesId.map fun id =>
      "- supersedes: [[".toList ++ (memoryName id).toList ++ "]]".toList).toList ++
    (supersededBy.map fun id =>
      "- superseded_by: [[".toList ++ (memoryName id).toList ++ "]]".toList).toList

/-- The sections that follow the heading of the provenance. -/
def noteSections (item : MemoryItem) (supersededBy : Option UUID) : List (List Char) :=
  ("- source: ".toList ++ item.provenance.sourceKind.toList) ::
    provenanceLine "- origin: " item.provenance.originUri "" ++
    provenanceLine "- object: " item.provenance.objectKey "" ++
    provenanceLine "- checksum: `" item.provenance.checksumSha256 "`" ++
    (match item.provenance.quote with
      | none => []
      | some quote => if quote = "" then [] else
        [[], "## Quote".toList, blockquote quote.toList]) ++
    (let links := noteLinks item supersededBy
      if links = [] then [] else [] :: "## Links".toList :: links)

/-- Render a canonical memory item as one Markdown note. -/
def memoryFile (item : MemoryItem) (supersededBy : Option UUID) : VaultFile :=
  ⟨item.layer.value ++ "/" ++ memoryName item.id ++ ".md",
    rstripWith isSpace (joinLines ([frontmatter pr (noteMembers pr item supersededBy), [],
      stripWith isSpace item.text.toList, [], "## Provenance".toList] ++
        noteSections item supersededBy)) ++ ['\n']⟩

/-- `_superseded_by`: of several items that replace one, the last listed. -/
def supersededBy (items : List MemoryItem) (id : UUID) : Option UUID :=
  (items.reverse.find? fun i => i.supersedesId = some id).map fun i => i.id

/-- The notes of the listed items. -/
def memoryFiles (items : List MemoryItem) : List VaultFile :=
  items.map fun item => memoryFile pr item (supersededBy items item.id)

end VaultExporter

end MemoryPlane
