import MemoryPlane.Domain.Models
import MemoryPlane.Python.Numbers

/-!
# Reading vault notes

The subset of Markdown with frontmatter that the vault importer reads: a block of scalar and list
members between two rulers, and a body that ends at the first section that the exporter owns and
is cleared of technical payloads line by line.
-/

namespace MemoryPlane

/-- The parts of the language runtime that the reader of notes uses. -/
structure NoteRuntime where
  unicode : Unicode
  /-- `str.lower`. -/
  lower : List Char → List Char
  lower_ascii : ∀ s, (∀ c ∈ s, c.toNat < 128) → lower s = s.map Char.toLower
  /-- The float nearest to a real number. -/
  round : ℚ → ℚ

/-- The runtime for small runs on ASCII text. -/
def asciiNotes : NoteRuntime := ⟨asciiUnicode, List.map Char.toLower, fun _ _ => rfl, binary64⟩

/-- A scalar of the frontmatter. -/
inductive FrontmatterScalar where
  | none
  | bool (b : Bool)
  | int (n : ℤ)
  | float (x : PyFloat)
  | str (s : List Char)
  | emptyList
  | emptyDict
  deriving DecidableEq

/-- A member of the frontmatter. -/
inductive FrontmatterValue where
  | scalar (v : FrontmatterScalar)
  | list (vs : List FrontmatterScalar)
  deriving DecidableEq

/-- The parsed frontmatter, in the order of the lines; a later member hides an earlier one of the
same name. -/
abbrev Frontmatter := List (List Char × FrontmatterValue)

/-- `frontmatter.get(key)`. -/
def Frontmatter.get (f : Frontmatter) (key : String) : Option FrontmatterValue :=
  (f.reverse.find? fun m => m.1 = key.toList).map Prod.snd

/-- A parsed note. -/
structure ParsedMarkdownNote where
  frontmatter : Frontmatter
  body : List Char

namespace VaultNotes

variable (rt : NoteRuntime)

/-- `_is_float_like`. -/
def isFloatLike (value : List Char) : Bool := (readFloat rt.unicode rt.round value).isSome

/-- Parse one scalar from exporter-generated YAML. -/
def parseYamlScalar (value : List Char) : FrontmatterScalar :=
  if value = "null".toList then .none
  else if value = "true".toList then .bool true
  else if value = "false".toList then .bool false
  else if value = "[]".toList then .emptyList
  else if value = "\x7b\x7d".toList then .emptyDict
  else if 2 ≤ value.length ∧ value.head? = some '"' ∧ value.getLast? = some '"' then
    .str (Text.replace ['\\', '\\'] ['\\']
      (Text.replace ['\\', '"'] ['"'] (value.tail.dropLast)))
  else
    match readInt rt.unicode value with
    | some n => .int n
    | none =>
      match readFloat rt.unicode rt.round value with
      | some x => .float x
      | none => .str value

/-- What one line of the frontmatter outside a list block says: nothing, a key that a list block
may follow, or a key with its scalar. -/
def frontmatterLine (line : List Char) :
    Except Exn (Option (List Char × Option FrontmatterScalar)) :=
  if line.all isSpace then .ok none
  else if Text.startsWith [' '] line ∨ ':' ∉ line then
    .error (.valueError s!"unsupported frontmatter line: {String.ofList line}")
  else
    let key := line.takeWhile (· ≠ ':')
    let value := Text.stripWith isSpace (line.dropWhile (· ≠ ':')).tail
    .ok (some (key, if value = [] then none else some (parseYamlScalar rt value)))

/-- The member of a list block that has ended. -/
def listMember : Option (List Char × List FrontmatterScalar) → Frontmatter
  | none => []
  | some (key, values) => [(key, .list values)]

/-- Parse conservative YAML scalars and list blocks; `listing` is the key whose list items are
being read, with the items so far. -/
def parseFrontmatterFrom (listing : Option (List Char × List FrontmatterScalar)) :
    List (List Char) → Except Exn Frontmatter
  | [] => .ok (listMember listing)
  | line :: rest =>
    match listing, Text.startsWith "  - ".toList line with
    | some (key, values), true =>
      parseFrontmatterFrom
        (some (key, values ++ [parseYamlScalar rt (Text.stripWith isSpace (line.drop 4))])) rest
    | _, _ =>
      (frontmatterLine rt line).bind fun
        | none => (parseFrontmatterFrom none rest).map fun f => listMember listing ++ f
        | some (key, none) =>
          (parseFrontmatterFrom (some (key, [])) rest).map fun f => listMember listing ++ f
        | some (key, some value) =>
          (parseFrontmatterFrom none rest).map fun f =>
            listMember listing ++ (key, .scalar value) :: f

/-- `_parse_frontmatter`. -/
def parseFrontmatter (lines : List (List Char)) : Except Exn Frontmatter :=
  parseFrontmatterFrom rt none lines

/-- The headings of vault sections that are not human-editable memory text. -/
def systemHeadings : List String :=
  ["provenance", "quote", "links", "evidence", "embedding", "embeddings", "vector", "vectors",
    "vector data", "metadata", "frontmatter", "revision", "revisions", "technical", "system",
    "service data", "service", "debug", "diagnostics", "checksums", "checksums and signatures",
    "служебное", "служебные данные", "вектор", "векторы", "векторные данные", "embedding данные",
    "эмбеддинг", "эмбеддинги", "технические данные", "метаданные", "ревизии", "диагностика"]

/-- `_is_system_heading`. -/
def isSystemHeading (line : List Char) : Bool :=
  let stripped := Text.stripWith isSpace line
  Text.startsWith "##".toList stripped &&
    (systemHeadings.map String.toList).contains
      (rt.lower (Text.stripWith isSpace (stripped.dropWhile (· == '#'))))

/-- The keys of technical fields. -/
def systemKeys : List String :=
  ["embedding", "embeddings", "vector", "vectors", "metadata", "provenance", "revision",
    "revisions", "checksum_sha256", "checksum", "source", "origin", "object", "supersedes",
    "superseded_by", "tenant_id", "workspace_id", "item_id", "id", "payload", "point", "points",
    "qdrant", "dense", "sparse", "values", "dimension", "dimensions", "dim", "model",
    "model_name", "provider", "score", "distance", "created_at", "updated_at", "valid_from",
    "valid_to", "observed_at", "labels", "confidence", "importance", "status", "type",
    "эмбеддинг", "эмбеддинги", "вектор", "векторы", "метаданные", "ревизия", "ревизии",
    "источник", "контрольная сумма", "служебные данные", "размерность", "модель", "провайдер"]

/-- `_looks_like_system_field`. -/
def looksLikeSystemField (line : List Char) : Bool :=
  let normalized := (rt.lower line).dropWhile fun c => c == '"' || c == '\''
  systemKeys.any fun key =>
    Text.startsWith key.toList normalized && [":", "\":", "':", "=", " ="].any fun mark =>
      Text.startsWith mark.toList (normalized.drop key.length)

/-- `_looks_like_vector_payload`. -/
def looksLikeVectorPayload (line : List Char) : Bool :=
  let compact := Text.stripWith (fun c => c == '[' || c == ']') (Text.stripWith isSpace line)
  if compact.contains ',' then
    let parts := ((compact.splitOn ',').map (Text.stripWith isSpace)).filter (· ≠ [])
    4 ≤ parts.length && parts.all (isFloatLike rt)
  else
    let parts := Text.split compact
    9 ≤ parts.length && parts.all (isFloatLike rt)

/-- `_looks_like_vector_block_start`. -/
def looksLikeVectorBlockStart (line : List Char) : Bool :=
  let stripped := Text.stripWith isSpace line
  stripped == ['['] ||
    Text.startsWith ['['] stripped &&
      let remainder := Text.rstripWith (· == ',') (Text.stripWith isSpace stripped.tail)
      !remainder.isEmpty && isFloatLike rt remainder

/-- `_looks_like_structured_payload_start`. -/
def looksLikeStructuredPayloadStart (line : List Char) : Bool :=
  let lowered := rt.lower line
  if Text.startsWith "```".toList lowered &&
      ["json", "yaml", "yml", "embedding", "vector", "qdrant"].any fun token =>
        Text.occurs token.toList lowered then true
  else
    (Text.startsWith ['\x7b'] lowered || Text.startsWith ['['] lowered) &&
      ["embedding", "embeddings", "vector", "vectors", "payload", "qdrant", "metadata",
        "provenance", "dimension", "model_name"].any fun token =>
          Text.occurs token.toList lowered

/-- The line is a heading, a field or a payload that is dropped from editable text. -/
def isTechnical (line : List Char) : Bool :=
  let stripped := Text.stripWith isSpace line
  isSystemHeading rt line || looksLikeSystemField rt stripped ||
    looksLikeVectorPayload rt stripped ||
    looksLikeVectorBlockStart rt stripped || looksLikeStructuredPayloadStart rt stripped

/-- The nesting of a dropped block after one of its lines. -/
def blockDepth (depth : ℕ) (stripped : List Char) : ℕ :=
  depth + (stripped.count '\x7b' + stripped.count '[') -
    stripped.count '\x7d' - stripped.count ']'

/-- The lines that stay; `fence` and `depth` say whether a fenced or a nested block is being
dropped. -/
def keptLines (fence : Bool) (depth : ℕ) : List (List Char) → List (List Char)
  | [] => []
  | line :: rest =>
    let stripped := Text.stripWith isSpace line
    if fence then keptLines (!Text.startsWith "```".toList stripped) depth rest
    else if depth ≠ 0 then keptLines false (blockDepth depth stripped) rest
    else if stripped = [] then [] :: keptLines false 0 rest
    else if isTechnical rt line then
      if Text.startsWith "```".toList stripped then keptLines true 0 rest
      else if Text.endsWith ['\x7b'] stripped || Text.endsWith ['['] stripped then
        keptLines false 1 rest
      else keptLines false 0 rest
    else line :: keptLines false 0 rest

/-- `while "\n\n\n" in value: value = value.replace("\n\n\n", "\n\n")`, at most so many times. -/
def collapseFrom : ℕ → List Char → List Char
  | 0, value => value
  | n + 1, value =>
    if Text.occurs "\n\n\n".toList value then
      collapseFrom n (Text.replace "\n\n\n".toList "\n\n".toList value)
    else value

/-- `_collapse_blank_lines`: each round of the loop shortens the text. -/
def collapseBlankLines (value : List Char) : List Char := collapseFrom value.length value

/-- Drop technical vector/provenance payloads that leaked into editable text. -/
def sanitizeEditableBody (value : List Char) : List Char :=
  Text.stripWith isSpace
    (collapseBlankLines (Text.joinLines (keptLines rt false 0 (Text.splitlines value))))

/-- Parse the subset of Markdown/frontmatter emitted by the vault exporter. -/
def parseMarkdownNote (content : List Char) : Except Exn ParsedMarkdownNote :=
  match Text.splitlines content with
  | [] => .error (.valueError "missing YAML frontmatter")
  | first :: rest =>
    if Text.stripWith isSpace first ≠ "---".toList then
      .error (.valueError "missing YAML frontmatter")
    else if "---".toList ∉ rest then .error (.valueError "unterminated YAML frontmatter")
    else
      (parseFrontmatter rt (rest.takeWhile (· ≠ "---".toList))).map fun frontmatter =>
        let bodyLines := (rest.dropWhile (· ≠ "---".toList)).tail
        ⟨frontmatter,
          sanitizeEditableBody rt
            (Text.joinLines (bodyLines.takeWhile fun line => !isSystemHeading rt line))⟩

/-- The text of a member that `UUID`, `int` or a prefix test can accept: `str(value)` of every
other value holds a character that all of them reject. -/
def textOfValue : FrontmatterValue → Option (List Char)
  | .scalar (.str s) => some s
  | .scalar (.int n) => some (toString n).toList
  | _ => none

/-- Parse a memory note identifier from frontmatter. -/
def parseNoteId (value : Option FrontmatterValue) : Except Exn UUID :=
  match value.bind textOfValue with
  | none => .error (.valueError "memory id must start with mem-")
  | some text =>
    if Text.startsWith "mem-".toList text then
      match UUID.parse rt.unicode (String.ofList (text.drop 4)) with
      | some id => .ok id
      | none => .error (.valueError "badly formed hexadecimal UUID string")
    else .error (.valueError "memory id must start with mem-")

/-- `int(str(frontmatter["revision"]))`. -/
def noteRevision (frontmatter : Frontmatter) : Except Exn ℤ :=
  match frontmatter.get "revision" with
  | none => .error (.keyError "'revision'")
  | some value =>
    match (textOfValue value).bind (readInt rt.unicode) with
    | some n => .ok n
    | none => .error (.valueError "invalid literal for int() with base 10")

/-- `UUID(str(frontmatter[key]))`. -/
def noteUuid (frontmatter : Frontmatter) (key : String) : Except Exn UUID :=
  match frontmatter.get key with
  | none => .error (.keyError s!"'{key}'")
  | some value =>
    match (textOfValue value).bind fun text => UUID.parse rt.unicode (String.ofList text) with
    | some id => .ok id
    | none => .error (.valueError "badly formed hexadecimal UUID string")

/-- Return a bounded float when frontmatter contains a numeric confidence. -/
def optionalFloat (value : Option FrontmatterValue) : Except Exn (Option ℚ) :=
  let bounded (q : ℚ) : Except Exn (Option ℚ) :=
    if 0 ≤ q ∧ q ≤ 1 then .ok (some q)
    else .error (.valueError "confidence must be between 0 and 1")
  match value with
  | none | some (.scalar .none) => .ok none
  | some (.scalar (.bool b)) => bounded (if b then 1 else 0)
  | some (.scalar (.int n)) =>
    if n.natAbs < 2 ^ 1024 - 2 ^ 970 then bounded n
    else .error (.overflowError "int too large to convert to float")
  | some (.scalar (.float (.finite q))) => bounded q
  | some (.scalar (.float _)) => .error (.valueError "confidence must be between 0 and 1")
  | some (.scalar (.str s)) =>
    match readFloat rt.unicode rt.round s with
    | some (.finite q) => bounded q
    | some _ => .error (.valueError "confidence must be between 0 and 1")
    | none => .error (.valueError "could not convert string to float")
  | some (.scalar .emptyList) | some (.list _) =>
    .error (.typeError "float() argument must be a string or a real number, not 'list'")
  | some (.scalar .emptyDict) =>
    .error (.typeError "float() argument must be a string or a real number, not 'dict'")

end VaultNotes

end MemoryPlane
