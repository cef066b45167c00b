import MemoryPlane.Python.Lines
import MemoryPlane.Services.Retention

/-!
# Ingestion of documents

A document is normalised and cut into overlapping chunks, and each chunk is retained under a key
that names the checksum and the origin of the document and the place of the chunk. The cut moves
forward by one character at least, so a text is exhausted after as many cuts as it has characters.
-/

namespace MemoryPlane

/-- The fields of a request to ingest one text document. -/
structure IngestFields where
  tenantId : UUID
  workspaceId : UUID
  text : String
  originUri : String
  agentId : Option UUID := none
  threadId : Option UUID := none
  labels : List String := []
  chunkSizeChars : ℤ := 2400
  chunkOverlapChars : ℤ := 240
  documentChecksum : Option String := none
  sourceKind : String := "document"
  extractionVersion : String := "text-chunker-v1"

/-- `IngestDocumentCommand.__post_init__`. -/
def IngestFields.postInit (c : IngestFields) : Except Exn Unit :=
  if Text.isBlank c.text then .error (.valueError "document text must not be empty")
  else if c.chunkSizeChars < 256 then
    .error (.valueError "chunk_size_chars must be at least 256")
  else if ¬(0 ≤ c.chunkOverlapChars ∧ c.chunkOverlapChars < c.chunkSizeChars) then
    .error (.valueError "chunk overlap must be >= 0 and smaller than chunk size")
  else .ok ()

/-- A request that passed its constructor. -/
structure IngestDocumentCommand extends IngestFields where
  valid : toIngestFields.postInit = .ok ()

/-- Canonical memory identities created from a document. -/
structure IngestResult where
  documentChecksum : String
  memoryIds : List UUID
  createdCount : ℕ
  deriving DecidableEq

/-- `s.rfind(pat, start, end)` within the text. -/
def Text.rfind (pat : List Char) (start stop : ℕ) (s : List Char) : ℤ :=
  match (List.range (stop + 1)).reverse.find? fun i =>
      start ≤ i && i + pat.length ≤ stop && pat.isPrefixOf (s.drop i) with
  | some i => i
  | none => -1

/-- What stripping leaves is not blank unless it is empty. -/
theorem Text.not_isBlank_stripWith {s : List Char} (h : Text.stripWith isSpace s ≠ []) :
    Text.isBlank (String.ofList (Text.stripWith isSpace s)) = false := by
  rw [Text.stripWith, Text.rstripWith, ne_eq, List.reverse_eq_nil_iff] at h
  have hlast := List.head_dropWhile_not isSpace h
  rw [Bool.eq_false_iff]
  intro hblank
  rw [Text.isBlank, String.toList_ofList, List.all_eq_true] at hblank
  have hspace := hblank _ (by
    rw [Text.stripWith, Text.rstripWith, List.mem_reverse]
    exact List.head_mem h)
  rw [hspace] at hlast
  cases hlast

/-- A chunk of a normalised text, with its offsets. -/
structure DocumentChunk where
  start : ℕ
  stop : ℕ
  text : String
  deriving DecidableEq

namespace TextChunker

/-- Lines without trailing white space. -/
def normalized (text : String) : List Char :=
  Text.joinLines <|
    (Text.splitlines (Text.stripWith isSpace text.toList)).map (Text.rstripWith isSpace)

/-- Where the chunk from `start` on ends: at the last paragraph or sentence of its second half, or
else at its full size. Without either the sentence boundary is 1, which lies behind `start` 0. -/
def chunkEnd (text : List Char) (size start : ℕ) : ℕ :=
  let hardEnd := min text.length (start + size)
  if hardEnd < text.length then
    let paragraph := Text.rfind ['\n', '\n'] (start + size / 2) hardEnd text
    let sentence := Text.rfind ['.', ' '] (start + size / 2) hardEnd text
    let boundary := max (if 0 ≤ paragraph then paragraph + 2 else -1) (sentence + 2)
    if (start : ℤ) < boundary then boundary.toNat else hardEnd
  else hardEnd

/-- The loop of `split`, for at most so many rounds. -/
def splitFrom (text : List Char) (size overlap : ℕ) : ℕ → ℕ → List DocumentChunk
  | 0, _ => []
  | rounds + 1, start =>
    if start < text.length then
      let stop := chunkEnd text size start
      let chunk := Text.stripWith isSpace (PrivacyGuard.slice text start stop)
      let rest :=
        if text.length ≤ stop then []
        else splitFrom text size overlap rounds (max (start + 1) (stop - overlap))
      if chunk = [] then rest else ⟨start, stop, String.ofList chunk⟩ :: rest
    else []

/-- Split normalized text into overlapping chunks with character offsets. -/
def split (text : String) (size overlap : ℕ) : List DocumentChunk :=
  splitFrom (normalized text) size overlap (normalized text).length 0

/-- No chunk is blank. -/
theorem not_blank_of_mem_splitFrom {text : List Char} {size overlap rounds start : ℕ}
    {chunk : DocumentChunk} (h : chunk ∈ splitFrom text size overlap rounds start) :
    Text.isBlank chunk.text = false := by
  induction rounds generalizing start with
  | zero => cases h
  | succ rounds ih =>
    simp only [splitFrom] at h
    have hrest : chunk ∈ (if text.length ≤ chunkEnd text size start then []
        else splitFrom text size overlap rounds
          (max (start + 1) (chunkEnd text size start - overlap))) →
        Text.isBlank chunk.text = false := by
      intro hmem
      split at hmem
      · cases hmem
      · exact ih hmem
    split at h
    · split at h
      · exact hrest h
      · rename_i hne
        obtain rfl | h := List.mem_cons.mp h
        · exact Text.not_isBlank_stripWith hne
        · exact hrest h
    · cases h

end TextChunker

/-- The chunks of a request. -/
@[irreducible] def IngestDocumentCommand.chunks (command : IngestDocumentCommand) :
    List DocumentChunk :=
  TextChunker.split command.text command.chunkSizeChars.toNat command.chunkOverlapChars.toNat

namespace IngestionService

-- The hexadecimal SHA-256 digest of a text in UTF-8.
variable (sha256Hex : String → String)

/-- `command.document_checksum or sha256(...)`: an empty checksum counts as none. -/
def documentDigest (command : IngestDocumentCommand) : String :=
  match command.documentChecksum with
  | some checksum => if checksum = "" then sha256Hex command.text else checksum
  | none => sha256Hex command.text

/-- The key under which a chunk is retained. -/
def chunkKey (command : IngestDocumentCommand) (index : ℕ) (chunk : DocumentChunk) : String :=
  let digest := documentDigest sha256Hex command
  let originDigest := Text.take 16 (sha256Hex command.originUri)
  let start := chunk.start
  let stop := chunk.stop
  s!"doc:{digest}:origin:{originDigest}:chunk:{index}:{start}:{stop}"

/-- The scope that a request asks for. -/
def requestedScope (command : IngestDocumentCommand) : MemoryScope :=
  if command.threadId.isSome then .thread else .workspace

/-- The request to retain one chunk. -/
def chunkCommand (command : IngestDocumentCommand) (index : ℕ) (chunk : DocumentChunk) :
    RetainCommand where
  tenantId := command.tenantId
  workspaceId := command.workspaceId
  agentId := command.agentId
  threadId := command.threadId
  layer := .episodic
  scope := requestedScope command
  kind := "document_chunk"
  text := chunk.text
  labels := command.labels
  provenance :=
    { sourceKind := command.sourceKind
      originUri := some command.originUri
      checksumSha256 := some (documentDigest sha256Hex command)
      quote := some chunk.text
      extractionVersion := command.extractionVersion }
  idempotencyKey := some (chunkKey sha256Hex command index chunk)

variable {σ : Type} (store : RetentionStore σ) (privacy : PrivacyGuard)

/-- Retain the chunks from the given index on, each with its own draws. -/
def retainChunks (command : IngestDocumentCommand) (d : ℕ → Draws) :
    ℕ → List DocumentChunk → Proc σ Exn (List RetainResult)
  | _, [] => return []
  | index, chunk :: rest => do
    let result ← RetentionService.retain store privacy (chunkCommand sha256Hex command index chunk)
      none (d index)
    let results ← retainChunks command d (index + 1) rest
    return result :: results

/-- Checksum, chunk and retain a text document idempotently. -/
def ingestText (command : IngestDocumentCommand) (d : ℕ → Draws) : Proc σ Exn IngestResult := do
  let results ← retainChunks sha256Hex store privacy command d 0 command.chunks
  return {
    documentChecksum := documentDigest sha256Hex command
    memoryIds := results.map fun r => r.item.id
    createdCount := (results.filter fun r => r.created).length }

end IngestionService

end MemoryPlane
