import MemoryPlane.Adapters.Conversations
import MemoryPlane.Services.Submission

/-!
# Conversation curator

A raw turn is summarized, by a reasoning model or by a fixed rule, and submitted as a proposal
under a key of its own. Where the policy allows it the proposal is accepted at once; otherwise
the raw texts of a staged turn are purged.
-/

namespace MemoryPlane

/-- Request to append one raw conversation turn. -/
structure AppendConversationTurnCommand where
  tenantId : UUID
  workspaceId : UUID
  threadId : UUID
  messages : List ConversationMessage
  «namespace» : String := "default"
  agentId : Option UUID := none
  sourceKind : String := "api"
  retentionPolicy : ConversationRetentionPolicy := .rawAndCurated
  metadata : JsonObject := []
  idempotencyKey : Option String := none

/-- Result of appending a raw transcript turn. -/
structure AppendConversationTurnResult where
  turn : ConversationTurn
  created : Bool
  queuedEventIds : List UUID

/-- The service that appends raw turns. -/
structure ConversationService where
  ops : TextOps
  privacy : PrivacyGuard
  curatedOnlyTtlSeconds : ℕ := 86400
  /-- The configured lifetime is checked when the service is built. -/
  ttl_bounds : 300 ≤ curatedOnlyTtlSeconds ∧ curatedOnlyTtlSeconds ≤ 604800

namespace ConversationService

variable (service : ConversationService)

/-- One message after the guard, with what was found so far. -/
def redactMessage (found : JsonObject) (message : ConversationMessage) :
    Except Exn (ConversationMessage × JsonObject) := do
  let decision ← service.privacy.apply message.content
  let found ←
    if decision.metadata = [] then pure found
    else MemoryProposalService.mergeMetadata service.ops false found decision.metadata
  let redacted ← ConversationMessage.new
    { role := message.role
      name := message.name
      content := decision.text
      metadata := message.metadata.merge decision.metadata }
  return (redacted, found)

/-- All messages after the guard, from first to last. -/
def redactMessages (found : JsonObject) :
    List ConversationMessage → Except Exn (List ConversationMessage × JsonObject)
  | [] => .ok ([], found)
  | message :: rest => do
    let (redacted, found) ← redactMessage service found message
    let (others, found) ← redactMessages found rest
    return (redacted :: others, found)

/-- The event that announces a stored turn. -/
def appendedEvent (turn : ConversationTurn) (id : UUID) (now : DateTime) : IntegrationEvent where
  name := "conversation.turn.appended.v1"
  tenantId := turn.tenantId
  workspaceId := turn.workspaceId
  payload :=
    [("turn_id", .str turn.id.str), ("retention_policy", .str turn.retentionPolicy.value),
      ("jobs", .arr (if turn.retentionPolicy ≠ .rawOnly then [.str "curate"] else []))]
  id := id
  occurredAt := now
  correlationId := some turn.id
  versioned := by decide

/-- The redacted turn of a command. -/
def buildTurn (command : AppendConversationTurnCommand) (d : Draws) :
    Except Exn ConversationTurn := do
  let (messages, found) ← redactMessages service [] command.messages
  ConversationTurn.new
    { tenantId := command.tenantId
      workspaceId := command.workspaceId
      threadId := command.threadId
      messages := messages
      id := d.uuid4 0
      «namespace» := command.namespace
      agentId := command.agentId
      sourceKind := command.sourceKind
      retentionPolicy := command.retentionPolicy
      metadata := command.metadata.merge found
      createdAt := d.now 0
      expiresAt :=
        if command.retentionPolicy = .curatedOnly then
          some ((d.now 0).plusSeconds service.curatedOnlyTtlSeconds)
        else none }

/-- Append a redacted raw turn to the conversation ledger. -/
def appendTurn (command : AppendConversationTurnCommand) (audit : Option AuditEvent) (d : Draws)
    (x : ConversationStore) : Except Exn AppendConversationTurnResult × ConversationStore :=
  match buildTurn service command d with
  | .error e => (.error e, x)
  | .ok turn =>
    let event := appendedEvent turn (d.uuid4 1) (d.now 1)
    let audit := audit.map fun a => a.replaceResource turn.id.str
    let (result, y) := x.appendTurn turn command.idempotencyKey audit (some event)
    (result.map fun r => ⟨r.1, r.2, if r.2 then [event.id] else []⟩, y)

end ConversationService

/-- Request to distill one raw turn into curated memory. -/
structure CurateConversationTurnCommand where
  tenantId : UUID
  turnId : UUID
  importance : ℚ := 2 / 5
  confidence : ℚ := 13 / 20
  autoAccept : Bool := false
  idempotencyKey : Option String := none

/-- Curation output. -/
structure CurateConversationTurnResult where
  retained : Option RetainResult := none
  proposal : Option SubmitMemoryProposalResult := none

/-- `[xs[i:i+k] for i in range(0, len(xs), k)]`. -/
def slices {α : Type} (k : ℕ) (xs : List α) : List (List α) :=
  (List.range ((xs.length + k - 1) / k)).map fun i => (xs.drop (i * k)).take k

@[simp] theorem length_slices {α : Type} (k : ℕ) (xs : List α) :
    (slices k xs).length = (xs.length + k - 1) / k := by simp [slices]

namespace ConversationCurator

variable (ops : TextOps)

/-- The printed name of a speaker. -/
def speaker (m : ConversationMessage) : String :=
  match m.name with
  | none => m.role
  | some name => if name = "" then m.role else s!"{m.role} ({name})"

/-- The text without line breaks. -/
def oneLine (s : String) : String :=
  String.ofList (s.toList.map fun c => if c = '\n' then ' ' else c)

/-- `_deterministic_summary_text`. -/
def deterministicSummaryText (turn : ConversationTurn) : String :=
  let head := ["Conversation turn summary", s!"Namespace: {turn.namespace}",
    s!"Source: {turn.sourceKind}", s!"Turn: {turn.id.str}", "", "Messages:"]
  let body := turn.messages.map fun m => s!"- {speaker m}: {trimText (oneLine m.content) 900}"
  trimText ("\n".intercalate (head ++ body)) 6000

/-- `_conversation_text`. -/
def conversationText (turn : ConversationTurn) : String :=
  let head := [s!"turn_id: {turn.id.str}", s!"namespace: {turn.namespace}",
    s!"source_kind: {turn.sourceKind}", "messages:"]
  "\n".intercalate (head ++ turn.messages.map fun m => s!"- {speaker m}: {m.content}")

/-- `_conversation_chunks` under a given limit. -/
def conversationChunksWithin (limit : ℕ) (turn : ConversationTurn) : List String :=
  let text := conversationText turn
  if text.length ≤ limit then [text] else (slices limit text.toList).map String.ofList

/-- `_conversation_chunks`. -/
def conversationChunks (turn : ConversationTurn) : List String := conversationChunksWithin 6000 turn

/-- `_CURATOR_SYSTEM_PROMPT`. -/
def curatorSystemPrompt : String :=
  "You are Memory Curator for Obelisk Memory. Extract only durable, evidence-backed " ++
  "information. Do not invent facts. Preserve temporal qualifiers such as 'formerly', " ++
  "'now', and dates. If a preference changes, describe the transition rather than a " ++
  "timeless preference. Return JSON object only."

/-- The request for one fragment. -/
def chunkRequest (chunk : String) : ChatRequest where
  messages :=
    [("system", curatorSystemPrompt),
      ("user", "Curate this transcript fragment into compact memory. Return keys summary, " ++
        "durable_facts, decisions, preferences, open_tasks, evidence_quotes, confidence. " ++
        "evidence_quotes must contain only verbatim supporting excerpts from this " ++
        "fragment.\n\n" ++ chunk)]
  temperature := 0
  maxTokens := 700

/-- The request that merges a few answers. -/
def reduceRequest (payloads : List JsonObject) : ChatRequest where
  messages :=
    [("system", curatorSystemPrompt),
      ("user", "Merge these fragment curations. Keep only evidence-backed durable facts, " ++
        "preserve temporal changes, preserve only verbatim evidence_quotes, and return the " ++
        "same JSON keys.\n\n" ++ ops.dumps (.arr (payloads.map .obj)))]
  temperature := 0
  maxTokens := 900

/-- Requests put one after the other, the first being the n-th of the call. -/
def askAll (chat : MemoryReasoner) (n : ℕ) : List ChatRequest → Except String (List JsonObject)
  | [] => .ok []
  | request :: rest => do
    let payload ← chat n request
    return payload :: (← askAll chat (n + 1) rest)

theorem length_askAll {chat : MemoryReasoner} {n : ℕ} {requests : List ChatRequest}
    {payloads : List JsonObject} (h : askAll chat n requests = .ok payloads) :
    payloads.length = requests.length := by
  induction requests generalizing n payloads with
  | nil =>
    cases h
    rfl
  | cons request rest ih =>
    obtain ⟨payload, -, h⟩ := Except.bind_eq_ok.mp h
    obtain ⟨others, ho, h⟩ := Except.bind_eq_ok.mp h
    cases h
    simp [ih ho]

/-- `_reduce_curation`: each round merges batches of four, until one answer is left. -/
def reduceCuration (chat : MemoryReasoner) (n : ℕ) (pending : List JsonObject) :
    Except String JsonObject :=
  match pending with
  | [] => .error "IndexError"
  | [payload] => .ok payload
  | first :: second :: rest =>
    match _h : askAll chat n ((slices 4 (first :: second :: rest)).map (reduceRequest ops)) with
    | .error e => .error e
    | .ok next => reduceCuration chat (n + next.length) next
termination_by pending.length
decreasing_by
  have hlen := length_askAll _h
  simp only [List.length_map, length_slices, List.length_cons] at hlen ⊢
  omega

/-- The answer of the model about a turn, and the number of fragments. -/
def curationPayload (chat : MemoryReasoner) (turn : ConversationTurn) :
    Except String (JsonObject × ℕ) := do
  let chunks := conversationChunks turn
  let payloads ← askAll chat 0 (chunks.map chunkRequest)
  let payload ← reduceCuration ops chat payloads.length payloads
  return (payload, chunks.length)

/-- `_string_list`. -/
def stringList : Option Json → List String
  | some (.str s) => [Text.strip s].filter fun text => text ≠ ""
  | some (.arr xs) => (xs.map fun x => Text.strip (ops.strOrEmpty x)).filter fun text => text ≠ ""
  | _ => []

/-- The lines of one section. -/
def sectionLines (payload : JsonObject) (key title : String) : List String :=
  match stringList ops (payload.get key) with
  | [] => []
  | values => ["", s!"{title}:"] ++ values.map fun value => s!"- {value}"

/-- `_curation_payload_to_text`. -/
def curationPayloadToText (payload : JsonObject) : String :=
  let summary := Text.strip (ops.strOrEmpty ((payload.get "summary").getD .null))
  let lines := ["Conversation memory curation"] ++
    (if summary = "" then [] else ["", "Summary:", summary]) ++
    sectionLines ops payload "durable_facts" "Durable facts" ++
    sectionLines ops payload "decisions" "Decisions" ++
    sectionLines ops payload "preferences" "Preferences" ++
    sectionLines ops payload "open_tasks" "Open tasks"
  let text := Text.strip ("\n".intercalate lines)
  if text = "Conversation memory curation" then "" else trimText text 6000

/-- The texts of a turn, one after the other. -/
def sourceText (turn : ConversationTurn) : String := "\n".intercalate turn.contents

/-- `_verified_evidence_quotes`: the quotes that literally occur in the turn. -/
def verifiedEvidenceQuotes (payload : JsonObject) (turn : ConversationTurn) : List String :=
  let values := (stringList ops (payload.get "evidence_quotes")).map fun quote => trimText quote 500
  (values.filter fun v => 8 ≤ v.length && Text.contains (sourceText turn) v).eraseDups.take 8

/-- `_llm_summary_text`; an answer without content gives none. -/
def llmSummaryText (chat : MemoryReasoner) (turn : ConversationTurn) :
    Except Exn (Option (String × JsonObject)) :=
  match curationPayload ops chat turn with
  | .error failure =>
    .ok (some (deterministicSummaryText turn,
      [("curator_engine", .str "deterministic_fallback"),
        ("curator_version", .str "conversation-curator-v1"), ("llm_error", .str failure)]))
  | .ok (payload, chunks) =>
    let text := curationPayloadToText ops payload
    if text = "" then .ok none
    else do
      let confidence ← ops.safeFloat ((payload.get "confidence").getD .null) .float .null
      return some (text,
        [("curator_engine", .str "memory_llm"),
          ("curator_version", .str "conversation-curator-llm-v2"), ("llm_confidence", confidence),
          ("curator_chunks", .int chunks),
          ("evidence_quotes", .arr ((verifiedEvidenceQuotes ops payload turn).map .str))])

/-- `_summary_text`. -/
def summaryText (llm : Option MemoryReasoner) (turn : ConversationTurn) :
    Except Exn (String × JsonObject) :=
  let deterministic := (deterministicSummaryText turn,
    [("curator_engine", .str "deterministic"),
      ("curator_version", .str "conversation-curator-v1")])
  match llm with
  | none => .ok deterministic
  | some chat => (llmSummaryText ops chat turn).map fun answer => answer.getD deterministic

/-- `_curation_evidence`. -/
def curationEvidence (turn : ConversationTurn) : String :=
  let head := [s!"source_turn_id: {turn.id.str}", s!"observed_at: {ops.isoformat turn.createdAt}",
    s!"namespace: {turn.namespace}", "source_excerpts:"]
  let body := turn.messages.map fun m => s!"- {speaker m}: {trimText m.content 1200}"
  trimText ("\n".intercalate (head ++ body)) 6000

/-- The idempotency key of a curation. -/
def curationKey (command : CurateConversationTurnCommand) (turn : ConversationTurn) : String :=
  (command.idempotencyKey.filter (· ≠ "")).getD s!"curate-conversation-turn:{turn.id.str}"

/-- The submission that a summary turns into. -/
def submitCommand (command : CurateConversationTurnCommand) (turn : ConversationTurn)
    (text : String) (llmMetadata : JsonObject) : SubmitMemoryProposalCommand where
  tenantId := turn.tenantId
  workspaceId := turn.workspaceId
  agentId := turn.agentId
  threadId := turn.threadId
  «namespace» := turn.namespace
  requester := "conversation-curator"
  proposal := text
  evidence := curationEvidence ops turn
  confidence := command.confidence
  importance := command.importance
  metadata := llmMetadata.merge
    [("source_turn_id", .str turn.id.str),
      ("source_observed_at", .str (ops.isoformat turn.createdAt)),
      ("curation_boundary", .str "proposal_required"), ("claim_status", .str "unverified")]
  idempotencyKey := some (curationKey command turn)

end ConversationCurator

/-- A curator with the proposal service behind it: their text operations, the guard of the
proposal service, and the reasoning models of both. -/
structure ConversationCurator where
  ops : TextOps
  proposalPrivacy : PrivacyGuard
  proposalLlm : Option MemoryReasoner := none
  memoryLlm : Option MemoryReasoner := none

namespace ConversationCurator

variable (c : ConversationCurator) (privacy : PrivacyGuard)
  (command : CurateConversationTurnCommand) (turn : ConversationTurn)

/-- Submit the summary of a turn. -/
def submitSummary (audit : Option AuditEvent) (d : Draws) :
    Proc InMemoryMemoryStore Exn SubmitMemoryProposalResult := do
  let (text, llmMetadata) ← Proc.ofExcept (summaryText c.ops c.memoryLlm turn)
  MemoryProposalService.submit c.ops c.proposalPrivacy c.proposalLlm inMemoryProposals
    (submitCommand c.ops command turn text llmMetadata) audit d

/-- Accept the proposal where the request and the policy allow it. -/
def acceptSummary (p : MemoryProposal) (d : Draws) :
    Proc InMemoryMemoryStore Exn (Option ReviewMemoryProposalResult) :=
  if command.autoAccept then MemoryProposalService.autoAccept c.ops inMemoryProposals privacy p d
  else return none

/-- The calls of a curation on the memories and proposals of the store. -/
def propose (audit : Option AuditEvent) (d : Draws) : Proc InMemoryMemoryStore Exn
    (SubmitMemoryProposalResult × Option ReviewMemoryProposalResult) := do
  let proposal ← submitSummary c command turn audit d
  return (proposal, ← acceptSummary c privacy command proposal.proposal (d.drop 1))

/-- Purge a staged turn after its proposal was stored. -/
def purgeStaged (proposal : SubmitMemoryProposalResult) (x : ConversationStore) :
    Except Exn CurateConversationTurnResult × ConversationStore :=
  if turn.retentionPolicy = .curatedOnly then
    match x.purgeTurnContent turn.tenantId turn.id with
    | (true, y) => (.ok { proposal := some proposal }, y)
    | (false, y) =>
      (.error (.runtimeError "curation proposal was saved but raw content purge failed"), y)
  else (.ok { proposal := some proposal }, x)

/-- Create a reviewable proposal from a turn. -/
def curateTurn (audit : Option AuditEvent) (d : Draws) (x : ConversationStore) :
    Except Exn CurateConversationTurnResult × ConversationStore :=
  match x.getTurn command.tenantId command.turnId with
  | none => (.error (.keyError "conversation turn not found"), x)
  | some turn =>
    if turn.retentionPolicy = .rawOnly then
      (.error (.valueError "conversation turn retention policy is raw_only"), x)
    else
      match (propose c privacy command turn audit d).run x.toInMemoryMemoryStore with
      | (.error e, s) => (.error e, { x with toInMemoryMemoryStore := s })
      | (.ok (_, some automatic), s) =>
        (.ok { retained := automatic.retained }, { x with toInMemoryMemoryStore := s })
      | (.ok (proposal, none), s) =>
        purgeStaged turn proposal { x with toInMemoryMemoryStore := s }

end ConversationCurator

end MemoryPlane
