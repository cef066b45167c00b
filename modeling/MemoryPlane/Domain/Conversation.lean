import MemoryPlane.Domain.Models

/-!
# Conversation turns

A raw turn of a conversation is kept apart from curated memory. Its texts may be replaced by a
marker, once and for all; what remains identifies the turn for audits.
-/

namespace MemoryPlane

/-- The text that stands for purged content. -/
def purgedConversationContent : String := "[PURGED_AFTER_CURATION]"

theorem isBlank_purgedContent : Text.isBlank purgedConversationContent = false := by decide

/-- How a raw turn is treated by maintenance. -/
inductive ConversationRetentionPolicy where
  | rawOnly | curatedOnly | rawAndCurated
  deriving DecidableEq

def ConversationRetentionPolicy.value : ConversationRetentionPolicy → String
  | .rawOnly => "raw_only"
  | .curatedOnly => "curated_only"
  | .rawAndCurated => "raw_and_curated"

/-- Fields of one message of a turn. -/
structure MessageFields where
  role : String
  content : String
  name : Option String
  metadata : JsonObject
  deriving DecidableEq

/-- `ConversationMessage.__post_init__`. -/
def MessageFields.postInit (m : MessageFields) : Except Exn Unit :=
  if Text.isBlank m.role then
    .error (.valueError "conversation message role must not be empty")
  else if Text.isBlank m.content then
    .error (.valueError "conversation message content must not be empty")
  else .ok ()

/-- One message that passed its constructor. -/
structure ConversationMessage extends MessageFields where
  valid : toMessageFields.postInit = .ok ()
  deriving DecidableEq

theorem MessageFields.postInit_eq_ok {m : MessageFields} :
    m.postInit = .ok () ↔ Text.isBlank m.role = false ∧ Text.isBlank m.content = false := by
  unfold postInit
  cases Text.isBlank m.role <;> cases Text.isBlank m.content <;> simp

/-- Construction, which runs the checks. -/
def ConversationMessage.new (m : MessageFields) : Except Exn ConversationMessage :=
  match h : m.postInit with
  | .ok () => .ok ⟨m, h⟩
  | .error e => .error e

/-- The message with its text replaced by the marker. -/
def ConversationMessage.purged (m : ConversationMessage) (retention : Json) :
    ConversationMessage :=
  { role := m.role
    content := purgedConversationContent
    name := m.name
    metadata := m.metadata.set "retention" retention
    valid := MessageFields.postInit_eq_ok.mpr
      ⟨(MessageFields.postInit_eq_ok.mp m.valid).1, isBlank_purgedContent⟩ }

/-- Fields of a raw transcript unit. -/
structure TurnFields where
  tenantId : UUID
  workspaceId : UUID
  threadId : UUID
  messages : List ConversationMessage
  id : UUID
  «namespace» : String
  agentId : Option UUID
  sourceKind : String
  retentionPolicy : ConversationRetentionPolicy
  metadata : JsonObject
  createdAt : DateTime
  expiresAt : Option DateTime
  deriving DecidableEq

/-- `ConversationTurn.__post_init__`. -/
def TurnFields.postInit (t : TurnFields) : Except Exn Unit :=
  if Text.isBlank t.namespace then
    .error (.valueError "conversation namespace must not be empty")
  else if Text.isBlank t.sourceKind then
    .error (.valueError "conversation source_kind must not be empty")
  else if t.messages = [] then
    .error (.valueError "conversation turn requires at least one message")
  else if t.expiresAt.any (fun e => decide (e ≤ t.createdAt)) then
    .error (.valueError "conversation turn expiry must be after creation")
  else .ok ()

/-- What the checks establish. -/
structure TurnFields.Valid (t : TurnFields) : Prop where
  «namespace» : Text.isBlank t.namespace = false
  sourceKind : Text.isBlank t.sourceKind = false
  messages : t.messages ≠ []
  expiry : t.expiresAt.any (fun e => decide (e ≤ t.createdAt)) = false

theorem TurnFields.postInit_eq_ok {t : TurnFields} : t.postInit = .ok () ↔ t.Valid := by
  unfold postInit
  constructor
  · intro h
    split at h
    · cases h
    split at h
    · cases h
    split at h
    · cases h
    split at h
    · cases h
    rename_i hn hs hm he
    exact ⟨by simpa using hn, by simpa using hs, hm, by simpa using he⟩
  · intro h
    rw [if_neg (by simp [h.namespace]), if_neg (by simp [h.sourceKind]), if_neg h.messages,
      if_neg (by simp [h.expiry])]

/-- A raw transcript unit that passed its constructor. -/
structure ConversationTurn extends TurnFields where
  valid : toTurnFields.postInit = .ok ()
  deriving DecidableEq

namespace ConversationTurn

/-- Construction, which runs the checks. -/
def new (t : TurnFields) : Except Exn ConversationTurn :=
  match h : t.postInit with
  | .ok () => .ok ⟨t, h⟩
  | .error e => .error e

/-- The texts of the messages. -/
def contents (t : ConversationTurn) : List String := t.messages.map fun m => m.content

/-- The turn with all texts replaced by the marker, and the reason kept. -/
def purged (t : ConversationTurn) (reason : String) : ConversationTurn :=
  let retention : Json := .obj [("raw_content", .str reason)]
  { toTurnFields :=
      { t.toTurnFields with
        messages := t.messages.map fun m => m.purged retention
        metadata := t.metadata.set "retention" retention }
    valid := by
      have h := TurnFields.postInit_eq_ok.mp t.valid
      exact TurnFields.postInit_eq_ok.mpr
        ⟨h.namespace, h.sourceKind, by simpa using h.messages, h.expiry⟩ }

/-- Every text is the marker. -/
def IsPurged (t : ConversationTurn) : Prop := ∀ c ∈ t.contents, c = purgedConversationContent

instance (t : ConversationTurn) : Decidable t.IsPurged := by
  unfold IsPurged
  infer_instance

/-- Everything but the texts and the metadata agrees: identity, boundary and, message by
message, roles and names. -/
structure SameShape (t u : ConversationTurn) : Prop where
  id : u.id = t.id
  tenant : u.tenantId = t.tenantId
  workspace : u.workspaceId = t.workspaceId
  thread : u.threadId = t.threadId
  agent : u.agentId = t.agentId
  created : u.createdAt = t.createdAt
  policy : u.retentionPolicy = t.retentionPolicy
  count : u.messages.length = t.messages.length
  roles : (u.messages.map fun m => m.role) = t.messages.map fun m => m.role
  names : (u.messages.map fun m => m.name) = t.messages.map fun m => m.name

theorem SameShape.refl (t : ConversationTurn) : t.SameShape t := by constructor <;> rfl

variable (t : ConversationTurn) (reason : String)

@[simp] theorem purged_id : (t.purged reason).id = t.id := rfl

@[simp] theorem purged_tenantId : (t.purged reason).tenantId = t.tenantId := rfl

theorem isPurged_purged : (t.purged reason).IsPurged := by
  intro c hc
  simp only [contents, purged, List.map_map, List.mem_map] at hc
  obtain ⟨m, -, rfl⟩ := hc
  rfl

/-- Purging changes texts and metadata only. -/
theorem sameShape_purged : t.SameShape (t.purged reason) := by
  constructor <;> simp [purged, ConversationMessage.purged, Function.comp_def]

end ConversationTurn

end MemoryPlane
