import MemoryPlane.Contracts.Commands
import MemoryPlane.Python.Text

/-!
# The plugin of agent runtimes

What the shared plugin sends to the server for one event of an agent run, and the key under which
the server keeps it once.
-/

namespace MemoryPlane

/-- Agent lifecycle events worth turning into durable memory. -/
inductive AgentEventKind where
  | message | toolCall | checkpoint | error | humanFeedback | runSummary
  deriving DecidableEq

def AgentEventKind.value : AgentEventKind → String
  | .message => "message"
  | .toolCall => "tool_call"
  | .checkpoint => "checkpoint"
  | .error => "error"
  | .humanFeedback => "human_feedback"
  | .runSummary => "run_summary"

/-- Stable identity and scope passed by an agent runtime. -/
structure AgentRunContext where
  tenantId : UUID
  workspaceId : UUID
  agentId : Option UUID := none
  threadId : Option UUID := none
  labels : List String := []

/-- Runtime-neutral event captured by a plugin adapter. -/
structure AgentLifecycleEvent where
  kind : AgentEventKind
  text : String
  context : AgentRunContext
  toolName : Option String := none
  error : Option String := none

/-- What the plugin is configured to retain. -/
structure AgentMemoryConfig where
  enabled : Bool
  retainMessages : Bool
  retainToolTraces : Bool
  retainErrors : Bool

/-- `hashlib.sha256(text).hexdigest()[:24]`. -/
structure StableDigest where
  of : String → String
  length : ∀ text, (of text).length = 24

namespace AgentPlugin

/-- `_event_mapping`; every kind has a layer and a memory kind. -/
def eventMapping : AgentEventKind → MemoryLayer × String
  | .message => (.episodic, "agent_message")
  | .toolCall => (.procedural, "tool_trace")
  | .error => (.error, "agent_error")
  | .humanFeedback => (.social, "human_feedback")
  | .runSummary => (.episodic, "run_summary")
  | .checkpoint => (.working, "checkpoint_note")

/-- A text that is given and not empty. -/
def present (text : Option String) : Option String := text.filter (· ≠ "")

/-- `_event_text`. -/
def eventText (event : AgentLifecycleEvent) : String :=
  match event.kind, present event.toolName, present event.error with
  | .toolCall, some toolName, _ => "Tool `" ++ toolName ++ "`: " ++ event.text
  | .error, _, some error => event.text ++ "\n\nError: " ++ error
  | _, _, _ => event.text

/-- `event.tool_name or "none"`. -/
def toolLabel (event : AgentLifecycleEvent) : String := (present event.toolName).getD "none"

/-- The parts of a key, with colons between them. -/
def joinKey (thread kind tool digest : String) : String :=
  "agent-event:" ++ thread ++ ":" ++ kind ++ ":" ++ tool ++ ":" ++ digest

/-- `_event_idempotency_key`. -/
def eventIdempotencyKey (digest : StableDigest) (event : AgentLifecycleEvent) : String :=
  joinKey (event.context.threadId.getD event.context.workspaceId).str event.kind.value
    (toolLabel event) (digest.of event.text)

/-- The configuration keeps events of a kind. -/
def keeps (config : AgentMemoryConfig) : AgentEventKind → Bool
  | .message => config.retainMessages
  | .toolCall => config.retainToolTraces
  | .error => config.retainErrors
  | _ => true

/-- The command that the server makes of what the plugin sends for an event. -/
def commandOf (digest : StableDigest) (event : AgentLifecycleEvent) : RetainCommand where
  tenantId := event.context.tenantId
  workspaceId := event.context.workspaceId
  agentId := event.context.agentId
  threadId := event.context.threadId
  layer := (eventMapping event.kind).1
  scope := if event.context.threadId.isSome then .thread else .workspace
  kind := (eventMapping event.kind).2
  text := eventText event
  labels := event.context.labels
  provenance := { sourceKind := "agent-plugin" }
  idempotencyKey := some (eventIdempotencyKey digest event)

/-- Retain durable memory created from one runtime event. -/
def afterEvent (config : AgentMemoryConfig) (digest : StableDigest) (event : AgentLifecycleEvent) :
    Option RetainCommand :=
  if config.enabled = false ∨ Text.isBlank event.text then none
  else if keeps config event.kind = false then none
  else some (commandOf digest event)

/-- What is sent is the command of a text that is not blank. -/
theorem afterEvent_eq_some {config : AgentMemoryConfig} {digest : StableDigest}
    {event : AgentLifecycleEvent} {command : RetainCommand} :
    afterEvent config digest event = some command ↔
      (config.enabled = true ∧ keeps config event.kind = true) ∧
        Text.isBlank event.text = false ∧ command = commandOf digest event := by
  rw [afterEvent]
  constructor
  · intro h
    split at h
    · cases h
    · next hblank =>
      rw [not_or, Bool.not_eq_false, Bool.not_eq_true] at hblank
      split at h
      · cases h
      · next hkeeps =>
        cases h
        exact ⟨⟨hblank.1, Bool.not_eq_false _ ▸ hkeeps⟩, hblank.2, rfl⟩
  · rintro ⟨⟨henabled, hkeeps⟩, hblank, rfl⟩
    rw [if_neg (by simp [henabled, hblank]), if_neg (by simp [hkeeps])]

end AgentPlugin

end MemoryPlane
