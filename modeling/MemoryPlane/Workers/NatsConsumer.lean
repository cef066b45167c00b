import MemoryPlane.Python.Base64
import MemoryPlane.Python.ZonedTime
import MemoryPlane.Services.Delivery

/-!
# The pull worker

The worker fetches a batch of messages, decodes each one, hands the event to its consumer and tells
the broker what became of the delivery. A delivery that fails is offered again after a delay; one
that failed too often is copied to the dead letters first and then terminated. The broker and the
consumer are given: each has a state that its own calls change, and each call may fail.
-/

namespace MemoryPlane

/-- The parts of the standard library that read an event. Failures are given by their text. -/
structure EnvelopeReader where
  unicode : Unicode
  /-- `json.loads` of bytes. -/
  loads : List UInt8 → Except String Json
  fromisoformat : String → Except String ZonedTime

/-- The event of a message. Nothing checks its payload. -/
structure DecodedEvent where
  id : UUID
  name : String
  tenantId : UUID
  workspaceId : UUID
  correlationId : Option UUID
  occurredAt : ZonedTime
  payload : Json
  versioned : (lastDotted name).head? = some 'v'

/-- `type(value).__name__`. -/
def Json.typeName : Json → String
  | .null => "NoneType"
  | .bool _ => "bool"
  | .int _ => "int"
  | .float _ => "float"
  | .str _ => "str"
  | .arr _ => "list"
  | .obj _ => "dict"

namespace EnvelopeReader

variable (reader : EnvelopeReader)

/-- `value[name]`. -/
def member (name : String) : Json → Except String Json
  | .obj members =>
    match JsonObject.get members name with
    | some value => .ok value
    | none => .error s!"KeyError: '{name}'"
  | .arr _ => .error "TypeError: list indices must be integers or slices, not str"
  | .str _ => .error "TypeError: string indices must be integers, not 'str'"
  | value => .error s!"TypeError: '{value.typeName}' object is not subscriptable"

/-- `UUID(value)`. -/
def uuid : Json → Except String UUID
  | .str text =>
    match UUID.parse reader.unicode text with
    | some id => .ok id
    | none => .error "ValueError: badly formed hexadecimal UUID string"
  | .null =>
    .error "TypeError: one of the hex, bytes, bytes_le, fields, or int arguments must be given"
  | value => .error s!"AttributeError: '{value.typeName}' object has no attribute 'replace'"

/-- The correlation identifier, if there is one. -/
def correlation (value : Json) : Except String (Option UUID) :=
  match value with
  | .obj members =>
    match (JsonObject.get members "correlation_id").getD .null with
    | .null => .ok none
    | id => (reader.uuid id).map some
  | value => .error s!"AttributeError: '{value.typeName}' object has no attribute 'get'"

/-- `datetime.fromisoformat(value)`. -/
def moment : Json → Except String ZonedTime
  | .str text => reader.fromisoformat text
  | _ => .error "TypeError: fromisoformat: argument must be str"

/-- Decode the stable JSON event envelope emitted by the sink. -/
def decode (data : List UInt8) : Except String DecodedEvent := do
  let value ← reader.loads data
  let id ← reader.uuid (← member "id" value)
  let name ← member "name" value
  let tenantId ← reader.uuid (← member "tenant_id" value)
  let workspaceId ← reader.uuid (← member "workspace_id" value)
  let correlationId ← reader.correlation value
  let occurredAt ← reader.moment (← member "occurred_at" value)
  let payload ← member "payload" value
  match name with
  | .str name =>
    if h : (lastDotted name).head? = some 'v' then
      return ⟨id, name, tenantId, workspaceId, correlationId, occurredAt, payload, h⟩
    else .error "ValueError: event name must end in a version, e.g. memory.retained.v1"
  | name => .error s!"AttributeError: '{name.typeName}' object has no attribute 'rsplit'"

end EnvelopeReader

/-- One delivery of a message. -/
structure BrokerMessage where
  data : List UInt8
  subject : String
  /-- `metadata.num_delivered`, if the message has metadata. -/
  numDelivered : Option ℤ

/-- A message for the stream of dead letters. -/
structure DeadLetter where
  subject : String
  stream : String
  messageId : String
  body : JsonObject

/-- The consumer of the worker. A failure is given by its class and its text. -/
structure EventConsumer (κ : Type) where
  handle : κ → DecodedEvent → Except String ConsumerResult × κ

/-- The broker. -/
structure JetStream (τ : Type) where
  publish : τ → DeadLetter → Except String Unit × τ
  ackSync : τ → BrokerMessage → Except String Unit × τ
  nak : τ → BrokerMessage → ℕ → Except String Unit × τ
  term : τ → BrokerMessage → Except String Unit × τ

/-- A call that the worker made for one delivery, and whether it succeeded. -/
inductive WorkerCall where
  | consumed (result : Except String ConsumerResult)
  | publish (letter : DeadLetter) (ok : Bool)
  | ack (ok : Bool)
  | nak (delay : ℕ) (ok : Bool)
  | term (ok : Bool)

/-- The states of the consumer and of the broker. -/
structure WorkerWorld (κ τ : Type) where
  consumer : κ
  transport : τ

/-- What a part of the worker did: its calls, its result and the states behind it. -/
structure Served (κ τ ρ α : Type) where
  calls : ρ
  result : Except String α
  world : WorkerWorld κ τ

/-- A configured worker. -/
structure NatsPullWorker where
  durable : String
  stream : String
  maxDeliveries : ℕ
  retryBaseSeconds : ℕ
  retryMaxSeconds : ℕ
  deadLetterStream : String
  deadLetterSubject : String
  durable_named : Text.isBlank durable = false
  deliveries_pos : 1 ≤ maxDeliveries
  base_pos : 1 ≤ retryBaseSeconds
  base_le_max : retryBaseSeconds ≤ retryMaxSeconds

namespace NatsPullWorker

/-- The constructor, with its checks and defaults. -/
def create (durable : String) (stream : String := "MEMORY_EVENTS") (maxDeliveries : ℕ := 8)
    (retryBaseSeconds : ℕ := 2) (retryMaxSeconds : ℕ := 60)
    (deadLetterStream : String := "MEMORY_DLQ")
    (deadLetterSubject : String := "memory.dead_letters.embedding")
    (deadLetterMaxBytes : ℕ := 134217728) (deadLetterMaxAgeSeconds : ℕ := 1209600) :
    Except Exn NatsPullWorker :=
  if hd : Text.isBlank durable = true then
    .error (.valueError "durable consumer name must not be empty")
  else if hm : maxDeliveries < 1 then .error (.valueError "max_deliveries must be positive")
  else if hr : retryBaseSeconds < 1 ∨ retryMaxSeconds < retryBaseSeconds then
    .error (.valueError "invalid retry delay bounds")
  else if deadLetterMaxBytes < 1 ∨ deadLetterMaxAgeSeconds < 1 then
    .error (.valueError "NATS dead-letter limits must be positive")
  else
    .ok
      { durable, stream, maxDeliveries, retryBaseSeconds, retryMaxSeconds, deadLetterStream
        deadLetterSubject
        durable_named := Text.isBlank_eq_false hd
        deliveries_pos := by omega
        base_pos := by omega
        base_le_max := by omega }

variable {κ τ : Type} (worker : NatsPullWorker) (sha256Hex : List UInt8 → String)
  (reader : EnvelopeReader) (consumer : EventConsumer κ) (broker : JetStream τ)

/-- `_delivery_attempts`. -/
def deliveryAttempts (message : BrokerMessage) : ℕ := (max 1 (message.numDelivered.getD 1)).toNat

/-- The replay record of a message. -/
def deadLetter (message : BrokerMessage) (attempts : ℕ) (error : String) : DeadLetter where
  subject := worker.deadLetterSubject
  stream := worker.deadLetterStream
  messageId := sha256Hex (message.data ++ (toString attempts).toUTF8.toList)
  body :=
    [("consumer", .str worker.durable), ("deliveries", .int attempts),
      ("error", .str (Text.take 2000 error)), ("event_base64", .str (b64encode message.data)),
      ("source_stream", .str worker.stream), ("source_subject", .str message.subject)]

/-- One call of the broker. -/
def invoke (call : Bool → WorkerCall) (r : Except String Unit × τ) (w : WorkerWorld κ τ) :
    Served κ τ (List WorkerCall) Unit :=
  ⟨[call r.1.isOk], r.1, { w with transport := r.2 }⟩

def ackSync (message : BrokerMessage) (w : WorkerWorld κ τ) : Served κ τ (List WorkerCall) Unit :=
  invoke .ack (broker.ackSync w.transport message) w

def nak (message : BrokerMessage) (delay : ℕ) (w : WorkerWorld κ τ) :
    Served κ τ (List WorkerCall) Unit :=
  invoke (.nak delay) (broker.nak w.transport message delay) w

def term (message : BrokerMessage) (w : WorkerWorld κ τ) : Served κ τ (List WorkerCall) Unit :=
  invoke .term (broker.term w.transport message) w

/-- `_publish_dead_letter`. -/
def publishDeadLetter (message : BrokerMessage) (attempts : ℕ) (error : String)
    (w : WorkerWorld κ τ) : Served κ τ (List WorkerCall) Unit :=
  let letter := worker.deadLetter sha256Hex message attempts error
  invoke (.publish letter) (broker.publish w.transport letter) w

/-- Bound poison-message delivery and preserve a replay record first. -/
def retryOrDeadLetter (message : BrokerMessage) (error : String) (w : WorkerWorld κ τ) :
    Served κ τ (List WorkerCall) Unit :=
  let attempts := deliveryAttempts message
  if worker.maxDeliveries ≤ attempts then
    let published := worker.publishDeadLetter sha256Hex broker message attempts error w
    -- never terminally drop without a copy
    let last := match published.result with
      | .error _ => nak broker message worker.retryMaxSeconds published.world
      | .ok _ => term broker message published.world
    ⟨published.calls ++ last.calls, last.result, last.world⟩
  else
    let delay := min worker.retryMaxSeconds (worker.retryBaseSeconds * 2 ^ (attempts - 1))
    nak broker message delay w

/-- The body of the `try` statement; it tells whether the message was acknowledged. -/
def serve (message : BrokerMessage) (w : WorkerWorld κ τ) : Served κ τ (List WorkerCall) Bool :=
  match reader.decode message.data with
  | .error e => ⟨[], .error e, w⟩
  | .ok event =>
    match consumer.handle w.consumer event with
    | (.error e, c) => ⟨[.consumed (.error e)], .error e, { w with consumer := c }⟩
    | (.ok result, c) =>
      let last :=
        if result.busy || (!result.processed && !result.duplicate) then
          (worker.retryOrDeadLetter sha256Hex broker message "consumer_busy"
            { w with consumer := c }, false)
        else (ackSync broker message { w with consumer := c }, true)
      ⟨.consumed (.ok result) :: last.1.calls, last.1.result.map fun _ => last.2, last.1.world⟩

/-- One round of the loop: every failure is a failed delivery. -/
def deliver (message : BrokerMessage) (w : WorkerWorld κ τ) : Served κ τ (List WorkerCall) Bool :=
  let served := worker.serve sha256Hex reader consumer broker message w
  match served.result with
  | .ok _ => served
  | .error e =>
    let last := worker.retryOrDeadLetter sha256Hex broker message e served.world
    ⟨served.calls ++ last.calls, last.result.map fun _ => false, last.world⟩

/-- The loop over the batch; the calls are kept delivery by delivery. -/
def deliverAll : List BrokerMessage → ℕ → WorkerWorld κ τ →
    Served κ τ (List (List WorkerCall)) ℕ
  | [], acknowledged, w => ⟨[], .ok acknowledged, w⟩
  | message :: rest, acknowledged, w =>
    let served := worker.deliver sha256Hex reader consumer broker message w
    match served.result with
    | .error e => ⟨[served.calls], .error e, served.world⟩
    | .ok acked =>
      let others := deliverAll rest (acknowledged + acked.toNat) served.world
      ⟨served.calls :: others.calls, others.result, others.world⟩

/-- What a fetch may come to: messages, no messages in time, or a failure. -/
inductive Fetch where
  | messages (messages : List BrokerMessage)
  | timeout
  | failed (error : String)

/-- Process one bounded batch and return its acknowledged count; `fetched` is what the fetch comes
to, if the worker is connected. -/
def runOnce (fetched : Option Fetch) (w : WorkerWorld κ τ) :
    Served κ τ (List (List WorkerCall)) ℕ :=
  match fetched with
  | none => ⟨[], .error "RuntimeError: NATS worker is not connected", w⟩
  | some .timeout => ⟨[], .ok 0, w⟩
  | some (.failed e) => ⟨[], .error e, w⟩
  | some (.messages messages) => worker.deliverAll sha256Hex reader consumer broker messages 0 w

end NatsPullWorker

end MemoryPlane
