import MemoryPlane.Python.JsonText
import MemoryPlane.Python.Utf8
import MemoryPlane.Workers.NatsConsumer

/-!
# The event stream

The sink that publishes versioned events, and the standard library that writes and reads their
envelopes.
-/

namespace MemoryPlane

/-- The parts of the standard library that write and read an event. -/
structure EnvelopeRuntime where
  unicode : Unicode
  floats : FloatText
  zones : ZoneTable
  /-- `json.loads` of bytes that are no UTF-8 text of finite numbers and paired surrogates. -/
  loadsOther : List UInt8 → Except String Json
  /-- `datetime.fromisoformat` of a text that `isoformat` does not print. -/
  fromisoformatOther : String → Except String ZonedTime

/-- An `IntegrationEvent` whose moment keeps its zone. -/
structure ZonedEvent where
  name : String
  tenantId : UUID
  workspaceId : UUID
  payload : JsonObject
  id : UUID
  occurredAt : ZonedTime
  correlationId : Option UUID
  versioned : (lastDotted name).head? = some 'v'

namespace EnvelopeRuntime

variable (rt : EnvelopeRuntime)

/-- `json.loads(data)`. -/
def loads (data : List UInt8) : Except String Json :=
  match (Utf8.decode data).bind (Json.loads rt.floats) with
  | some value =>
    bif value.hasLongInt then
      .error "ValueError: Exceeds the limit (4300 digits) for integer string conversion"
    else .ok value
  | none => rt.loadsOther data

/-- `datetime.fromisoformat(text)`. -/
def fromisoformat (text : String) : Except String ZonedTime :=
  match IsoText.scan text.toList with
  | some t => .ok t
  | none => rt.fromisoformatOther text

/-- The reader of the worker. -/
def reader : EnvelopeReader where
  unicode := rt.unicode
  loads := rt.loads
  fromisoformat := rt.fromisoformat

end EnvelopeRuntime

/-- A message for the stream. -/
structure StreamMessage where
  subject : String
  data : List UInt8
  stream : String
  messageId : String
  deriving DecidableEq

/-- Publish versioned events after JetStream persistence acknowledgement. -/
structure NatsJetStreamSink where
  stream : String
  subjectPrefix : String
  connected : Bool

namespace NatsJetStreamSink

/-- The members of an envelope. -/
def envelope (zones : ZoneTable) (event : ZonedEvent) : JsonObject :=
  [("id", .str event.id.str), ("name", .str event.name),
    ("tenant_id", .str event.tenantId.str), ("workspace_id", .str event.workspaceId.str),
    ("correlation_id", (event.correlationId.map fun id => Json.str id.str).getD .null),
    ("occurred_at", .str (String.ofList (event.occurredAt.isoformat zones))),
    ("payload", .obj event.payload)]

/-- What is published for an event; an integer of too many digits cannot be printed. -/
def send (rt : EnvelopeRuntime) (sink : NatsJetStreamSink) (event : ZonedEvent) :
    Except Exn StreamMessage :=
  if sink.connected then
    bif (Json.obj (envelope rt.zones event)).hasLongInt then
      .error (.valueError "Exceeds the limit (4300 digits) for integer string conversion")
    else
      .ok { subject := sink.subjectPrefix ++ "." ++ event.name
            data := Utf8.encode (Json.dumps rt.floats true (.obj (envelope rt.zones event)))
            stream := sink.stream
            messageId := event.id.str }
  else .error (.runtimeError "NATS sink is not connected")

end NatsJetStreamSink

end MemoryPlane
