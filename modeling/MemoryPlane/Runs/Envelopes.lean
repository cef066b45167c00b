import MemoryPlane.Adapters.Nats
import MemoryPlane.Lib.Proc
import MemoryPlane.Python.JsonOrder

/-!
# Envelopes are read as they were written

The worker decodes what the sink published for an event to an event with the same fields, whatever
its payload, with and without a correlation identifier. Its moment has the clock and the offset of
the one that was sent but not its zone, so that the two are equal unless the offset depends on the
fold.
-/

namespace MemoryPlane

/-- The decoded event has the fields of the event, its moment without the zone; objects are compared
as dictionaries. -/
structure DecodedEvent.Carries (zones : ZoneTable) (decoded : DecodedEvent) (event : ZonedEvent) :
    Prop where
  id : decoded.id = event.id
  name : decoded.name = event.name
  tenantId : decoded.tenantId = event.tenantId
  workspaceId : decoded.workspaceId = event.workspaceId
  correlationId : decoded.correlationId = event.correlationId
  wall : decoded.occurredAt.wall = event.occurredAt.wall
  utcoffset : decoded.occurredAt.utcoffset zones = event.occurredAt.utcoffset zones
  payload : decoded.payload.sorted = (Json.obj event.payload).sorted

/-- `decoded == event`. -/
structure DecodedEvent.Equals (zones : ZoneTable) (decoded : DecodedEvent) (event : ZonedEvent) :
    Prop where
  id : decoded.id = event.id
  name : decoded.name = event.name
  tenantId : decoded.tenantId = event.tenantId
  workspaceId : decoded.workspaceId = event.workspaceId
  correlationId : decoded.correlationId = event.correlationId
  occurredAt : ZonedTime.equal zones decoded.occurredAt event.occurredAt = true
  payload : decoded.payload.sorted = (Json.obj event.payload).sorted

/-- What the worker receives for an event. -/
def received (zones : ZoneTable) (event : ZonedEvent) : DecodedEvent where
  id := event.id
  name := event.name
  tenantId := event.tenantId
  workspaceId := event.workspaceId
  correlationId := event.correlationId
  occurredAt := event.occurredAt.unzoned zones
  payload := (Json.obj event.payload).sorted
  versioned := event.versioned

/-- An event that carries the fields of another is equal to it if its moment is. -/
theorem DecodedEvent.Carries.equals_iff {zones : ZoneTable} {decoded : DecodedEvent}
    {event : ZonedEvent} (h : decoded.Carries zones event) :
    decoded.Equals zones event ↔
      ZonedTime.equal zones decoded.occurredAt event.occurredAt = true :=
  ⟨fun hequal => hequal.occurredAt, fun hequal =>
    ⟨h.id, h.name, h.tenantId, h.workspaceId, h.correlationId, hequal, h.payload⟩⟩

namespace NatsJetStreamSink

variable (rt : EnvelopeRuntime) (event : ZonedEvent)

theorem floatsIn_envelope (h : (Json.obj event.payload).FloatsIn rt.floats) :
    (Json.obj (envelope rt.zones event)).FloatsIn rt.floats := by
  refine ⟨trivial, trivial, trivial, trivial, ?_, trivial, h, trivial⟩
  cases event.correlationId <;> trivial

/-- The reader sees the members of a printed value in order. -/
theorem loads_dumps {v : Json} (hfloats : v.FloatsIn rt.floats)
    (hshort : v.hasLongInt = false) :
    rt.reader.loads (Utf8.encode (Json.dumps rt.floats true v)) = .ok v.sorted := by
  have hloads : (Utf8.decode (Utf8.encode (Json.dumps rt.floats true v))).bind
      (Json.loads rt.floats) = some v.sorted := by
    rw [Utf8.decode_encode, Option.bind_some]
    exact Json.loads_dumps hfloats
  change rt.loads _ = _
  rw [EnvelopeRuntime.loads, hloads]
  dsimp only
  rw [Json.hasLongInt_sorted hshort, cond_false]

/-- A member of the envelope, as the reader finds it. -/
theorem member_sorted {members : JsonObject} {name : String} {value : Json}
    (h : members.get name = some value) :
    EnvelopeReader.member name (Json.obj members).sorted = .ok value.sorted := by
  have hget : JsonObject.get (Json.sortedMembers members) name = some value.sorted := by
    rw [Json.get_sortedMembers, h, Option.map_some]
  simp only [Json.sorted, EnvelopeReader.member, hget]

theorem uuid_str (id : UUID) : rt.reader.uuid (.str id.str) = .ok id := by
  simp only [EnvelopeReader.uuid, UUID.parse_str]

/-- The correlation identifier may be missing. -/
theorem correlation_sorted {members : JsonObject} {correlationId : Option UUID}
    (h : members.get "correlation_id" =
      some ((correlationId.map fun id => Json.str id.str).getD .null)) :
    rt.reader.correlation (Json.obj members).sorted = .ok correlationId := by
  have hget : (JsonObject.get (Json.sortedMembers members) "correlation_id").getD .null =
      (correlationId.map fun id => Json.str id.str).getD .null := by
    rw [Json.get_sortedMembers, h]
    cases correlationId <;> rfl
  simp only [Json.sorted, EnvelopeReader.correlation, hget]
  cases correlationId with
  | none => rfl
  | some id =>
    simp only [Option.map_some, Option.getD_some, uuid_str]
    rfl

/-- A printed moment is read back without its zone. -/
theorem moment_isoformat (t : ZonedTime) :
    rt.reader.moment (.str (String.ofList (t.isoformat rt.zones))) =
      .ok (t.unzoned rt.zones) := by
  simp only [EnvelopeReader.moment, EnvelopeRuntime.reader, EnvelopeRuntime.fromisoformat,
    String.toList_ofList, IsoText.scan_isoformat]

/-- The message of an event is its envelope, the integers of which can be printed. -/
theorem send_eq_ok {sink : NatsJetStreamSink} {message : StreamMessage}
    (h : sink.send rt event = .ok message) :
    message.data = Utf8.encode (Json.dumps rt.floats true (.obj (envelope rt.zones event))) ∧
      (Json.obj (envelope rt.zones event)).hasLongInt = false := by
  rw [send] at h
  split at h
  · cases hlong : (Json.obj (envelope rt.zones event)).hasLongInt with
    | true =>
      rw [hlong] at h
      cases h
    | false =>
      rw [hlong, cond_false] at h
      exact ⟨(congrArg StreamMessage.data (Except.ok.inj h)).symm, rfl⟩
  · cases h

/-- The worker receives the fields of the event. -/
theorem decode_message {sink : NatsJetStreamSink} {message : StreamMessage}
    (hfloats : (Json.obj event.payload).FloatsIn rt.floats)
    (hsend : sink.send rt event = .ok message) :
    (received rt.zones event).Carries rt.zones event ∧
      rt.reader.decode message.data = .ok (received rt.zones event) := by
  obtain ⟨hdata, hshort⟩ := send_eq_ok rt event hsend
  have hmember : ∀ name text, JsonObject.get (envelope rt.zones event) name = some (.str text) →
      EnvelopeReader.member name (Json.obj (envelope rt.zones event)).sorted = .ok (.str text) :=
    fun name text h => member_sorted h
  have hid : EnvelopeReader.member "id" (Json.obj (envelope rt.zones event)).sorted =
      .ok (.str event.id.str) := hmember _ _ rfl
  have hname : EnvelopeReader.member "name" (Json.obj (envelope rt.zones event)).sorted =
      .ok (.str event.name) := hmember _ _ rfl
  have htenant : EnvelopeReader.member "tenant_id" (Json.obj (envelope rt.zones event)).sorted =
      .ok (.str event.tenantId.str) := hmember _ _ rfl
  have hworkspace : EnvelopeReader.member "workspace_id"
      (Json.obj (envelope rt.zones event)).sorted = .ok (.str event.workspaceId.str) :=
    hmember _ _ rfl
  have hmoment : EnvelopeReader.member "occurred_at" (Json.obj (envelope rt.zones event)).sorted =
      .ok (.str (String.ofList (event.occurredAt.isoformat rt.zones))) := hmember _ _ rfl
  have hpayload : EnvelopeReader.member "payload" (Json.obj (envelope rt.zones event)).sorted =
      .ok (Json.obj event.payload).sorted := @member_sorted _ _ (Json.obj event.payload) rfl
  have hcorrelation : rt.reader.correlation (Json.obj (envelope rt.zones event)).sorted =
      .ok event.correlationId := correlation_sorted rt rfl
  refine ⟨⟨rfl, rfl, rfl, rfl, rfl, rfl, event.occurredAt.utcoffset_unzoned rt.zones,
    Json.sorted_sorted _⟩, ?_⟩
  rw [hdata, EnvelopeReader.decode, loads_dumps rt (floatsIn_envelope rt event hfloats) hshort]
  simp only [bind, Except.bind, hid, hname, htenant, hworkspace, hmoment, hpayload, hcorrelation,
    uuid_str, moment_isoformat]
  rw [dif_pos event.versioned]
  rfl

/-- The worker decodes what the sink publishes to an event with the same fields. It is equal to the
one that was sent exactly if the offset of its moment does not depend on the fold. -/
theorem decode_send (sink : NatsJetStreamSink) (message : StreamMessage)
    (hfloats : (Json.obj event.payload).FloatsIn rt.floats)
    (hsend : sink.send rt event = .ok message) :
    ∃ decoded, rt.reader.decode message.data = .ok decoded ∧ decoded.Carries rt.zones event ∧
      (decoded.Equals rt.zones event ↔ event.occurredAt.foldMatters rt.zones = false) := by
  obtain ⟨hcarries, hdecode⟩ := decode_message rt event hfloats hsend
  refine ⟨received rt.zones event, hdecode, hcarries, ?_⟩
  rw [hcarries.equals_iff]
  exact event.occurredAt.equal_unzoned_iff rt.zones

theorem valid_repeatedHalfHour : WallTime.Valid ⟨2024, 10, 27, 2, 30, 0, 0⟩ := by decide

/-- Half past two in the night in which the clocks of Berlin are set back. -/
def repeatedHalfHour : ZonedTime :=
  ⟨_, false, some (.named "Europe/Berlin"), valid_repeatedHalfHour⟩

/-- In that hour the offset is first two hours and then one. -/
def berlin : ZoneTable := fun _ _ fold => bif fold then .ofHours 1 else .ofHours 2

/-- The announcement of a memory at some moment, without a correlation identifier. -/
def scoredEvent (occurredAt : ZonedTime) : ZonedEvent where
  name := "memory.retained.v1"
  tenantId := .ofNat 1
  workspaceId := .ofNat 2
  payload := [("text", .str "\"né\"\n"), ("score", .float (1 / 2)), ("labels", .arr [.int (-3)])]
  id := .ofNat 3
  occurredAt
  correlationId := none
  versioned := by decide

/-- The library with the clocks of Berlin. -/
def berlinRuntime : EnvelopeRuntime where
  unicode := asciiUnicode
  floats := halfText
  zones := berlin
  loadsOther _ := .error "JSONDecodeError: Expecting value"
  fromisoformatOther _ := .error "ValueError: Invalid isoformat string"

/-- The message of that event. -/
def scoredMessage (occurredAt : ZonedTime) : StreamMessage where
  subject := "memory.events.memory.retained.v1"
  data := Utf8.encode (Json.dumps halfText true (.obj (envelope berlin (scoredEvent occurredAt))))
  stream := "MEMORY_EVENTS"
  messageId := (scoredEvent occurredAt).id.str

theorem send_scored (occurredAt : ZonedTime) :
    send berlinRuntime ⟨"MEMORY_EVENTS", "memory.events", true⟩ (scoredEvent occurredAt) =
      .ok (scoredMessage occurredAt) := by
  have hshort : (Json.obj (envelope berlin (scoredEvent occurredAt))).hasLongInt = false := by
    have hthree : isTooLong (-3) = false := by decide +kernel
    simp [Json.hasLongInt, Json.anyScalar, Json.anyScalarMembers, Json.anyScalarItems,
      Json.isLongInt, envelope, scoredEvent, hthree]
  have hzones : berlinRuntime.zones = berlin := rfl
  rw [send, if_pos rfl, hzones, hshort, cond_false]
  rfl

/-- The same clock in UTC. -/
def utcHalfHour : ZonedTime :=
  { repeatedHalfHour with zone := some (.fixed (.ofHours 0)) }

theorem decode_send_scored :
    ∃ decoded, berlinRuntime.reader.decode (scoredMessage utcHalfHour).data = .ok decoded ∧
      decoded.Equals berlin (scoredEvent utcHalfHour) := by
  obtain ⟨decoded, hdecode, -, hequals⟩ := decode_send berlinRuntime (scoredEvent utcHalfHour) _ _
    ⟨trivial, rfl, ⟨trivial, trivial⟩, trivial⟩ (send_scored utcHalfHour)
  exact ⟨decoded, hdecode, hequals.mpr rfl⟩

/-- A moment in the repeated hour is equal to no moment of another zone. -/
theorem decode_send_repeated :
    ¬∃ decoded, berlinRuntime.reader.decode (scoredMessage repeatedHalfHour).data = .ok decoded ∧
      decoded.Equals berlin (scoredEvent repeatedHalfHour) := by
  rintro ⟨decoded, hdecode, hequals⟩
  obtain ⟨hcarries, hreceived⟩ := decode_message berlinRuntime (scoredEvent repeatedHalfHour)
    ⟨trivial, rfl, ⟨trivial, trivial⟩, trivial⟩ (send_scored repeatedHalfHour)
  cases hreceived.symm.trans hdecode
  have hfold : repeatedHalfHour.foldMatters berlin = false :=
    (repeatedHalfHour.equal_unzoned_iff berlin).mp hequals.occurredAt
  exact absurd hfold (by decide)

end NatsJetStreamSink

end MemoryPlane
