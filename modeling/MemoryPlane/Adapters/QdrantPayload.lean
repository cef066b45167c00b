import MemoryPlane.Adapters.Qdrant
import MemoryPlane.Services.Submission

/-!
# Payloads of the vector store

A point of the vector store carries a payload: the identifiers and the ranking fields of its item,
with or without the text. Reading a payload back constructs an item again, so the checks of the
constructor run a second time, and an absent or falsy member is replaced by a default. A payload
with its text always gives a valid item back.
-/

namespace MemoryPlane

def MemoryLayer.members : List MemoryLayer :=
  [.working, .core, .episodic, .semantic, .procedural, .social, .reflection, .error]

def MemoryScope.members : List MemoryScope := [.private, .thread, .team, .workspace, .organization]

def MemoryStatus.members : List MemoryStatus :=
  [.active, .stale, .deprecated, .disputed, .hypothesis, .rejected, .archived, .pinned]

/-- The member of an enumeration with a given value. -/
def readMember {α : Type} (enumeration : String) (members : List α) (value : α → String)
    (text : String) : Except Exn α :=
  match members.find? fun m => value m = text with
  | some m => .ok m
  | none => .error (.valueError s!"'{text}' is not a valid {enumeration}")

/-- A member is read back from its value when the values before it are different. -/
theorem readMember_value {α : Type} {enumeration : String} {members : List α} {value : α → String}
    (hinj : Function.Injective value) {m : α} (hm : m ∈ members) :
    readMember enumeration members value (value m) = .ok m := by
  unfold readMember
  cases hfound : members.find? fun n => value n = value m with
  | none =>
    have hno := List.find?_eq_none.mp hfound m hm
    simp at hno
  | some n =>
    have hvalue : value n = value m := by simpa using List.find?_some hfound
    rw [hinj hvalue]

/-- No two layers share their stored text. -/
theorem MemoryLayer.value_injective : Function.Injective MemoryLayer.value := by
  intro a b h
  cases a <;> cases b <;> first | rfl | simp [MemoryLayer.value] at h

/-- No two scopes share their stored text. -/
theorem MemoryScope.value_injective : Function.Injective MemoryScope.value := by
  intro a b h
  cases a <;> cases b <;> first | rfl | simp [MemoryScope.value] at h

/-- No two statuses share their stored text. -/
theorem MemoryStatus.value_injective : Function.Injective MemoryStatus.value := by
  intro a b h
  cases a <;> cases b <;> first | rfl | simp [MemoryStatus.value] at h

/-- The layers that the reader searches are all of them. -/
theorem MemoryLayer.mem_members (layer : MemoryLayer) : layer ∈ MemoryLayer.members := by
  cases layer <;> decide

/-- The scopes that the reader searches are all of them. -/
theorem MemoryScope.mem_members (scope : MemoryScope) : scope ∈ MemoryScope.members := by
  cases scope <;> decide

/-- The statuses that the reader searches are all of them. -/
theorem MemoryStatus.mem_members (status : MemoryStatus) : status ∈ MemoryStatus.members := by
  cases status <;> decide

/-- The value of a float; one that is infinite or undefined fails the checks of an item as -1
does. -/
def FloatValue.orOutside : FloatValue → ℚ
  | .finite q => q
  | _ => -1

/-- `d.get(name) or default`. -/
def JsonObject.getOr (d : JsonObject) (name : String) (default : Json) : Json :=
  ((d.get name).filter Json.truthy).getD default

/-- `d[name]`. -/
def JsonObject.item (d : JsonObject) (name : String) : Except Exn Json :=
  match d.get name with
  | some value => .ok value
  | none => .error (.keyError name)

/-- A dictionary without repeated names gives each of its members. -/
theorem JsonObject.get_of_mem {d : JsonObject} (hd : (d.map Prod.fst).Nodup) {m : String × Json}
    (hm : m ∈ d) : JsonObject.get d m.1 = some m.2 := by
  have hfound : ∃ e, d.reverse.find? (fun e => decide (e.1 = m.1)) = some e := by
    rw [← Option.isSome_iff_exists, List.find?_isSome]
    exact ⟨m, List.mem_reverse.mpr hm, by simp⟩
  obtain ⟨e, he⟩ := hfound
  have hname : e.1 = m.1 := by simpa using List.find?_some he
  have hmem := List.mem_reverse.mp (List.mem_of_find?_eq_some he)
  obtain rfl : e = m := List.inj_on_of_nodup_map hd hmem hm hname
  rw [JsonObject.get, he]
  rfl

/-- What reading a payload takes from the language runtime. -/
structure PayloadReader where
  ops : TextOps
  iso : IsoFormat
  unicode : Unicode
  /-- The current moment. -/
  now : DateTime
  float_float : ∀ q, ops.float (.float q) = .ok (.finite q)
  int_int : ∀ n, ops.int (.int n) = .ok n

namespace QdrantCandidateSource

/-- `str(i) if i else None`. -/
def optionalStr (i : Option UUID) : Json := i.elim .null fun id => .str id.str

/-- Serialize a memory item into a payload. -/
def itemToPayload (iso : IsoFormat) (item : MemoryItem) (includeText : Bool) : JsonObject :=
  [("memory_id", .str item.id.str),
    ("tenant_id", .str item.tenantId.str),
    ("workspace_id", .str item.workspaceId.str),
    ("agent_id", optionalStr item.agentId),
    ("thread_id", optionalStr item.threadId),
    ("layer", .str item.layer.value),
    ("scope", .str item.scope.value),
    ("kind", .str item.kind),
    ("labels", .arr (item.labels.map .str)),
    ("status", .str item.status.value),
    ("importance", .float item.importance),
    ("salience", .float item.salience),
    ("confidence", .float item.confidence),
    ("created_at", .str (iso.format item.createdAt)),
    ("revision", .int item.revision),
    ("supersedes_id", optionalStr item.supersedesId),
    if includeText then ("text", .str item.text) else ("text_redacted", .bool true)]

end QdrantCandidateSource

namespace PayloadReader

variable (reader : PayloadReader)

/-- `UUID(str(value))`. -/
def uuid (value : Json) : Except Exn UUID :=
  match UUID.parse reader.unicode (reader.ops.str value) with
  | some id => .ok id
  | none => .error (.valueError "badly formed hexadecimal UUID string")

/-- `UUID(str(payload[name])) if payload.get(name) else None`. -/
def optionalUuid (payload : JsonObject) (name : String) : Except Exn (Option UUID) :=
  match (payload.get name).filter Json.truthy with
  | some value => (reader.uuid value).map some
  | none => .ok none

/-- `float(payload.get(name) or default)`. -/
def float (payload : JsonObject) (name : String) (default : ℚ) : Except Exn ℚ :=
  (reader.ops.float (payload.getOr name (.float default))).map FloatValue.orOutside

/-- The labels, where they are a list. -/
def labels (payload : JsonObject) : List String :=
  match payload.get "labels" with
  | some (.arr xs) => xs.map reader.ops.str
  | _ => []

/-- The moment of creation, by default the current one. -/
def createdAt (payload : JsonObject) : Except Exn DateTime :=
  match (payload.get "created_at").filter Json.truthy with
  | some value => reader.iso.parse (reader.ops.str value)
  | none => .ok reader.now

/-- Reconstruct the memory item shape needed for retrieval fusion. A revision is a natural number
here, and no payload that was written has a negative one. -/
def payloadToItem (payload : JsonObject) : Except Exn MemoryItem := do
  let createdAt ← reader.createdAt payload
  let id ← reader.uuid (← payload.item "memory_id")
  let tenantId ← reader.uuid (← payload.item "tenant_id")
  let workspaceId ← reader.uuid (← payload.item "workspace_id")
  let agentId ← reader.optionalUuid payload "agent_id"
  let threadId ← reader.optionalUuid payload "thread_id"
  let layer ← readMember "MemoryLayer" MemoryLayer.members MemoryLayer.value
    (reader.ops.str (← payload.item "layer"))
  let scope ← readMember "MemoryScope" MemoryScope.members MemoryScope.value
    (reader.ops.str (← payload.item "scope"))
  let status ← readMember "MemoryStatus" MemoryStatus.members MemoryStatus.value
    (reader.ops.str (payload.getOr "status" (.str "active")))
  let importance ← reader.float payload "importance" (1 / 2)
  let salience ← reader.float payload "salience" (1 / 2)
  let confidence ← reader.float payload "confidence" (binary64 (7 / 10))
  let revision ← reader.ops.int (payload.getOr "revision" (.int 1))
  let supersedesId ← reader.optionalUuid payload "supersedes_id"
  MemoryItem.new
    { tenantId, workspaceId, layer, scope
      kind := reader.ops.str (payload.getOr "kind" (.str "fact"))
      text := reader.ops.str (payload.getOr "text" (.str ""))
      provenance := { sourceKind := "qdrant-payload" }
      id, agentId, threadId
      labels := reader.labels payload
      metadata := []
      status, importance, salience, confidence
      observedAt := reader.now
      validFrom := none
      validTo := none
      createdAt
      revision := revision.toNat
      supersedesId }

/-- `value or default` of a text. -/
def orText (value default : String) : String := if value = "" then default else value

/-- `value or default` of a number. -/
def orNumber (value default : ℚ) : ℚ := if value = 0 then default else value

/-- The fields that a payload gives back. -/
def decodedFields (item : MemoryItem) (includeText : Bool) : MemoryFields :=
  { item.toMemoryFields with
    kind := orText item.kind "fact"
    text := if includeText then item.text else ""
    provenance := { sourceKind := "qdrant-payload" }
    metadata := []
    importance := orNumber item.importance (1 / 2)
    salience := orNumber item.salience (1 / 2)
    confidence := orNumber item.confidence (binary64 (7 / 10))
    observedAt := reader.now
    validFrom := none
    validTo := none
    revision := if item.revision = 0 then 1 else item.revision }

variable {reader} {payload : JsonObject} {name : String}

/-- The text of an identifier is parsed as the identifier. -/
theorem uuid_str (id : UUID) : reader.uuid (.str id.str) = .ok id := by
  rw [uuid, TextOps.str, UUID.parse_str]

/-- An identifier is never printed as the empty text. -/
theorem str_ne_empty (id : UUID) : id.str ≠ "" := by
  intro h
  have hmem : '-' ∈ id.str.toList := by
    simp [UUID.str, UUID.groups]
  simp [h] at hmem

/-- An optional identifier is read back, its absence included. -/
theorem optionalUuid_optionalStr {i : Option UUID}
    (h : payload.get name = some (QdrantCandidateSource.optionalStr i)) :
    reader.optionalUuid payload name = .ok i := by
  cases i with
  | none => simp [optionalUuid, h, QdrantCandidateSource.optionalStr, Option.filter, Json.truthy]
  | some id =>
    simp [optionalUuid, h, QdrantCandidateSource.optionalStr, Option.filter, Json.truthy,
      str_ne_empty, uuid_str, Except.map]

/-- A stored number is read back unless it is zero, which takes the default. -/
theorem float_member {q default : ℚ} (h : payload.get name = some (.float q)) :
    reader.float payload name default = .ok (orNumber q default) := by
  unfold PayloadReader.float JsonObject.getOr
  by_cases hq : q = 0
  · simp [h, Option.filter, Json.truthy, hq, orNumber, reader.float_float, Except.map,
      FloatValue.orOutside]
  · simp [h, Option.filter, Json.truthy, hq, orNumber, reader.float_float, Except.map,
      FloatValue.orOutside]

/-- A stored text is read back unless it is empty, which takes the default. -/
theorem str_member {text default : String} (h : payload.get name = some (.str text)) :
    reader.ops.str (payload.getOr name (.str default)) = orText text default := by
  unfold JsonObject.getOr orText
  by_cases htext : text = ""
  · simp [h, Option.filter, Json.truthy, htext, TextOps.str]
  · simp [h, Option.filter, Json.truthy, htext, TextOps.str]

/-- A member that must be present is read as stored. -/
theorem item_member {value : Json} (h : payload.get name = some value) :
    payload.item name = .ok value := by
  rw [JsonObject.item, h]

/-- Stored labels are read back in their order. -/
theorem labels_member {names : List String}
    (h : payload.get "labels" = some (.arr (names.map .str))) :
    reader.labels payload = names := by
  have hstr : names.map (reader.ops.str ∘ Json.str) = names :=
    List.map_id'' (fun _ => rfl) names
  simp [labels, h, hstr]

/-- The printed moment of creation is read back. -/
theorem createdAt_member {t : DateTime}
    (h : payload.get "created_at" = some (.str (reader.iso.format t))) :
    reader.createdAt payload = .ok t := by
  have htruthy : (Json.str (reader.iso.format t)).truthy = true := by
    simp [Json.truthy, reader.iso.format_nonempty]
  simp [createdAt, h, Option.filter, htruthy, TextOps.str, reader.iso.parse_format]

/-- A stored revision is read back unless it is zero, which becomes one. -/
theorem revision_member {n : ℕ} (h : payload.get "revision" = some (.int n)) :
    reader.ops.int (payload.getOr "revision" (.int 1)) =
      .ok ((if n = 0 then 1 else n : ℕ) : ℤ) := by
  unfold JsonObject.getOr
  by_cases hn : n = 0
  · simp [h, Option.filter, Json.truthy, hn, reader.int_int]
  · simp [h, Option.filter, Json.truthy, hn, reader.int_int]

/-- The payload of an item, or that payload with further members. -/
def Holds (payload : JsonObject) (iso : IsoFormat) (item : MemoryItem) (includeText : Bool) :
    Prop :=
  ∀ name ≠ "model_name",
    payload.get name = (QdrantCandidateSource.itemToPayload iso item includeText).get name

/-- Reading what was written constructs an item from the fields that a payload gives back. -/
theorem payloadToItem_of_holds {item : MemoryItem} {includeText : Bool}
    (h : Holds payload reader.iso item includeText) :
    reader.payloadToItem payload = MemoryItem.new (reader.decodedFields item includeText) := by
  have hnames : ((QdrantCandidateSource.itemToPayload reader.iso item includeText).map
      Prod.fst).Nodup := by
    cases includeText <;> simp [QdrantCandidateSource.itemToPayload]
  have hget : ∀ m ∈ QdrantCandidateSource.itemToPayload reader.iso item includeText,
      m.1 ≠ "model_name" → payload.get m.1 = some m.2 := by
    intro m hm hname
    rw [h m.1 hname]
    exact JsonObject.get_of_mem hnames hm
  simp only [QdrantCandidateSource.itemToPayload, List.forall_mem_cons] at hget
  obtain ⟨hid, htenant, hworkspace, hagent, hthread, hlayer, hscope, hkind, hlabels, hstatus,
    himportance, hsalience, hconfidence, hcreated, hrevision, hsupersedes, htext, -⟩ := hget
  have hstatusText : orText item.status.value "active" = item.status.value := by
    cases item.status <;> rfl
  have hreadText : reader.ops.str (payload.getOr "text" (.str "")) =
      if includeText then item.text else "" := by
    cases includeText with
    | true =>
      have hwritten : payload.get "text" = some (.str item.text) := htext (by simp)
      rw [str_member hwritten]
      by_cases hempty : item.text = ""
      · simp [orText, hempty]
      · simp [orText, hempty]
    | false =>
      have hnone : payload.get "text" = none := by
        rw [h "text" (by simp)]
        simp [QdrantCandidateSource.itemToPayload, JsonObject.get_cons]
      simp [JsonObject.getOr, hnone, TextOps.str]
  unfold payloadToItem
  rw [createdAt_member (hcreated (by simp)), item_member (hid (by simp)),
    item_member (htenant (by simp)), item_member (hworkspace (by simp)),
    optionalUuid_optionalStr (hagent (by simp)), optionalUuid_optionalStr (hthread (by simp)),
    item_member (hlayer (by simp)), item_member (hscope (by simp)), str_member (hstatus (by simp)),
    hstatusText, float_member (himportance (by simp)), float_member (hsalience (by simp)),
    float_member (hconfidence (by simp)), revision_member (hrevision (by simp)),
    optionalUuid_optionalStr (hsupersedes (by simp)), labels_member (hlabels (by simp)),
    str_member (hkind (by simp)), hreadText]
  simp only [Except.ok_bind, uuid_str, TextOps.str, readMember_value MemoryLayer.value_injective
    (MemoryLayer.mem_members _), readMember_value MemoryScope.value_injective
    (MemoryScope.mem_members _), readMember_value MemoryStatus.value_injective
    (MemoryStatus.mem_members _)]
  rfl

/-- A text falls to its default exactly when it is empty. -/
theorem orText_eq_self {value default : String} (h : default ≠ "") :
    orText value default = value ↔ value ≠ "" := by
  unfold orText
  by_cases hvalue : value = ""
  · rw [if_pos hvalue, hvalue]
    exact iff_of_false h (not_not.mpr rfl)
  · rw [if_neg hvalue]
    exact iff_of_true rfl hvalue

/-- A number falls to its default exactly when it is zero. -/
theorem orNumber_eq_self {value default : ℚ} (h : default ≠ 0) :
    orNumber value default = value ↔ value ≠ 0 := by
  unfold orNumber
  by_cases hvalue : value = 0
  · rw [if_pos hvalue, hvalue]
    exact iff_of_false h (not_not.mpr rfl)
  · rw [if_neg hvalue]
    exact iff_of_true rfl hvalue

/-- A score within the unit interval stays there, default or not. -/
theorem orNumber_mem_unit {value default : ℚ} (hvalue : 0 ≤ value ∧ value ≤ 1)
    (hdefault : 0 ≤ default ∧ default ≤ 1) :
    0 ≤ orNumber value default ∧ orNumber value default ≤ 1 := by
  unfold orNumber
  split
  · exact hdefault
  · exact hvalue

/-- The default confidence is a proper number. -/
theorem defaultConfidence_mem_unit : 0 < binary64 (7 / 10) ∧ binary64 (7 / 10) ≤ 1 := by
  decide +kernel

/-- A payload with its text gives back valid fields. -/
theorem valid_decodedFields (item : MemoryItem) : (reader.decodedFields item true).Valid := by
  have hvalid := MemoryFields.postInit_eq_ok.mp item.valid
  have hhalf : (0 : ℚ) ≤ 1 / 2 ∧ (1 / 2 : ℚ) ≤ 1 := by norm_num
  exact ⟨hvalid.text, orNumber_mem_unit hvalid.importance hhalf,
    orNumber_mem_unit hvalid.salience hhalf,
    orNumber_mem_unit hvalid.confidence ⟨defaultConfidence_mem_unit.1.le,
      defaultConfidence_mem_unit.2⟩,
    (fun _ _ h => by cases h), hvalid.thread, hvalid.private, hvalid.pinned⟩

end PayloadReader

end MemoryPlane
