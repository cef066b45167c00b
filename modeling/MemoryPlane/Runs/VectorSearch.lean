import MemoryPlane.Adapters.QdrantSearch
import MemoryPlane.Runs.AuditRetention
import MemoryPlane.Runs.Conversations

/-!
# What vector search keeps

Two properties of the payloads of the vector store. An item comes back from its payload with the
fields that retrieval uses exactly when none of them reads as missing and it has no validity window.
A live search copes with the points of any past state exactly when every point without its text
belongs to a memory that the ledger still has.
-/

namespace MemoryPlane

namespace PayloadReader

/-- The fields that retrieval filters or scores by. -/
structure SameForRetrieval (a b : MemoryItem) : Prop where
  id : a.id = b.id
  tenantId : a.tenantId = b.tenantId
  workspaceId : a.workspaceId = b.workspaceId
  agentId : a.agentId = b.agentId
  threadId : a.threadId = b.threadId
  layer : a.layer = b.layer
  scope : a.scope = b.scope
  kind : a.kind = b.kind
  text : a.text = b.text
  labels : a.labels = b.labels
  status : a.status = b.status
  importance : a.importance = b.importance
  salience : a.salience = b.salience
  confidence : a.confidence = b.confidence
  createdAt : a.createdAt = b.createdAt
  revision : a.revision = b.revision
  supersedesId : a.supersedesId = b.supersedesId
  validFrom : a.validFrom = b.validFrom
  validTo : a.validTo = b.validTo

/-- No field of the item reads as missing, and it has no validity window. -/
structure Survives (item : MemoryItem) : Prop where
  kind : item.kind ≠ ""
  importance : item.importance ≠ 0
  salience : item.salience ≠ 0
  confidence : item.confidence ≠ 0
  revision : item.revision ≠ 0
  validFrom : item.validFrom = none
  validTo : item.validTo = none

/-- An item is read back from its payload with its text, and with the fields that retrieval uses
exactly when none of them reads as missing and it has no validity window. -/
theorem payload_roundTrip_iff (reader : PayloadReader) (item : MemoryItem) :
    ∃ back, reader.payloadToItem (QdrantCandidateSource.itemToPayload reader.iso item true) =
      .ok back ∧ (SameForRetrieval back item ↔ Survives item) := by
  obtain ⟨back, hback⟩ : ∃ back, MemoryItem.new (reader.decodedFields item true) = .ok back :=
    ⟨⟨_, MemoryFields.postInit_eq_ok.mpr (valid_decodedFields item)⟩, MemoryItem.new_eq_ok.mpr rfl⟩
  have hfields := MemoryItem.new_eq_ok.mp hback
  refine ⟨back, (payloadToItem_of_holds fun _ _ => rfl).trans hback, ?_⟩
  have hhalf : (1 / 2 : ℚ) ≠ 0 := by norm_num
  have hconfidence : binary64 (7 / 10) ≠ 0 := defaultConfidence_mem_unit.1.ne'
  constructor
  · intro hsame
    refine ⟨?_, ?_, ?_, ?_, ?_, ?_, ?_⟩
    · have hkind := hsame.kind
      rw [hfields] at hkind
      exact (orText_eq_self (by simp)).mp hkind
    · have h := hsame.importance
      rw [hfields] at h
      exact (orNumber_eq_self hhalf).mp h
    · have h := hsame.salience
      rw [hfields] at h
      exact (orNumber_eq_self hhalf).mp h
    · have h := hsame.confidence
      rw [hfields] at h
      exact (orNumber_eq_self hconfidence).mp h
    · have h := hsame.revision
      rw [hfields] at h
      intro hzero
      simp [decodedFields, hzero] at h
    · have h := hsame.validFrom
      rw [hfields] at h
      exact h.symm
    · have h := hsame.validTo
      rw [hfields] at h
      exact h.symm
  · intro hsurvives
    constructor <;> rw [hfields]
    all_goals first
      | rfl
      | exact (orText_eq_self (by simp)).mpr hsurvives.kind
      | exact (orNumber_eq_self hhalf).mpr hsurvives.importance
      | exact (orNumber_eq_self hhalf).mpr hsurvives.salience
      | exact (orNumber_eq_self hconfidence).mpr hsurvives.confidence
      | exact if_neg hsurvives.revision
      | exact hsurvives.validFrom.symm
      | exact hsurvives.validTo.symm

/-- A note of no importance. -/
def trivialFields : MemoryFields where
  tenantId := .ofNat 1
  workspaceId := .ofNat 2
  layer := .semantic
  scope := .workspace
  kind := "fact"
  text := "Deploy on Friday."
  provenance := { sourceKind := "api" }
  id := .ofNat 3
  agentId := none
  threadId := none
  labels := ["ops"]
  metadata := []
  status := .active
  importance := 0
  salience := 1 / 2
  confidence := 1
  observedAt := .ofMicros 0
  validFrom := none
  validTo := none
  createdAt := newYear
  revision := 1
  supersedesId := none

theorem trivialFields_valid : trivialFields.postInit = .ok () := by
  decide +kernel

def trivialItem : MemoryItem := ⟨trivialFields, trivialFields_valid⟩

/-- A reader of numbers and moments as they are written. -/
def plainReader : PayloadReader where
  ops := plainOps
  iso := unaryIso
  unicode := asciiUnicode
  now := newYear
  float_float _ := rfl
  int_int _ := rfl

/-- The note comes back with importance 1/2. -/
theorem payload_trivialItem : ¬ ∀ item : MemoryItem, ∃ back,
    plainReader.payloadToItem (QdrantCandidateSource.itemToPayload plainReader.iso item true) =
      .ok back ∧ SameForRetrieval back item := by
  intro hall
  obtain ⟨back, hback, hsame⟩ := hall trivialItem
  rw [payloadToItem_of_holds fun _ _ => rfl] at hback
  have himportance : orNumber 0 (1 / 2) = (0 : ℚ) := by
    have h := hsame.importance
    rw [MemoryItem.new_eq_ok.mp hback] at h
    exact h
  norm_num [orNumber] at himportance

end PayloadReader

namespace QdrantCandidateSource

/-- Every point was written for some item, with or without its text. -/
def Written (reader : PayloadReader) (rows : List ScoredPoint) : Prop :=
  ∀ row ∈ rows, ∃ item includeText, PayloadReader.Holds row.payload reader.iso item includeText

/-- Every point without its text belongs to a memory that the ledger still has. -/
def Covered (reader : PayloadReader) (l : Ledger) (rows : List ScoredPoint) : Prop :=
  ∀ row ∈ rows, ∀ item, PayloadReader.Holds row.payload reader.iso item false →
    ∃ kept, l.get item.tenantId item.id = some kept

variable {reader : PayloadReader} {l : Ledger} {store : PointStore} {query : RecallQuery}
  {vector : List ℚ}

/-- A written point gives an item of the tenant that the store was asked for. -/
theorem tenantId_of_written {row : ScoredPoint} (hrow : row ∈ storeRows store query vector)
    {item back : MemoryItem} {includeText : Bool}
    (hholds : PayloadReader.Holds row.payload reader.iso item includeText)
    (hback : reader.payloadToCandidateItem l row.payload = .ok back) :
    back.tenantId = query.tenantId := by
  have hmember : row.payload.get "tenant_id" = some (.str item.tenantId.str) := by
    rw [hholds "tenant_id" (by simp)]
    cases includeText <;> simp [itemToPayload, JsonObject.get_cons]
  have hasked : item.tenantId = query.tenantId := by
    have hmeets := tenant_storeRows hrow
    rw [FieldCondition.meets, hmember] at hmeets
    have hparse := congrArg (UUID.parse asciiUnicode) (of_decide_eq_true hmeets)
    simpa using hparse
  rw [← hasked]
  cases includeText with
  | true =>
    obtain ⟨own, hown, hfields⟩ := PayloadReader.payloadToCandidateItem_text (l := l) hholds
    obtain rfl := Except.ok.inj (hown.symm.trans hback)
    rw [hfields]
    rfl
  | false =>
    rw [PayloadReader.payloadToCandidateItem_redacted hholds] at hback
    cases hget : l.get item.tenantId item.id with
    | none =>
      rw [hget] at hback
      cases hback
    | some kept =>
      rw [hget] at hback
      cases hback
      exact (Ledger.get_eq_some.mp hget).2.2

/-- A written point can be hydrated unless it has no text and its memory is gone. -/
theorem covered_iff {rows : List ScoredPoint} (hwritten : Written reader rows) :
    (∀ row ∈ rows, ∃ item, reader.payloadToCandidateItem l row.payload = .ok item) ↔
      Covered reader l rows := by
  constructor
  · intro hall row hrow item hholds
    obtain ⟨back, hback⟩ := hall row hrow
    rw [PayloadReader.payloadToCandidateItem_redacted hholds] at hback
    cases hget : l.get item.tenantId item.id with
    | none =>
      rw [hget] at hback
      cases hback
    | some kept => exact ⟨kept, rfl⟩
  · intro hcovered row hrow
    obtain ⟨item, includeText, hholds⟩ := hwritten row hrow
    cases includeText with
    | true =>
      obtain ⟨back, hback, -⟩ := PayloadReader.payloadToCandidateItem_text (l := l) hholds
      exact ⟨back, hback⟩
    | false =>
      obtain ⟨kept, hkept⟩ := hcovered row hrow item hholds
      exact ⟨kept, by rw [PayloadReader.payloadToCandidateItem_redacted hholds, hkept]; rfl⟩

/-- A live search returns the first usable points, in the order of the store, exactly when every
point without its text belongs to a memory that the ledger still has. -/
theorem searchQdrant_tolerates_iff (q : QdrantCandidateSource) (fl : FloatOps) (u : Unicode)
    (l : Ledger) (reader : PayloadReader) (store : PointStore) (query : RecallQuery)
    (vector : List ℚ) (hembed : q.embedQuery query.text = .ok (some vector))
    (hdim : vector.length = q.denseDim)
    (hwritten : Written reader (storeRows store query vector)) :
    q.searchQdrant fl u l reader store query = .ok
        (((storeRows store query vector).filterMap (usable fl u l reader query)).take query.topK) ↔
      Covered reader l (storeRows store query vector) := by
  have htenant : ∀ row ∈ storeRows store query vector, ∀ item,
      reader.payloadToCandidateItem l row.payload = .ok item → item.tenantId = query.tenantId := by
    intro row hrow back hback
    obtain ⟨item, includeText, hholds⟩ := hwritten row hrow
    exact tenantId_of_written hrow hholds hback
  rw [searchQdrant_eq_ok hembed hdim htenant, covered_iff hwritten]
  exact and_iff_left rfl

/-- A point without its text belongs to the item it was written for. -/
theorem ids_of_holds {payload : JsonObject} {a b : MemoryItem} {includeText : Bool}
    (ha : PayloadReader.Holds payload reader.iso a includeText)
    (hb : PayloadReader.Holds payload reader.iso b false) :
    a.tenantId = b.tenantId ∧ a.id = b.id := by
  have hmember : ∀ name ≠ "model_name", (itemToPayload reader.iso a includeText).get name =
      (itemToPayload reader.iso b false).get name := fun name hname =>
    (ha name hname).symm.trans (hb name hname)
  have hstr : a.tenantId.str = b.tenantId.str ∧ a.id.str = b.id.str := by
    have htenant := hmember "tenant_id" (by simp)
    have hid := hmember "memory_id" (by simp)
    cases includeText <;> simp [itemToPayload, JsonObject.get_cons] at htenant hid <;>
      exact ⟨htenant, hid⟩
  constructor
  · simpa using congrArg (UUID.parse asciiUnicode) hstr.1
  · simpa using congrArg (UUID.parse asciiUnicode) hstr.2

/-- A source with a one-dimensional embedding. -/
def plainSource : QdrantCandidateSource where
  denseDim := 1
  queryEmbeddingClient := some { modelName := "m", dimension := 1, embed := fun _ => .ok [1] }

/-- Rounding to the nearest float; nothing here takes a root or a power. -/
def roundedFloats : FloatOps where
  round := binary64
  sum := List.foldl (fun a b => binary64 (a + b)) 0
  sqrt := id
  pow a _ := a

theorem topK_deployQuery : 1 ≤ 12 ∧ 12 ≤ 1000 := by decide

def deployQuery : RecallQuery where
  tenantId := .ofNat 1
  workspaceId := .ofNat 2
  text := "deploy"
  text_nonempty := rfl
  topK_bounds := topK_deployQuery

/-- The point of the note without its text. -/
def redactedPoint : ScoredPoint :=
  ⟨itemToPayload PayloadReader.plainReader.iso PayloadReader.trivialItem false, 1 / 2⟩

/-- A store with that point. -/
def redactedStore : PointStore where
  queryPoints query := [redactedPoint].filter fun row => query.must.all fun c => c.meets row.payload
  meets query row hrow c hc := by
    have hall := (List.mem_filter.mp hrow).2
    exact List.all_eq_true.mp hall c hc

theorem eq_redactedPoint {row : ScoredPoint} (h : row ∈ storeRows redactedStore deployQuery [1]) :
    row = redactedPoint := by
  obtain ⟨must, -, hrow⟩ := List.mem_flatMap.mp h
  exact List.mem_singleton.mp (List.mem_filter.mp hrow).1

/-- While the ledger has the note, the search returns it. -/
theorem searchQdrant_tolerates_redacted :
    plainSource.searchQdrant roundedFloats asciiUnicode
        { Ledger.empty with items := Table.empty.put PayloadReader.trivialItem }
        PayloadReader.plainReader redactedStore deployQuery =
      .ok (((storeRows redactedStore deployQuery [1]).filterMap (usable roundedFloats asciiUnicode
        { Ledger.empty with items := Table.empty.put PayloadReader.trivialItem }
        PayloadReader.plainReader deployQuery)).take deployQuery.topK) := by
  have hholds : PayloadReader.Holds redactedPoint.payload PayloadReader.plainReader.iso
      PayloadReader.trivialItem false := fun _ _ => rfl
  apply (searchQdrant_tolerates_iff plainSource roundedFloats asciiUnicode
    { Ledger.empty with items := Table.empty.put PayloadReader.trivialItem }
    PayloadReader.plainReader redactedStore deployQuery [1] rfl rfl ?_).mpr
  · intro row hrow item hitem
    rw [eq_redactedPoint hrow] at hitem
    obtain ⟨htenant, hid⟩ := ids_of_holds hholds hitem
    refine ⟨PayloadReader.trivialItem, Ledger.get_eq_some.mpr ⟨?_, hid, htenant⟩⟩
    exact Table.mem_put.mpr (.inl rfl)
  · intro row hrow
    exact ⟨_, _, eq_redactedPoint hrow ▸ hholds⟩

/-- Once the ledger has lost the note, the search ends with an error. -/
theorem searchQdrant_lost_note : plainSource.searchQdrant roundedFloats asciiUnicode .empty
    PayloadReader.plainReader redactedStore deployQuery =
      .error (.valueError "memory text must not be empty") := by
  have hholds : PayloadReader.Holds redactedPoint.payload PayloadReader.plainReader.iso
      PayloadReader.trivialItem false := fun _ _ => rfl
  have hmeets : (mustConditions deployQuery).all
      (fun c => c.meets redactedPoint.payload) = true := by
    decide +kernel
  have hrows : storeRows redactedStore deployQuery [1] = [redactedPoint] := by
    have hfilter : [redactedPoint].filter (fun row =>
        (mustConditions deployQuery).all fun c => c.meets row.payload) = [redactedPoint] :=
      List.filter_cons_of_pos hmeets
    exact hfilter
  have hhydrate : hydrate PayloadReader.plainReader .empty [redactedPoint] =
      .error (.valueError "memory text must not be empty") := by
    rw [hydrate, PayloadReader.payloadToCandidateItem_redacted hholds]
    rfl
  have hsearch : plainSource.searchQdrant roundedFloats asciiUnicode .empty
      PayloadReader.plainReader redactedStore deployQuery =
        (hydrate PayloadReader.plainReader .empty
          (storeRows redactedStore deployQuery [1])).bind _ := rfl
  rw [hsearch, hrows, hhydrate]
  rfl

end QdrantCandidateSource

end MemoryPlane
