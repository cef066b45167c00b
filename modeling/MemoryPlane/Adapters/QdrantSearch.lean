import MemoryPlane.Adapters.QdrantPayload

/-!
# Live vector search

The search over the vector store itself. The store answers each filter with scored points; every
point is hydrated from its payload or from the ledger before any of them is dropped, so that a
point that cannot be hydrated ends the search.
-/

namespace MemoryPlane

/-- A condition on a payload: the value of a key, or a member of it, is the given text. -/
structure FieldCondition where
  key : String
  value : String

/-- What the store documents for a condition. -/
def FieldCondition.meets (c : FieldCondition) (payload : JsonObject) : Bool :=
  match payload.get c.key with
  | some (.str value) => value = c.value
  | some (.arr values) => .str c.value ∈ values
  | _ => false

/-- A scored point that the store returns. -/
structure ScoredPoint where
  payload : JsonObject
  score : ℚ

/-- A hybrid query: the dense vector, the text of the sparse one, the filter and the limit. -/
structure PointsQuery where
  vector : List ℚ
  text : String
  must : List FieldCondition
  limit : ℕ

/-- A vector store, which returns only points that meet the filter. -/
structure PointStore where
  queryPoints : PointsQuery → List ScoredPoint
  meets : ∀ query, ∀ row ∈ queryPoints query, ∀ c ∈ query.must,
    c.meets row.payload = true

/-- Hydrate a redacted payload from the ledger when available. -/
def PayloadReader.payloadToCandidateItem (reader : PayloadReader) (l : Ledger)
    (payload : JsonObject) : Except Exn MemoryItem := do
  if (payload.get "text").any Json.truthy then
    reader.payloadToItem payload
  else
    let memoryId ← reader.uuid (← payload.item "memory_id")
    let tenantId ← reader.uuid (← payload.item "tenant_id")
    match l.get tenantId memoryId with
    | some hydrated => .ok hydrated
    | none => reader.payloadToItem payload

namespace PayloadReader

variable {reader : PayloadReader} {l : Ledger} {payload : JsonObject} {item : MemoryItem}

/-- A payload with its text is hydrated by itself. -/
theorem payloadToCandidateItem_text (h : Holds payload reader.iso item true) :
    ∃ back, reader.payloadToCandidateItem l payload = .ok back ∧
      back.toMemoryFields = reader.decodedFields item true := by
  have htext : payload.get "text" = some (.str item.text) := by
    rw [h "text" (by simp)]
    simp [QdrantCandidateSource.itemToPayload, JsonObject.get_cons]
  have hnonempty : item.text ≠ "" := by
    intro hempty
    have hblank := (MemoryFields.postInit_eq_ok.mp item.valid).text
    rw [hempty] at hblank
    cases hblank
  have htruthy : ((payload.get "text").any Json.truthy) = true := by
    simp [htext, Json.truthy, hnonempty]
  obtain ⟨back, hback⟩ : ∃ back, MemoryItem.new (reader.decodedFields item true) = .ok back :=
    ⟨⟨_, MemoryFields.postInit_eq_ok.mpr (valid_decodedFields item)⟩, MemoryItem.new_eq_ok.mpr rfl⟩
  refine ⟨back, ?_, MemoryItem.new_eq_ok.mp hback⟩
  rw [payloadToCandidateItem, if_pos htruthy, payloadToItem_of_holds h, hback]

/-- A payload without its text is hydrated from the ledger. -/
theorem payloadToCandidateItem_redacted (h : Holds payload reader.iso item false) :
    reader.payloadToCandidateItem l payload = (l.get item.tenantId item.id).elim
      (.error (.valueError "memory text must not be empty")) .ok := by
  have htext : payload.get "text" = none := by
    rw [h "text" (by simp)]
    simp [QdrantCandidateSource.itemToPayload, JsonObject.get_cons]
  have hid : payload.item "memory_id" = .ok (.str item.id.str) := by
    apply item_member
    rw [h "memory_id" (by simp)]
    simp [QdrantCandidateSource.itemToPayload, JsonObject.get_cons]
  have htenant : payload.item "tenant_id" = .ok (.str item.tenantId.str) := by
    apply item_member
    rw [h "tenant_id" (by simp)]
    simp [QdrantCandidateSource.itemToPayload, JsonObject.get_cons]
  have hblank : MemoryItem.new (reader.decodedFields item false) =
      .error (.valueError "memory text must not be empty") :=
    MemoryItem.new_eq_error.mpr (if_pos rfl)
  rw [payloadToCandidateItem, htext, hid, htenant]
  simp only [Option.any_none, Bool.false_eq_true, if_false, Except.ok_bind, uuid_str]
  cases l.get item.tenantId item.id with
  | some hydrated => rfl
  | none => rw [payloadToItem_of_holds h, hblank, Option.elim_none]

end PayloadReader

theorem Except.eq_ok_of_toOption {ε α : Type} {x : Except ε α} {a : α} (h : x.toOption = some a) :
    x = .ok a := by
  cases x with
  | error e => cases h
  | ok b =>
    cases h
    rfl

namespace QdrantCandidateSource

/-- The conditions on the boundary and the labels of a query. -/
def mustConditions (query : RecallQuery) : List FieldCondition :=
  ⟨"tenant_id", query.tenantId.str⟩ :: ⟨"workspace_id", query.workspaceId.str⟩ ::
    query.labels.map fun label => ⟨"labels", label⟩

/-- One filter for each requested layer, or one without a layer. -/
def filters (query : RecallQuery) : List (List FieldCondition) :=
  if query.layers = [] then [mustConditions query]
  else query.layers.map fun layer => mustConditions query ++ [⟨"layer", layer.value⟩]

/-- The points that the store returns for the filters of a query, in order. -/
def storeRows (store : PointStore) (query : RecallQuery) (vector : List ℚ) : List ScoredPoint :=
  (filters query).flatMap fun must =>
    store.queryPoints ⟨vector, query.text, must, max (query.topK * 3) query.topK⟩

/-- The points with their items, every one of which is hydrated. -/
def hydrate (reader : PayloadReader) (l : Ledger) :
    List ScoredPoint → Except Exn (List (ScoredPoint × MemoryItem))
  | [] => .ok []
  | row :: rows => do
    let item ← reader.payloadToCandidateItem l row.payload
    let rest ← hydrate reader l rows
    return (row, item) :: rest

/-- The candidate of a hydrated point. -/
def liveCandidate (fl : FloatOps) (u : Unicode) (query : RecallQuery) (row : ScoredPoint)
    (item : MemoryItem) : Candidate where
  item := item
  source := "qdrant_hybrid"
  semantic := max 0 (min 1 row.score)
  lexical := lexicalOverlap fl u query item
  entity := lexicalOverlap fl u query item
  trust := item.confidence

/-- Search the vector store. The loop over the points stops at `top_k` candidates, and `top_k` is
positive. -/
def searchQdrant (q : QdrantCandidateSource) (fl : FloatOps) (u : Unicode) (l : Ledger)
    (reader : PayloadReader) (store : PointStore) (query : RecallQuery) :
    Except Exn (List Candidate) := do
  match ← q.embedQuery query.text with
  | none => .error (.runtimeError ("Live Qdrant search requires a query embedding client. " ++
      "Pass query_embedding_client when constructing QdrantCandidateSource."))
  | some vector =>
    if vector.length ≠ q.denseDim then
      .error (.runtimeError (s!"query embedding dimension mismatch: expected {q.denseDim}, " ++
        s!"got {vector.length}"))
    else
      let hydrated ← hydrate reader l (storeRows store query vector)
      let recallableIds := recallableHeadIds l (hydrated.map Prod.snd)
      let kept := hydrated.filter fun h =>
        h.2.id ∈ recallableIds ∧ matchesFilter h.2 query
      return (kept.map fun h => liveCandidate fl u query h.1 h.2).take query.topK

/-- The identifiers of recallable heads are asked for tenant by tenant. -/
theorem mem_recallableHeadIds {l : Ledger} {items : List MemoryItem} {id : UUID} :
    id ∈ recallableHeadIds l items ↔
      ∃ i ∈ items, i.id = id ∧ l.isRecallableHead i.tenantId id = true := by
  simp only [recallableHeadIds, Ledger.filterRecallableHeads, List.mem_flatMap, List.mem_filter,
    List.mem_map]
  constructor
  · rintro ⟨⟨tenant, group⟩, hgroup, ⟨i, hi, hid⟩, hhead⟩
    obtain ⟨hfilter, -⟩ := mem_groupBy hgroup
    dsimp only at hi hhead
    rw [hfilter, List.mem_filter, decide_eq_true_eq] at hi
    exact ⟨i, hi.1, hid, hi.2 ▸ hhead⟩
  · rintro ⟨i, hi, hid, hhead⟩
    obtain ⟨group, hgroup, hmem⟩ : ∃ group, (i.tenantId, group) ∈
        groupBy (fun i : MemoryItem => i.tenantId) items ∧ i ∈ group := exists_groupBy hi
    exact ⟨(i.tenantId, group), hgroup, ⟨i, hmem, hid⟩, hhead⟩

variable {fl : FloatOps} {u : Unicode} {l : Ledger} {reader : PayloadReader} {store : PointStore}
  {query : RecallQuery} {vector : List ℚ}

/-- The points that the store returns belong to the tenant of the query. -/
theorem tenant_storeRows {row : ScoredPoint} (h : row ∈ storeRows store query vector) :
    (⟨"tenant_id", query.tenantId.str⟩ : FieldCondition).meets row.payload = true := by
  unfold storeRows at h
  obtain ⟨must, hmust, hrow⟩ := List.mem_flatMap.mp h
  have htenant : (⟨"tenant_id", query.tenantId.str⟩ : FieldCondition) ∈ must := by
    unfold filters at hmust
    split at hmust
    · rw [List.mem_singleton.mp hmust]
      exact List.mem_cons_self
    · obtain ⟨layer, -, rfl⟩ := List.mem_map.mp hmust
      exact List.mem_append_left _ List.mem_cons_self
  exact store.meets _ row hrow _ htenant

/-- Where every point can be hydrated, all of them are. -/
theorem hydrate_of_ok {rows : List ScoredPoint}
    (h : ∀ row ∈ rows, ∃ item, reader.payloadToCandidateItem l row.payload = .ok item) :
    hydrate reader l rows = .ok (rows.filterMap fun row =>
      (reader.payloadToCandidateItem l row.payload).toOption.map fun item => (row, item)) := by
  induction rows with
  | nil => rfl
  | cons row rows ih =>
    obtain ⟨item, hitem⟩ := h row List.mem_cons_self
    rw [hydrate, hitem, ih fun r hr => h r (List.mem_cons_of_mem _ hr),
      List.filterMap_cons_some (b := (row, item)) (by rw [hitem]; rfl)]
    rfl

/-- One point that cannot be hydrated ends the hydration. -/
theorem hydrated_of_ok {rows : List ScoredPoint} {hydrated : List (ScoredPoint × MemoryItem)}
    (h : hydrate reader l rows = .ok hydrated) :
    ∀ row ∈ rows, ∃ item, reader.payloadToCandidateItem l row.payload = .ok item := by
  induction rows generalizing hydrated with
  | nil => simp
  | cons row rows ih =>
    obtain ⟨item, hitem, h⟩ := Except.bind_eq_ok.mp h
    obtain ⟨rest, hrest, -⟩ := Except.bind_eq_ok.mp h
    exact List.forall_mem_cons.mpr ⟨⟨item, hitem⟩, ih hrest⟩

variable (fl u l reader query)

/-- The candidate of a point whose memory is a recallable head and passes the filter. -/
def usable (row : ScoredPoint) : Option Candidate :=
  (reader.payloadToCandidateItem l row.payload).toOption.bind fun item =>
    if l.isRecallableHead item.tenantId item.id ∧ matchesFilter item query then
      some (liveCandidate fl u query row item)
    else none

variable {fl u l reader query}

/-- The loop over hydrated points keeps the usable ones, when they all have one tenant. -/
theorem kept_eq_usable {rows : List ScoredPoint} {tenantId : UUID}
    (htenant : ∀ row ∈ rows, ∀ item, reader.payloadToCandidateItem l row.payload = .ok item →
      item.tenantId = tenantId) :
    let hydrated := rows.filterMap fun row =>
      (reader.payloadToCandidateItem l row.payload).toOption.map fun item => (row, item)
    ((hydrated.filter fun h => h.2.id ∈ recallableHeadIds l (hydrated.map Prod.snd) ∧
      matchesFilter h.2 query).map fun h => liveCandidate fl u query h.1 h.2) =
        rows.filterMap (usable fl u l reader query) := by
  intro hydrated
  have hids : ∀ h ∈ hydrated, h.2.id ∈ recallableHeadIds l (hydrated.map Prod.snd) ↔
      l.isRecallableHead h.2.tenantId h.2.id = true := by
    have hsame : ∀ h ∈ hydrated, h.2.tenantId = tenantId := by
      intro h hh
      obtain ⟨row, hrow, hitem⟩ := List.mem_filterMap.mp hh
      obtain ⟨item, hok, rfl⟩ := Option.map_eq_some_iff.mp hitem
      exact htenant row hrow item (Except.eq_ok_of_toOption hok)
    intro h hh
    rw [mem_recallableHeadIds]
    constructor
    · rintro ⟨i, hi, hid, hhead⟩
      obtain ⟨h', hh', rfl⟩ := List.mem_map.mp hi
      rw [hsame h hh, ← hsame h' hh']
      exact hhead
    · intro hhead
      exact ⟨h.2, List.mem_map_of_mem hh, rfl, hhead⟩
  rw [List.filter_congr (q := fun h => decide (l.isRecallableHead h.2.tenantId h.2.id = true ∧
    matchesFilter h.2 query = true)) fun h hh => by simp only [hids h hh]]
  rw [List.filter_filterMap, List.map_filterMap]
  apply List.filterMap_congr
  intro row _
  unfold usable
  cases hitem : reader.payloadToCandidateItem l row.payload with
  | error e => rfl
  | ok item =>
    by_cases hkeep : l.isRecallableHead item.tenantId item.id = true ∧
      matchesFilter item query = true
    · simp [Except.toOption, hkeep]
    · rw [Except.toOption, Option.map_some, Option.bind_some, if_neg hkeep]
      simpa using hkeep

/-- A search whose points can all be hydrated returns the first usable ones; any other search
ends with an error. -/
theorem searchQdrant_eq_ok {q : QdrantCandidateSource} {result : List Candidate}
    (hembed : q.embedQuery query.text = .ok (some vector)) (hdim : vector.length = q.denseDim)
    (htenant : ∀ row ∈ storeRows store query vector, ∀ item,
      reader.payloadToCandidateItem l row.payload = .ok item → item.tenantId = query.tenantId) :
    q.searchQdrant fl u l reader store query = .ok result ↔
      (∀ row ∈ storeRows store query vector,
        ∃ item, reader.payloadToCandidateItem l row.payload = .ok item) ∧
      result = ((storeRows store query vector).filterMap (usable fl u l reader query)).take
        query.topK := by
  have hsearch : q.searchQdrant fl u l reader store query =
      (hydrate reader l (storeRows store query vector)).bind fun hydrated =>
        .ok (((hydrated.filter fun h => h.2.id ∈ recallableHeadIds l (hydrated.map Prod.snd) ∧
          matchesFilter h.2 query).map fun h => liveCandidate fl u query h.1 h.2).take
            query.topK) := by
    rw [searchQdrant, hembed, Except.ok_bind]
    simp only [hdim, ne_eq, not_true_eq_false, if_false]
    rfl
  rw [hsearch]
  constructor
  · intro h
    obtain ⟨hydrated, hhydrate, hresult⟩ := Except.bind_eq_ok.mp h
    have hall := hydrated_of_ok hhydrate
    obtain rfl := Except.ok.inj ((hydrate_of_ok hall).symm.trans hhydrate)
    refine ⟨hall, ?_⟩
    rw [← kept_eq_usable htenant]
    exact (Except.ok.inj hresult).symm
  · rintro ⟨hall, rfl⟩
    rw [hydrate_of_ok hall, ← kept_eq_usable htenant]
    rfl

end QdrantCandidateSource

end MemoryPlane
