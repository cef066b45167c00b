import MemoryPlane.Adapters.Qdrant
import MemoryPlane.Adapters.Versions
import MemoryPlane.Lib.VersionIndex

/-!
# Embedding service

Generation of vectors for retained memories and their upkeep in the vector index: one run of the
worker for each delivered event, and a full reindex that lists a workspace, embeds its heads and
later replaces the workspace's points.
-/

namespace MemoryPlane

/-- The service: its embedding client, the size of the pieces it embeds, and its floats. -/
structure EmbeddingService where
  client : EmbeddingClient
  documentChunkChars : ℕ := 2000
  /-- The configured size is at least 256. -/
  chunk_bound : 256 ≤ documentChunkChars := by decide
  floats : FloatOps

namespace EmbeddingService

variable (svc : EmbeddingService)

/-- `text[offset:offset + n]` for every offset that is a multiple of `n`; one empty piece for an
empty text. -/
def chunks (text : String) : List String :=
  let n := svc.documentChunkChars
  let cs := text.toList
  let pieces := (List.range ((cs.length + n - 1) / n)).map fun k =>
    String.ofList ((cs.drop (k * n)).take n)
  if pieces = [] then [""] else pieces

/-- The mean of vectors of one dimension. -/
def meanPool (vectors : List (List ℚ)) (dimension : ℕ) : List ℚ :=
  (List.range dimension).map fun i =>
    svc.floats.round (svc.floats.sum (vectors.map fun v => v.getD i 0) / vectors.length)

/-- Embed long notes in bounded pieces and mean-pool their vectors. -/
def embedDocument (text : String) : Except Exn (List ℚ) := do
  let vectors ← (svc.chunks text).mapM (svc.client.embedDocument.getD svc.client.embed)
  match vectors with
  | [v] => return v
  | vectors =>
    let dimension := (vectors.headD []).length
    if vectors.any fun v => v.length ≠ dimension then
      .error (.valueError "embedding provider returned inconsistent chunk dimensions")
    else return svc.meanPool vectors dimension

/-- Reject provider output that cannot fit the configured vector index. -/
def validateDimension (vector : List ℚ) : Except Exn Unit :=
  if vector.length ≠ svc.client.dimension then
    .error (.valueError (s!"embedding dimension mismatch for {svc.client.modelName}: " ++
      s!"expected {svc.client.dimension}, got {vector.length}"))
  else .ok ()

/-- `self._qdrant.delete(item.supersedes_id)`, if the item supersedes one. -/
def deleteSuperseded (q : QdrantCandidateSource) (item : MemoryItem) : QdrantCandidateSource :=
  match item.supersedesId with
  | none => q
  | some p => q.delete p

/-- The embedding of a retained memory and its point. -/
def embedAndUpsert (item : MemoryItem) (q : QdrantCandidateSource) :
    Except Exn QdrantCandidateSource := do
  let vector ← svc.embedDocument item.text
  svc.validateDimension vector
  q.upsert item vector (some svc.client.modelName)

/-- Generate the embedding of a retained memory and upsert it into the vector store. -/
def processMemoryRetained (l : Ledger) (tenantId memoryId : UUID) (q : QdrantCandidateSource) :
    Except Exn Unit × QdrantCandidateSource :=
  match l.get tenantId memoryId with
  | none => (.error (.valueError
      s!"Memory item {memoryId.str} not found for tenant {tenantId.str}"), q)
  | some item =>
    if item.status.isTombstone then (.ok (), deleteSuperseded (q.delete item.id) item)
    else
      match svc.embedAndUpsert item q with
      | .error e => (.error e, q)
      | .ok q => (.ok (), deleteSuperseded q item)

/-- The listing of a reindex: the items that nothing in the workspace supersedes and that are
no tombstones. -/
def reindexItems (l : Ledger) (tenantId workspaceId : UUID) : List MemoryItem :=
  let items := l.listForWorkspace tenantId workspaceId
  let supersededIds := items.filterMap fun i => i.supersedesId
  items.filter fun i => ¬ (i.id ∈ supersededIds ∨ i.status.isTombstone)

/-- The first half of a reindex: list and embed. -/
def reindexPairs (l : Ledger) (tenantId workspaceId : UUID) : Except Exn (List VectorPoint) :=
  (reindexItems l tenantId workspaceId).mapM fun item => do
    let vector ← svc.embedDocument item.text
    svc.validateDimension vector
    return ⟨item, vector⟩

/-- The second half of a reindex: replace the points of the workspace, unless the first half
failed. -/
def replaceWorkspace (tenantId workspaceId : UUID) (listed : Except Exn (List VectorPoint))
    (q : QdrantCandidateSource) : Except Exn ℕ × QdrantCandidateSource :=
  match listed with
  | .error e => (.error e, q)
  | .ok pairs =>
    match q.syncWorkspace tenantId workspaceId pairs (some svc.client.modelName) with
    | .error e => (.error e, q)
    | .ok q => (.ok pairs.length, q)

end EmbeddingService

/-- The items that have a point. -/
def QdrantCandidateSource.indexed (q : QdrantCandidateSource) : Set MemoryItem :=
  {i | ∃ p ∈ q.memItems.rows, p.item = i}

namespace EmbeddingService

variable {svc : EmbeddingService} {q : QdrantCandidateSource} {l : Ledger}

/-- A model that may write only names the collection. -/
theorem validateWriteModel_memItems {q' : QdrantCandidateSource} {m : Option String}
    (h : q.validateWriteModel m = .ok q') : q'.memItems = q.memItems := by
  unfold QdrantCandidateSource.validateWriteModel at h
  split at h
  · cases h
  · cases h
    rfl
  · cases h
    rfl
  · split at h
    · cases h
      rfl
    · cases h

/-- An upsert that succeeds adds the point. -/
theorem embedAndUpsert_memItems {item : MemoryItem} {q' : QdrantCandidateSource}
    (h : svc.embedAndUpsert item q = .ok q') : ∃ v, q'.memItems = q.memItems.put ⟨item, v⟩ := by
  obtain ⟨v, -, h⟩ := Except.bind_eq_ok.mp h
  obtain ⟨-, -, h⟩ := Except.bind_eq_ok.mp h
  obtain ⟨-, -, h⟩ := Except.bind_eq_ok.mp h
  obtain ⟨q₁, hmodel, h⟩ := Except.bind_eq_ok.mp h
  cases h
  exact ⟨v, by rw [validateWriteModel_memItems hmodel]⟩

theorem deleteSuperseded_memItems {i : MemoryItem} {p : VectorPoint} :
    p ∈ (deleteSuperseded q i).memItems.rows ↔
      p ∈ q.memItems.rows ∧ i.supersedesId ≠ some p.item.id := by
  unfold deleteSuperseded
  cases i.supersedesId with
  | none => simp
  | some parent =>
    simp only [QdrantCandidateSource.delete, Table.mem_erase]
    simp [eq_comm]

/-- Whether an item belongs into the index. -/
def Live (i : MemoryItem) : Prop := i.status.isTombstone = false

variable (svc) in
/-- The item of a worker run that completes. -/
def completed (l : Ledger) (t id : UUID) (q : QdrantCandidateSource) : List MemoryItem :=
  if (svc.processMemoryRetained l t id q).1.isOk then (l.get t id).toList else []

theorem mem_completed {t id : UUID} {i : MemoryItem} (h : i ∈ svc.completed l t id q) :
    i ∈ l.items.rows := by
  unfold completed at h
  split at h
  · exact (Ledger.get_eq_some.mp (Option.mem_toList.mp h)).1
  · cases h

/-- A worker run that completes delivers its item to the index; one that fails leaves the index
alone. -/
theorem process_indexed (t id : UUID) : (svc.processMemoryRetained l t id q).2.indexed =
    revisionScheme.deliverAll Live q.indexed (svc.completed l t id q) := by
  unfold completed processMemoryRetained
  cases l.get t id with
  | none => rfl
  | some x =>
    simp only
    by_cases ht : x.status.isTombstone = true
    · simp only [ht, if_true, Except.isOk, Except.toBool]
      ext i
      simp only [QdrantCandidateSource.indexed, Set.mem_ofPred_eq, deleteSuperseded_memItems,
        QdrantCandidateSource.delete, Table.mem_erase, Option.toList_some,
        VersionScheme.deliverAll, List.foldl_cons, List.foldl_nil, VersionScheme.mem_deliver]
      constructor
      · rintro ⟨p, ⟨⟨hp, hne⟩, hpar⟩, rfl⟩
        exact ⟨.inr ⟨⟨p, hp, rfl⟩, hne⟩, hpar⟩
      · rintro ⟨⟨-, hl⟩ | ⟨⟨p, hp, rfl⟩, hne⟩, hpar⟩
        · simp [Live, ht] at hl
        · exact ⟨p, ⟨⟨hp, hne⟩, hpar⟩, rfl⟩
    · have hlive : Live x := by simpa [Live] using ht
      simp only [if_neg ht]
      cases hup : svc.embedAndUpsert x q with
      | error e => rfl
      | ok q' =>
        obtain ⟨v, hitems⟩ := embedAndUpsert_memItems hup
        simp only [Except.isOk, Except.toBool, if_true]
        ext i
        simp only [QdrantCandidateSource.indexed, Set.mem_ofPred_eq, deleteSuperseded_memItems,
          hitems, Table.mem_put, Option.toList_some, VersionScheme.deliverAll, List.foldl_cons,
          List.foldl_nil, VersionScheme.mem_deliver]
        constructor
        · rintro ⟨p, ⟨rfl | ⟨hp, hne⟩, hpar⟩, rfl⟩
          · exact ⟨.inl ⟨rfl, hlive⟩, hpar⟩
          · exact ⟨.inr ⟨⟨p, hp, rfl⟩, hne⟩, hpar⟩
        · rintro ⟨⟨rfl, -⟩ | ⟨⟨p, hp, rfl⟩, hne⟩, hpar⟩
          · exact ⟨⟨_, v⟩, ⟨.inl rfl, hpar⟩, rfl⟩
          · exact ⟨p, ⟨.inr ⟨hp, hne⟩, hpar⟩, rfl⟩

/-- The items of the workspace `w` of the tenant `t`. -/
def workspaceItems (t w : UUID) : Set MemoryItem := {i | i.tenantId = t ∧ i.workspaceId = w}

/-- The listing of a reindex, item by item. -/
theorem mem_reindexItems {t w : UUID} {i : MemoryItem} :
    i ∈ reindexItems l t w ↔ i ∈ l.items.rows ∧ i ∈ workspaceItems t w ∧ Live i ∧
      ∀ c ∈ l.items.rows, c ∈ workspaceItems t w → c.supersedesId ≠ some i.id := by
  simp only [reindexItems, workspaceItems, Live, List.mem_filter, Ledger.mem_listForWorkspace,
    Set.mem_ofPred_eq, List.mem_filterMap, decide_eq_true_eq, not_or, not_exists, not_and,
    Bool.not_eq_true]
  constructor
  · rintro ⟨⟨hi, ht, hw, -⟩, hno, hs⟩
    exact ⟨hi, ⟨ht, hw⟩, hs, fun c hc hcw hp => hno c ⟨hc, hcw.1, hcw.2, .inl trivial⟩ hp⟩
  · rintro ⟨hi, ⟨ht, hw⟩, hs, hno⟩
    exact ⟨⟨hi, ht, hw, .inl trivial⟩, fun c hc hp => hno c hc.1 ⟨hc.2.1, hc.2.2.1⟩ hp, hs⟩

theorem reindexItems_nodup (l : Ledger) (t w : UUID) :
    ((reindexItems l t w).map fun i => i.id).Nodup := by
  have hrows : (l.listForWorkspace t w).Nodup := by
    unfold Ledger.listForWorkspace
    simp only [List.drop_zero]
    exact (sortedBy_perm _ _).nodup_iff.mpr ((List.Nodup.of_map _ l.items.nodup).filter _)
  refine List.Nodup.map_on (fun i hi j hj he => ?_) (hrows.filter _)
  exact l.items.eq_of_key_eq (mem_reindexItems.mp hi).1 (mem_reindexItems.mp hj).1 he

/-- The pairs of a reindex are of the listed items. -/
theorem reindexPairs_items {t w : UUID} {pairs : List VectorPoint}
    (h : svc.reindexPairs l t w = .ok pairs) :
    (pairs.map fun p => p.item) = reindexItems l t w := by
  unfold reindexPairs at h
  generalize reindexItems l t w = items at h
  induction items generalizing pairs with
  | nil =>
    cases h
    rfl
  | cons i rest ih =>
    rw [List.mapM_cons] at h
    obtain ⟨p, hp, h⟩ := Except.bind_eq_ok.mp h
    obtain ⟨ps, hps, h⟩ := Except.bind_eq_ok.mp h
    cases h
    obtain ⟨v, -, hp⟩ := Except.bind_eq_ok.mp hp
    obtain ⟨u, -, hp⟩ := Except.bind_eq_ok.mp hp
    cases hp
    rw [List.map_cons, ih hps]

/-- A reindex that fails leaves the index alone. -/
theorem replaceWorkspace_of_error {t w : UUID} {listed : Except Exn (List VectorPoint)}
    (h : (svc.replaceWorkspace t w listed q).1.isOk = false) :
    (svc.replaceWorkspace t w listed q).2 = q := by
  unfold replaceWorkspace at h ⊢
  cases listed with
  | error e => rfl
  | ok pairs =>
    simp only at h ⊢
    cases hs : q.syncWorkspace t w pairs (some svc.client.modelName) with
    | error e => rfl
    | ok q' =>
      rw [hs] at h
      cases h

/-- A replacement that completes puts the points of the listed pairs in the place of the
workspace's. -/
theorem replaceWorkspace_memItems {t w : UUID} {listed : Except Exn (List VectorPoint)}
    (h : (svc.replaceWorkspace t w listed q).1.isOk = true) :
    ∃ pairs, listed = .ok pairs ∧ (svc.replaceWorkspace t w listed q).2.memItems =
      (q.staleIds t w pairs).foldl Table.erase
        (QdrantCandidateSource.updatePoints q.memItems pairs) := by
  unfold replaceWorkspace at h ⊢
  cases listed with
  | error e => cases h
  | ok pairs =>
    simp only at h ⊢
    cases hs : q.syncWorkspace t w pairs (some svc.client.modelName) with
    | error e =>
      rw [hs] at h
      cases h
    | ok q' =>
      refine ⟨pairs, rfl, ?_⟩
      unfold QdrantCandidateSource.syncWorkspace at hs
      split at hs
      · cases hs
      · obtain ⟨-, -, hs⟩ := Except.bind_eq_ok.mp hs
        obtain ⟨q₁, hmodel, hs⟩ := Except.bind_eq_ok.mp hs
        cases hs
        simp only [QdrantCandidateSource.staleIds, validateWriteModel_memItems hmodel]

/-- The vector of each pair is that of its item's text. -/
theorem reindexPairs_vectors {t w : UUID} {pairs : List VectorPoint}
    (h : svc.reindexPairs l t w = .ok pairs) :
    ∀ p ∈ pairs, svc.embedDocument p.item.text = .ok p.vector := by
  unfold reindexPairs at h
  generalize reindexItems l t w = items at h
  induction items generalizing pairs with
  | nil =>
    cases h
    intro p hp
    cases hp
  | cons i rest ih =>
    rw [List.mapM_cons] at h
    obtain ⟨p, hp, h⟩ := Except.bind_eq_ok.mp h
    obtain ⟨ps, hps, h⟩ := Except.bind_eq_ok.mp h
    cases h
    obtain ⟨v, hv, hp⟩ := Except.bind_eq_ok.mp hp
    obtain ⟨u, -, hp⟩ := Except.bind_eq_ok.mp hp
    cases hp
    intro p' hp'
    obtain rfl | hp' := List.mem_cons.mp hp'
    · exact hv
    · exact ih hps p' hp'

/-- The points after a reindex that completes: the listed items with their vectors, and of the
others those outside the workspace under no identifier of a listed item. -/
theorem mem_replaceWorkspace {t w : UUID}
    (h : (svc.replaceWorkspace t w (svc.reindexPairs l t w) q).1.isOk = true) :
    ∃ pairs, svc.reindexPairs l t w = .ok pairs ∧
      ∀ p, p ∈ (svc.replaceWorkspace t w (svc.reindexPairs l t w) q).2.memItems.rows ↔
        p ∈ pairs ∨ p ∈ q.memItems.rows ∧ p.item.id ∉ (reindexItems l t w).map (fun i => i.id) ∧
          p.item ∉ workspaceItems t w := by
  obtain ⟨pairs, hpairs, hitems⟩ := replaceWorkspace_memItems h
  have hids : (pairs.map fun p => p.item.id) = (reindexItems l t w).map fun i => i.id := by
    rw [← reindexPairs_items hpairs, List.map_map]
    rfl
  have hn : (pairs.map fun p => p.item.id).Nodup := hids ▸ reindexItems_nodup l t w
  have hstale : ∀ id, id ∈ q.staleIds t w pairs ↔
      id ∉ (pairs.map fun p => p.item.id) ∧
        ∃ p ∈ q.memItems.rows, p.item ∈ workspaceItems t w ∧ p.item.id = id := by
    intro id
    simp only [QdrantCandidateSource.staleIds, List.mem_map, List.mem_filter,
      decide_eq_true_eq, workspaceItems, Set.mem_ofPred_eq]
    constructor
    · rintro ⟨p, ⟨hp, ht, hw, hno⟩, rfl⟩
      exact ⟨hno, p, hp, ⟨ht, hw⟩, rfl⟩
    · rintro ⟨hno, p, hp, ⟨ht, hw⟩, rfl⟩
      exact ⟨p, ⟨hp, ht, hw, hno⟩, rfl⟩
  refine ⟨pairs, hpairs, fun p => ?_⟩
  rw [hitems, Table.mem_foldl_erase, QdrantCandidateSource.updatePoints, Table.mem_foldl_put hn,
    hstale, ← hids]
  constructor
  · rintro ⟨hp | ⟨hp, hid⟩, hns⟩
    · exact .inl hp
    · exact .inr ⟨hp, hid, fun hW => hns ⟨hid, p, hp, hW, rfl⟩⟩
  · rintro (hp | ⟨hp, hid, hW⟩)
    · exact ⟨.inl hp, fun hs => hs.1 (List.mem_map_of_mem hp)⟩
    · refine ⟨.inr ⟨hp, hid⟩, ?_⟩
      rintro ⟨-, p', hp', hW', he⟩
      obtain rfl : p' = p := q.memItems.eq_of_key_eq hp' hp he
      exact hW hW'

/-- A reindex that completes puts the listed items in the place of the workspace's points, if all
points are of stored items. -/
theorem replace_indexed {t w : UUID} {rows : Table MemoryItem fun i => i.id}
    (h : (svc.replaceWorkspace t w (svc.reindexPairs l t w) q).1.isOk = true)
    (hl : ∀ i ∈ l.items.rows, i ∈ rows.rows) (hq : ∀ i ∈ q.indexed, i ∈ rows.rows) :
    (svc.replaceWorkspace t w (svc.reindexPairs l t w) q).2.indexed =
      VersionScheme.replacePart q.indexed (workspaceItems t w) {i | i ∈ reindexItems l t w} := by
  obtain ⟨pairs, hpairs, hmem⟩ := mem_replaceWorkspace h
  have hmap := reindexPairs_items hpairs
  ext i
  simp only [QdrantCandidateSource.indexed, Set.mem_ofPred_eq, hmem, VersionScheme.replacePart,
    Set.mem_union, Set.mem_sdiff]
  constructor
  · rintro ⟨p, hp | ⟨hp, -, hW⟩, rfl⟩
    · left
      rw [← hmap]
      exact List.mem_map_of_mem hp
    · exact .inr ⟨⟨p, hp, rfl⟩, hW⟩
  · rintro (hi | ⟨⟨p, hp, rfl⟩, hW⟩)
    · rw [← hmap] at hi
      obtain ⟨p, hp, rfl⟩ := List.mem_map.mp hi
      exact ⟨p, .inl hp, rfl⟩
    · refine ⟨p, .inr ⟨hp, fun hid => ?_, hW⟩, rfl⟩
      obtain ⟨j, hj, he⟩ := List.mem_map.mp hid
      obtain ⟨hjl, hjW, -⟩ := mem_reindexItems.mp hj
      have hpj : j = p.item := rows.eq_of_key_eq (hl j hjl) (hq _ ⟨p, hp, rfl⟩) he
      exact hW (hpj ▸ hjW)

end EmbeddingService

end MemoryPlane
