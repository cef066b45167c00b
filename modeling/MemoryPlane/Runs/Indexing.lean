import MemoryPlane.Runs.Chains
import MemoryPlane.Services.Embedding

/-!
# Worker runs between commits

Operations of the services and runs of the embedding worker in any order, on one store and one
vector index. The log of a run lists the items of the worker runs that completed, one by one; it
decides what the index holds at the end.
-/

namespace MemoryPlane

open EmbeddingService

/-- A store with its vector index. -/
structure IndexedStore where
  store : InMemoryMemoryStore
  index : QdrantCandidateSource

namespace IndexedStore

/-- One run of the worker. -/
def process (x : IndexedStore) (svc : EmbeddingService) (t id : UUID) : IndexedStore :=
  { x with index := (svc.processMemoryRetained x.store.toLedger t id x.index).2 }

/-- One operation of the services. -/
def commit (x : IndexedStore) (env : Deployment) (op : Operation) (d : Draws) : IndexedStore :=
  { x with store := (op.run env d x.store).2 }

end IndexedStore

/-- Operations and worker runs lead from one store and index to another. -/
inductive Works (env : Deployment) (svc : EmbeddingService) (x : IndexedStore) :
    List MemoryItem → IndexedStore → Prop
  | refl : Works env svc x [] x
  | commit {log : List MemoryItem} {y : IndexedStore} (op : Operation) (d : Draws)
      (before : Works env svc x log y) (fresh : d.Fresh (op.drawCount y.store) y.store.usedIds) :
      Works env svc x log (y.commit env op d)
  | process {log : List MemoryItem} {y : IndexedStore} (t id : UUID)
      (before : Works env svc x log y) :
      Works env svc x (log ++ svc.completed y.store.toLedger t id y.index) (y.process svc t id)

/-- What a run keeps, and what it makes of the index. -/
structure Works.Effect (env : Deployment) (svc : EmbeddingService) (x : IndexedStore)
    (log : List MemoryItem) (y : IndexedStore) : Prop where
  reachable : Reachable env y.store
  items : ∀ i ∈ x.store.items.rows, i ∈ y.store.items.rows
  logged : ∀ i ∈ log, i ∈ y.store.items.rows
  indexed : y.index.indexed = revisionScheme.deliverAll Live x.index.indexed log

variable {env : Deployment} {svc : EmbeddingService} {x y : IndexedStore} {log : List MemoryItem}

theorem Works.effect (h : Works env svc x log y) (hx : Reachable env x.store) :
    Works.Effect env svc x log y := by
  induction h with
  | refl => exact ⟨hx, fun _ hi => hi, by simp, rfl⟩
  | @commit log y op d _ fresh ih =>
    have hkeeps := op.keeps_items env ih.reachable.consistent.chained fresh
    exact ⟨.step op d ih.reachable fresh, fun i hi => hkeeps i (ih.items i hi),
      fun i hi => hkeeps i (ih.logged i hi), ih.indexed⟩
  | @process log y t id _ ih =>
    refine ⟨ih.reachable, ih.items, fun i hi => ?_, ?_⟩
    · rcases List.mem_append.mp hi with hi | hi
      · exact ih.logged i hi
      · exact mem_completed hi
    · rw [VersionScheme.deliverAll_append, ← ih.indexed]
      exact process_indexed t id

/-- The points of the index are exactly the recallable heads of the store. -/
def IndexExact (y : IndexedStore) : Prop :=
  ∀ i, i ∈ y.index.indexed ↔
    i ∈ y.store.items.rows ∧ y.store.isRecallableHead i.tenantId i.id = true

/-- The worker ran to completion for every event of the store. -/
def Delivered (log : List MemoryItem) (s : InMemoryMemoryStore) : Prop :=
  ∀ e ∈ s.events, e.name = memoryRetained →
    ∃ i ∈ log, e.tenantId = i.tenantId ∧ e.correlationId = some i.id

instance (log : List MemoryItem) (s : InMemoryMemoryStore) : Decidable (Delivered log s) := by
  unfold Delivered
  infer_instance

/-- Every delivery of a replaced item that is no tombstone is followed by a delivery of the
item that replaces it. -/
def ReplacementsFollow (log : List MemoryItem) (s : InMemoryMemoryStore) : Prop :=
  ∀ i ∈ s.items.rows, Live i → ¬ s.Unreplaced i → ∀ l₁ l₂, log = l₁ ++ i :: l₂ →
    ∃ c ∈ l₂, c.supersedesId = some i.id

/-- When all events are delivered, all items are. -/
theorem Delivered.mem_log {s : InMemoryMemoryStore} (hs : s.toLedger.Consistent)
    (hlog : ∀ i ∈ log, i ∈ s.items.rows) (h : Delivered log s) :
    ∀ i ∈ s.items.rows, i ∈ log := by
  intro i hi
  obtain ⟨k, hk, he⟩ := List.getElem_of_mem hi
  have hlen := hs.announced.length_eq
  have ha := hs.announced.get hk (hlen ▸ hk)
  simp only [List.get_eq_getElem, he] at ha
  obtain ⟨j, hj, -, hc⟩ := h _ (List.getElem_mem _) ha.name
  rw [ha.correlation, Option.some.injEq] at hc
  obtain rfl : i = j := s.items.eq_of_key_eq hi (hlog j hj) hc
  exact hj

/-- Once the worker completed every event, in any order and with any repetitions, the index is
exact if and only if no replaced item was delivered after the last delivery of its
replacement. -/
theorem index_exact_iff {q : QdrantCandidateSource} (hq : q.memItems = Table.empty)
    (h : Works env svc ⟨.empty, q⟩ log y) (hall : Delivered log y.store) :
    IndexExact y ↔ ReplacementsFollow log y.store := by
  have heff := h.effect .empty
  have hs := heff.reachable.consistent
  have hempty : q.indexed = ∅ := by
    ext i
    simp [QdrantCandidateSource.indexed, hq, Table.empty]
  have hindexed : y.index.indexed = revisionScheme.deliverAll Live ∅ log :=
    heff.indexed.trans (by rw [hempty])
  have hpoint : ∀ i ∈ y.index.indexed, i ∈ y.store.items.rows := by
    intro i hi
    rw [hindexed] at hi
    rcases VersionScheme.mem_of_mem_deliverAll hi with hi | hi
    · exact absurd hi (Set.notMem_empty i)
    · exact heff.logged i hi
  have hiff := hs.chained.deliverAll_eq_heads_iff Live heff.logged (hall.mem_log hs heff.logged)
  rw [← hindexed] at hiff
  refine Iff.trans ⟨fun hex i hi => ?_, fun hex i => ?_⟩ hiff
  · rw [hex i, hs.chained.isRecallableHead_iff hi]
    rfl
  · constructor
    · intro hi
      have him := hpoint i hi
      exact ⟨him, (hs.chained.isRecallableHead_iff him).mpr ((hex i him).mp hi).2⟩
    · rintro ⟨him, hr⟩
      exact (hex i him).mpr ⟨him, (hs.chained.isRecallableHead_iff him).mp hr⟩

/-- An embedding service whose provider gives every text the same vector. -/
def unitService : EmbeddingService where
  client := { modelName := "unit", dimension := 1, embed := fun _ => .ok [1] }
  floats := (plainDeployment (UUID.ofNat 0)).runtime.toFloatOps

/-- An empty index of its dimension. -/
def unitIndex : QdrantCandidateSource := { denseDim := 1 }

/-- A replacement of the only memory of `storeWithMemory`. -/
def timelySupersede : SupersedeMemoryCommand := portMove 10 1 first_revision_positive

/-- The store with the memory and its replacement, and the index of `unitIndex` still empty. -/
def replacedMemory : IndexedStore :=
  IndexedStore.commit ⟨storeWithMemory, unitIndex⟩ (plainDeployment (UUID.ofNat 0))
    (.supersede timelySupersede none) (drawsFrom 20)

/-- The memory that replaces `firstMemory`. -/
def secondMemory : MemoryItem :=
  (replacedMemory.store.get (UUID.ofNat 1) (UUID.ofNat 20)).get (by decide +kernel)

theorem replacedMemory_works :
    Works (plainDeployment (UUID.ofNat 0)) unitService ⟨.empty, unitIndex⟩ [] replacedMemory :=
  .commit _ _ (.commit _ _ .refl (by decide +kernel)) (by decide +kernel)

/-- Worker runs for two items, one after the other. -/
def processBoth (first second : UUID) : IndexedStore :=
  (replacedMemory.process unitService (UUID.ofNat 1) first).process unitService
    (UUID.ofNat 1) second

theorem processBoth_works {first second : UUID} {i j : MemoryItem}
    (hi : unitService.completed replacedMemory.store.toLedger (UUID.ofNat 1) first
      replacedMemory.index = [i])
    (hj : unitService.completed replacedMemory.store.toLedger (UUID.ofNat 1) second
      (replacedMemory.process unitService (UUID.ofNat 1) first).index = [j]) :
    Works (plainDeployment (UUID.ofNat 0)) unitService ⟨.empty, unitIndex⟩ [i, j]
      (processBoth first second) := by
  have h := (replacedMemory_works.process (UUID.ofNat 1) first).process (UUID.ofNat 1) second
  rw [hi] at h
  have hstore : (replacedMemory.process unitService (UUID.ofNat 1) first).store =
      replacedMemory.store := rfl
  rw [hstore, hj] at h
  exact h

/-- Delivered in the order of their revisions, the two memories leave an exact index. -/
theorem index_exact_iff_example :
    IndexExact (processBoth (UUID.ofNat 10) (UUID.ofNat 20)) := by
  have h : Works (plainDeployment (UUID.ofNat 0)) unitService ⟨.empty, unitIndex⟩
      [firstMemory, secondMemory] (processBoth (UUID.ofNat 10) (UUID.ofNat 20)) :=
    processBoth_works (by decide +kernel) (by decide +kernel)
  refine (index_exact_iff rfl h (by decide +kernel)).mpr ?_
  have hsup : secondMemory.supersedesId = some firstMemory.id := by decide +kernel
  have hcur : ∀ c ∈ replacedMemory.store.items.rows, c.supersedesId ≠ some secondMemory.id := by
    decide +kernel
  intro i _ _ hn l₁ l₂ he
  rcases l₁ with _ | ⟨a, _ | ⟨b, l₁⟩⟩
  · cases he
    exact ⟨secondMemory, List.mem_singleton.mpr rfl, hsup⟩
  · cases he
    exact absurd hcur hn
  · simp at he

/-- Delivered the other way round, the replaced memory keeps a point. -/
theorem reorderedDelivery_inexact :
    Works (plainDeployment (UUID.ofNat 0)) unitService ⟨.empty, unitIndex⟩
        [secondMemory, firstMemory] (processBoth (UUID.ofNat 20) (UUID.ofNat 10)) ∧
      Delivered [secondMemory, firstMemory] (processBoth (UUID.ofNat 20) (UUID.ofNat 10)).store ∧
      ¬ IndexExact (processBoth (UUID.ofNat 20) (UUID.ofNat 10)) := by
  refine ⟨processBoth_works (by decide +kernel) (by decide +kernel), by decide +kernel, ?_⟩
  intro hex
  have hpoint : ∃ p ∈ (processBoth (UUID.ofNat 20) (UUID.ofNat 10)).index.memItems.rows,
      p.item = firstMemory := by decide +kernel
  have hreplaced : (processBoth (UUID.ofNat 20) (UUID.ofNat 10)).store.isRecallableHead
      firstMemory.tenantId firstMemory.id = false := by decide +kernel
  have hhead := ((hex firstMemory).mp hpoint).2
  rw [hreplaced] at hhead
  cases hhead

end MemoryPlane
