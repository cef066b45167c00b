import MemoryPlane.Runs.Indexing

/-!
# A reindex between worker runs

One reindex of a workspace among operations and worker runs. It lists the heads of the workspace
at one moment and replaces the workspace's points at a later one, so what the worker indexes in
between is deleted unless the listing has it.
-/

namespace MemoryPlane

open EmbeddingService

/-- The replacement step of a reindex. -/
def IndexedStore.replace (x : IndexedStore) (svc : EmbeddingService) (t w : UUID)
    (listed : Except Exn (List VectorPoint)) : IndexedStore :=
  { x with index := (svc.replaceWorkspace t w listed x.index).2 }

/-- A reindex of a workspace, with the operations and the worker runs before its listing, between
its listing and its replacement, and after. -/
structure ReindexRun (env : Deployment) (svc : EmbeddingService) (t w : UUID) where
  start : IndexedStore
  listing : IndexedStore
  replacing : IndexedStore
  final : IndexedStore
  before : List MemoryItem
  during : List MemoryItem
  after : List MemoryItem
  reachable : Reachable env start.store
  /-- At first, points are of stored items. -/
  points : ∀ i ∈ start.index.indexed, i ∈ start.store.items.rows
  toListing : Works env svc start before listing
  toReplacing : Works env svc listing during replacing
  toFinal : Works env svc
    (replacing.replace svc t w (svc.reindexPairs listing.store.toLedger t w)) after final

namespace ReindexRun

variable {env : Deployment} {svc : EmbeddingService} {t w : UUID} (r : ReindexRun env svc t w)

/-- The reindex returns normally. -/
def Completes : Prop :=
  (svc.replaceWorkspace t w (svc.reindexPairs r.listing.store.toLedger t w)
    r.replacing.index).1.isOk = true

/-- The item is a recallable head at the end. -/
def Head (i : MemoryItem) : Prop :=
  i ∈ r.final.store.items.rows ∧ r.final.store.isRecallableHead i.tenantId i.id = true

/-- Every recallable head that the worker completed or that the ledger of a completed reindex
listed has a point. -/
def LosesNothing : Prop := ∀ i, r.Head i →
  (i ∈ r.before ∨ i ∈ r.during ∨ i ∈ r.after) ∨
      (r.Completes ∧ i ∈ r.listing.store.items.rows ∧ i ∈ workspaceItems t w) →
    i ∈ r.final.index.indexed

variable {r} {i : MemoryItem}

/-- A recallable head at the end is a live last version of the history. -/
theorem head_iff : r.Head i ↔ i ∈ revisionScheme.Heads Live r.final.store.items.rows := by
  have hreach := (r.toReplacing.effect (r.toListing.effect r.reachable).reachable).reachable
  have hs := ((r.toFinal.effect hreach).reachable).consistent.chained
  constructor
  · rintro ⟨hi, hr⟩
    exact ⟨hi, (hs.isRecallableHead_iff hi).mp hr⟩
  · rintro ⟨hi, hr⟩
    exact ⟨hi, (hs.isRecallableHead_iff hi).mpr hr⟩

/-- What the steps of the run keep, and what they make of the index. -/
theorem effects (r : ReindexRun env svc t w) :
    Works.Effect env svc r.start r.before r.listing ∧
      Works.Effect env svc r.listing r.during r.replacing ∧
      Works.Effect env svc
        (r.replacing.replace svc t w (svc.reindexPairs r.listing.store.toLedger t w)) r.after
        r.final := by
  have h₁ := r.toListing.effect r.reachable
  have h₂ := r.toReplacing.effect h₁.reachable
  exact ⟨h₁, h₂, r.toFinal.effect h₂.reachable⟩

/-- A head of the workspace that the ledger had at the listing was listed. -/
theorem listed_of_head (h : r.Head i) (hW : i ∈ workspaceItems t w)
    (hi : i ∈ r.listing.store.items.rows) : i ∈ reindexItems r.listing.store.toLedger t w := by
  obtain ⟨-, h₂, h₃⟩ := r.effects
  obtain ⟨-, hl, hc⟩ := head_iff.mp h
  exact mem_reindexItems.mpr ⟨hi, hW, hl, fun c hcm _ => hc c (h₃.items c (h₂.items c hcm))⟩

/-- The points at the end of a run whose reindex completes, among the heads. -/
theorem indexed_of_completes (hc : r.Completes) (h : r.Head i) :
    i ∈ r.final.index.indexed ↔ i ∈ r.after ∨ i ∈ reindexItems r.listing.store.toLedger t w ∨
      (i ∉ workspaceItems t w ∧
        (i ∈ r.before ++ r.during ∨ i ∈ r.start.index.indexed)) := by
  obtain ⟨h₁, h₂, h₃⟩ := r.effects
  have hs := h₃.reachable.consistent.chained
  have hrep : r.replacing.index.indexed =
      revisionScheme.deliverAll Live r.start.index.indexed (r.before ++ r.during) := by
    rw [VersionScheme.deliverAll_append, ← h₁.indexed]
    exact h₂.indexed
  have hlog : ∀ j ∈ r.before ++ r.during, j ∈ r.replacing.store.items.rows := by
    intro j hj
    rcases List.mem_append.mp hj with hj | hj
    · exact h₂.items j (h₁.logged j hj)
    · exact h₂.logged j hj
  have hpoints : ∀ j ∈ r.replacing.index.indexed, j ∈ r.replacing.store.items.rows := by
    intro j hj
    rw [hrep] at hj
    rcases VersionScheme.mem_of_mem_deliverAll hj with hj | hj
    · exact h₂.items j (h₁.items j (r.points j hj))
    · exact hlog j hj
  have hsync := replace_indexed hc (fun j hj => h₂.items j hj) hpoints
  have hfin := h₃.indexed
  simp only [IndexedStore.replace] at hfin
  rw [hfin, hsync, hrep]
  exact hs.mem_replacePart_iff (fun j hj => h₃.items j (hlog j hj)) h₃.logged (head_iff.mp h)

/-- The points at the end of a run whose reindex fails, among the heads. -/
theorem indexed_of_fails (hc : ¬ r.Completes) (h : r.Head i) :
    i ∈ r.final.index.indexed ↔ i ∈ r.before ++ r.during ++ r.after ∨
      i ∈ r.start.index.indexed := by
  obtain ⟨h₁, h₂, h₃⟩ := r.effects
  have hs := h₃.reachable.consistent.chained
  have hsame := replaceWorkspace_of_error (Bool.not_eq_true _ ▸ hc)
  have hfin := h₃.indexed
  simp only [IndexedStore.replace] at hfin
  rw [hsame, h₂.indexed, h₁.indexed, ← VersionScheme.deliverAll_append,
    ← VersionScheme.deliverAll_append] at hfin
  rw [hfin, List.append_assoc]
  refine hs.mem_deliverAll_of_head (fun j hj => ?_) (head_iff.mp h)
  rcases List.mem_append.mp hj with hj | hj
  · exact h₃.items j (h₂.items j (h₁.logged j hj))
  · rcases List.mem_append.mp hj with hj | hj
    · exact h₃.items j (h₂.logged j hj)
    · exact h₃.logged j hj

end ReindexRun

/-- A reindex among operations and worker runs loses nothing if and only if it fails, or every
head of the workspace that was stored and processed between its listing and its replacement is
processed again after. -/
theorem reindex_losesNothing_iff {env : Deployment} {svc : EmbeddingService} {t w : UUID}
    (r : ReindexRun env svc t w) : r.LosesNothing ↔ (r.Completes →
      ∀ i, r.Head i → i ∈ workspaceItems t w → i ∉ r.listing.store.items.rows → i ∈ r.during →
        i ∈ r.after) := by
  obtain ⟨h₁, h₂, h₃⟩ := r.effects
  constructor
  · intro h hc i hh hW hnew hd
    have hin := h i hh (.inl (.inr (.inl hd)))
    rcases (ReindexRun.indexed_of_completes hc hh).mp hin with ha | hl | ⟨hnW, -⟩
    · exact ha
    · exact absurd (mem_reindexItems.mp hl).1 hnew
    · exact absurd hW hnW
  · intro h i hh hi
    by_cases hc : r.Completes
    · rw [ReindexRun.indexed_of_completes hc hh]
      by_cases hW : i ∈ workspaceItems t w
      · by_cases hold : i ∈ r.listing.store.items.rows
        · exact .inr (.inl (ReindexRun.listed_of_head hh hW hold))
        · rcases hi with (hb | hd | ha) | ⟨-, hl, -⟩
          · exact absurd (h₁.logged i hb) hold
          · exact .inl (h hc i hh hW hold hd)
          · exact .inl ha
          · exact absurd hl hold
      · rcases hi with (hb | hd | ha) | ⟨-, -, hW'⟩
        · exact .inr (.inr ⟨hW, .inl (List.mem_append_left _ hb)⟩)
        · exact .inr (.inr ⟨hW, .inl (List.mem_append_right _ hd)⟩)
        · exact .inl ha
        · exact absurd hW' hW
    · rw [ReindexRun.indexed_of_fails hc hh]
      rcases hi with (hb | hd | ha) | ⟨hc', -, -⟩
      · simp [hb]
      · simp [hd]
      · simp [ha]
      · exact absurd hc' hc

theorem unitIndex_indexed (rows : List MemoryItem) : ∀ i ∈ unitIndex.indexed, i ∈ rows := by
  rintro i ⟨p, hp, -⟩
  simp [unitIndex, Table.empty] at hp

/-- The first memory is retained and processed. -/
theorem storeWithMemory_works :
    Works (plainDeployment (UUID.ofNat 0)) unitService ⟨.empty, unitIndex⟩
      (unitService.completed storeWithMemory.toLedger (UUID.ofNat 1) (UUID.ofNat 10) unitIndex)
      (IndexedStore.process ⟨storeWithMemory, unitIndex⟩ unitService (UUID.ofNat 1)
        (UUID.ofNat 10)) :=
  .process (UUID.ofNat 1) (UUID.ofNat 10)
    (.commit (Operation.retain (plainRetain "The service listens on port 8080." .workspace none)
      none) (drawsFrom 10) .refl (by decide +kernel))

/-- A reindex of the empty workspace that replaces its points after the first memory was retained
and processed. -/
def lateReplacement : ReindexRun (plainDeployment (UUID.ofNat 0)) unitService (UUID.ofNat 1)
    (UUID.ofNat 2) where
  start := ⟨.empty, unitIndex⟩
  listing := ⟨.empty, unitIndex⟩
  replacing := IndexedStore.process ⟨storeWithMemory, unitIndex⟩ unitService (UUID.ofNat 1)
    (UUID.ofNat 10)
  final := (IndexedStore.process ⟨storeWithMemory, unitIndex⟩ unitService (UUID.ofNat 1)
    (UUID.ofNat 10)).replace unitService (UUID.ofNat 1) (UUID.ofNat 2)
      (unitService.reindexPairs Ledger.empty (UUID.ofNat 1) (UUID.ofNat 2))
  before := []
  during := unitService.completed storeWithMemory.toLedger (UUID.ofNat 1) (UUID.ofNat 10) unitIndex
  after := []
  reachable := .empty
  points := unitIndex_indexed _
  toListing := .refl
  toReplacing := storeWithMemory_works
  toFinal := .refl

/-- The replacement deletes the point of the memory. -/
theorem lateReplacement_loses : ¬ lateReplacement.LosesNothing := by
  intro h
  have hhead : lateReplacement.Head firstMemory := ⟨by decide +kernel, by decide +kernel⟩
  have hduring : firstMemory ∈ lateReplacement.during := by decide +kernel
  obtain ⟨p, hp, -⟩ := h firstMemory hhead (.inl (.inr (.inl hduring)))
  have hnone : lateReplacement.final.index.memItems.rows = [] := by decide +kernel
  rw [hnone] at hp
  cases hp

end MemoryPlane
