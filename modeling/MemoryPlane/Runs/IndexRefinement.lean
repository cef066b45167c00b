import MemoryPlane.Runs.Reindexing

/-!
# A reindex by itself

What a reindex without concurrent operations makes of an arbitrary index. Points are kept under the
identifier of their item alone, so the replacement of a workspace's points also takes the place of
a point of another workspace under the same identifier.
-/

namespace MemoryPlane

namespace EmbeddingService

variable (svc : EmbeddingService) (l : Ledger) (t w : UUID) (q : QdrantCandidateSource)

/-- Re-generate all embeddings of a workspace and replace its points. -/
def reindexAll : Except Exn ℕ × QdrantCandidateSource :=
  svc.replaceWorkspace t w (svc.reindexPairs l t w) q

/-- A point of a recallable head of the workspace with the vector of its text. -/
structure HeadPoint (p : VectorPoint) : Prop where
  stored : p.item ∈ l.items.rows
  workspace : p.item ∈ workspaceItems t w
  head : l.isRecallableHead t p.item.id = true
  vector : svc.embedDocument p.item.text = .ok p.vector

/-- The points of the workspace are those of its recallable heads and all others are as before, or
the reindex fails and the index is as before. -/
structure ReindexRefines : Prop where
  heads : (svc.reindexAll l t w q).1.isOk = true → ∀ p, p.item ∈ workspaceItems t w →
    (p ∈ (svc.reindexAll l t w q).2.memItems.rows ↔ svc.HeadPoint l t w p)
  others : (svc.reindexAll l t w q).1.isOk = true → ∀ p, p.item ∉ workspaceItems t w →
    (p ∈ (svc.reindexAll l t w q).2.memItems.rows ↔ p ∈ q.memItems.rows)
  fails : (svc.reindexAll l t w q).1.isOk = false → (svc.reindexAll l t w q).2 = q

/-- Points of other workspaces are under other identifiers than the listed items. -/
def PointsApart : Prop := ∀ p ∈ q.memItems.rows, p.item ∉ workspaceItems t w →
  p.item.id ∉ (reindexItems l t w).map fun i => i.id

/-- The listed items are recallable heads: nothing in another workspace replaces one. -/
def ListsHeads : Prop := ∀ i ∈ reindexItems l t w, l.isRecallableHead t i.id = true

variable {svc l t w q}

/-- Recallable heads of the workspace are listed. -/
theorem mem_reindexItems_of_head {i : MemoryItem} (hi : i ∈ l.items.rows)
    (hW : i ∈ workspaceItems t w)
    (hhead : l.isRecallableHead t i.id = true) : i ∈ reindexItems l t w := by
  obtain ⟨j, hj, hid, -, hlive, hnone⟩ := Ledger.isRecallableHead_iff.mp hhead
  obtain rfl : j = i := l.items.eq_of_key_eq hj hi hid
  exact mem_reindexItems.mpr ⟨hi, hW, hlive, fun c hc hcW => hnone c hc hcW.1⟩

/-- Every item that a reindex of a reachable store lists is a recallable head. -/
theorem listsHeads_of_reachable {env : Deployment} {s : InMemoryMemoryStore} (hs : Reachable env s)
    (t w : UUID) : ListsHeads s.toLedger t w := by
  have hchained := hs.consistent.chained
  intro i hi
  obtain ⟨him, hW, hlive, hnone⟩ := mem_reindexItems.mp hi
  have hhead := (hchained.isRecallableHead_iff him).mpr ⟨hlive, fun c hc hp => ?_⟩
  · rwa [hW.1] at hhead
  · have hsame := (hchained.child ⟨him, hc, hp⟩).2
    exact hnone c hc ⟨hsame.tenant.symm.trans hW.1, hsame.workspace.symm.trans hW.2⟩ hp

/-- A reindex refines the ledger exactly when it fails, or the points of other workspaces are under
other identifiers than the items it lists and these are recallable heads, as they are in every
reachable store. -/
theorem reindex_refines_iff (svc : EmbeddingService) (l : Ledger) (t w : UUID)
    (q : QdrantCandidateSource) :
    (svc.ReindexRefines l t w q ↔ ((svc.reindexAll l t w q).1.isOk = true →
      PointsApart l t w q ∧ ListsHeads l t w)) ∧
      ∀ (env : Deployment) (s : InMemoryMemoryStore), Reachable env s →
        ListsHeads s.toLedger t w := by
  refine ⟨⟨fun h hok => ?_, fun h => ?_⟩, fun env s hs => listsHeads_of_reachable hs t w⟩
  · obtain ⟨pairs, hpairs, hmem⟩ := mem_replaceWorkspace hok
    have hmap := reindexPairs_items hpairs
    have hlisted : ∀ p ∈ pairs, p.item ∈ reindexItems l t w := by
      intro p hp
      rw [← hmap]
      exact List.mem_map_of_mem hp
    constructor
    · intro p hp hW
      obtain hnew | ⟨-, hid, -⟩ := (hmem p).mp ((h.others hok p hW).mpr hp)
      · exact absurd (mem_reindexItems.mp (hlisted p hnew)).2.1 hW
      · exact hid
    · intro i hi
      rw [← hmap] at hi
      obtain ⟨p, hp, rfl⟩ := List.mem_map.mp hi
      have hW := (mem_reindexItems.mp (hlisted p hp)).2.1
      exact ((h.heads hok p hW).mp ((hmem p).mpr (.inl hp))).head
  · refine ⟨fun hok p hW => ?_, fun hok p hW => ?_, replaceWorkspace_of_error⟩
    · obtain ⟨pairs, hpairs, hmem⟩ := mem_replaceWorkspace hok
      have hmap := reindexPairs_items hpairs
      rw [show p ∈ (svc.reindexAll l t w q).2.memItems.rows ↔ _ from hmem p]
      constructor
      · rintro (hp | ⟨-, -, hnot⟩)
        · have hlisted : p.item ∈ reindexItems l t w := by
            rw [← hmap]
            exact List.mem_map_of_mem hp
          exact ⟨(mem_reindexItems.mp hlisted).1, hW, (h hok).2 _ hlisted,
            reindexPairs_vectors hpairs p hp⟩
        · exact absurd hW hnot
      · intro hhead
        have hlisted := mem_reindexItems_of_head hhead.stored hW hhead.head
        rw [← hmap] at hlisted
        obtain ⟨p', hp', hitem⟩ := List.mem_map.mp hlisted
        have hvector := reindexPairs_vectors hpairs p' hp'
        rw [hitem, hhead.vector] at hvector
        have hsame : p' = p := by
          cases p
          cases p'
          cases hitem
          cases hvector
          rfl
        exact .inl (hsame ▸ hp')
    · obtain ⟨pairs, hpairs, hmem⟩ := mem_replaceWorkspace hok
      have hmap := reindexPairs_items hpairs
      rw [show p ∈ (svc.reindexAll l t w q).2.memItems.rows ↔ _ from hmem p]
      constructor
      · rintro (hp | ⟨hp, -, -⟩)
        · have hlisted : p.item ∈ reindexItems l t w := by
            rw [← hmap]
            exact List.mem_map_of_mem hp
          exact absurd (mem_reindexItems.mp hlisted).2.1 hW
        · exact hp
      · exact fun hp => .inr ⟨hp, (h hok).1 p hp hW, hW⟩

/-- The first memory, as an item of another workspace. -/
def movedMemory : MemoryItem := { firstMemory with workspaceId := UUID.ofNat 3 }

/-- An index with a point of the other workspace under the identifier of the first memory. -/
def sharedIndex : QdrantCandidateSource :=
  { unitIndex with memItems := Table.empty.put ⟨movedMemory, [5]⟩ }

theorem reindex_refines_at_first :
    (unitService.ReindexRefines storeWithMemory.toLedger (UUID.ofNat 1) (UUID.ofNat 2) unitIndex ↔
      ((unitService.reindexAll storeWithMemory.toLedger (UUID.ofNat 1) (UUID.ofNat 2)
          unitIndex).1.isOk = true →
        PointsApart storeWithMemory.toLedger (UUID.ofNat 1) (UUID.ofNat 2) unitIndex ∧
          ListsHeads storeWithMemory.toLedger (UUID.ofNat 1) (UUID.ofNat 2))) ∧
      ListsHeads storeWithMemory.toLedger (UUID.ofNat 1) (UUID.ofNat 2) := by
  have hfirst := reindex_refines_iff unitService storeWithMemory.toLedger (UUID.ofNat 1)
    (UUID.ofNat 2) unitIndex
  exact ⟨hfirst.1, hfirst.2 _ _ storeWithMemory_reachable⟩

/-- The reindex takes the place of the other workspace's point. -/
theorem reindex_touches_other_workspace :
    ¬ ∀ (svc : EmbeddingService) (l : Ledger) (t w : UUID) (q : QdrantCandidateSource),
      svc.ReindexRefines l t w q := by
  intro h
  have hrefines := h unitService storeWithMemory.toLedger (UUID.ofNat 1) (UUID.ofNat 2) sharedIndex
  have hok : (unitService.reindexAll storeWithMemory.toLedger (UUID.ofNat 1) (UUID.ofNat 2)
      sharedIndex).1.isOk = true := by decide +kernel
  have hother : movedMemory ∉ workspaceItems (UUID.ofNat 1) (UUID.ofNat 2) := by
    intro hW
    exact absurd hW.2 (by decide +kernel)
  have hkept := (hrefines.others hok ⟨movedMemory, [5]⟩ hother).mpr (by decide +kernel)
  exact absurd hkept (by decide +kernel)

end EmbeddingService

end MemoryPlane
