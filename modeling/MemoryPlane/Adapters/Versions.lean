import MemoryPlane.Adapters.Writes

/-!
# Revision chains of the ledger

The ledger's rows as a version history: a revision names the item it replaces, stands one
revision above it, and stays in its tenant, workspace, layer and scope. On a well-formed
history the loop of `_latest_descendant` finds the last version of a chain, so the check of a
compare-and-swap is exactly "not yet replaced, at the expected revision".
-/

namespace MemoryPlane

/-- What a revision shares with the item it replaces. -/
structure SameBoundary (x y : MemoryItem) : Prop where
  tenant : x.tenantId = y.tenantId
  workspace : x.workspaceId = y.workspaceId
  layer : x.layer = y.layer
  scope : x.scope = y.scope

/-- Items as versions. -/
def revisionScheme : VersionScheme MemoryItem UUID where
  id i := i.id
  parent i := i.supersedesId
  rank i := i.revision
  Same := SameBoundary

namespace Ledger

open Relation

variable {l : Ledger} {x y : MemoryItem}

/-- The revision history of a ledger is well formed. -/
def Chained (l : Ledger) : Prop := revisionScheme.WellFormed l.items.rows

/-- Items that a revision replaces directly. -/
def Replaces (l : Ledger) (x y : MemoryItem) : Prop := revisionScheme.Child l.items.rows x y

/-- No stored item replaces `x`. -/
def Unreplaced (l : Ledger) (x : MemoryItem) : Prop :=
  revisionScheme.Childless l.items.rows x

theorem chained_empty : empty.Chained := VersionScheme.wellFormed_nil

theorem nextRevision_eq_some {t : UUID} (h : nextRevision l.items.rows t x = some y) :
    y ∈ l.items.rows ∧ y.tenantId = t ∧ y.supersedesId = some x.id ∧ x.revision < y.revision := by
  have hy := List.find?_some h
  simp only [decide_eq_true_eq] at hy
  exact ⟨List.mem_of_find?_eq_some h, hy⟩

/-- The loop stops exactly at the items that nothing replaces. -/
theorem Chained.nextRevision_eq_none (hc : l.Chained) (hx : x ∈ l.items.rows) :
    nextRevision l.items.rows x.tenantId x = none ↔ l.Unreplaced x := by
  unfold nextRevision
  rw [List.find?_eq_none]
  simp only [decide_eq_true_eq]
  constructor
  · intro h y hy hp
    obtain ⟨hrank, hsame⟩ := hc.child ⟨hx, hy, hp⟩
    refine h y hy ⟨hsame.tenant.symm, hp, ?_⟩
    change y.revision = x.revision + 1 at hrank
    omega
  · rintro h y hy ⟨-, hp, -⟩
    exact h y hy hp

/-- The loop follows replacements and never leaves the tenant. -/
theorem reaches_of_steps (hx : x ∈ l.items.rows) {t : UUID} (ht : x.tenantId = t)
    (h : ReflTransGen (fun a b => nextRevision l.items.rows t a = some b) x y) :
    ReflTransGen l.Replaces x y ∧ y ∈ l.items.rows ∧ y.tenantId = t := by
  induction h with
  | refl => exact ⟨.refl, hx, ht⟩
  | tail _ hs ih =>
    obtain ⟨hr, hb, -⟩ := ih
    obtain ⟨hy, hyt, hp, -⟩ := nextRevision_eq_some hs
    exact ⟨hr.tail ⟨hb, hy, hp⟩, hy, hyt⟩

/-- `_latest_descendant` returns the last version of the chain of a stored item. -/
theorem Chained.latestDescendant_isHead (hc : l.Chained) (hx : x ∈ l.items.rows) :
    revisionScheme.IsHead l.items.rows x (l.latestDescendant x) := by
  obtain ⟨hsteps, hstop⟩ := chase_spec (nextRevision l.items.rows x.tenantId) _
    (nextRevision_measure l.items.rows x.tenantId) x
  change ReflTransGen _ x (l.latestDescendant x) at hsteps
  change nextRevision l.items.rows x.tenantId (l.latestDescendant x) = none at hstop
  obtain ⟨hr, hm, ht⟩ := reaches_of_steps hx rfl hsteps
  rw [← ht] at hstop
  exact ⟨hr, (hc.nextRevision_eq_none hm).mp hstop⟩

theorem Chained.latestDescendant_mem (hc : l.Chained) (hx : x ∈ l.items.rows) :
    l.latestDescendant x ∈ l.items.rows :=
  VersionScheme.isHead_mem hx (hc.latestDescendant_isHead hx)

/-- An item is its own last version exactly when nothing replaces it. -/
theorem Chained.latestDescendant_id_iff (hc : l.Chained) (hx : x ∈ l.items.rows) :
    (l.latestDescendant x).id = x.id ↔ l.Unreplaced x := by
  have hh := hc.latestDescendant_isHead hx
  constructor
  · intro h
    have heq := hc.eq_of_id_eq (hc.latestDescendant_mem hx) hx h
    rw [heq] at hh
    exact hh.2
  · intro h
    rw [hc.isHead_unique hh ⟨.refl, h⟩]

/-- The check of a compare-and-swap on a stored item. -/
theorem Chained.isCurrent_iff (hc : l.Chained) (hx : x ∈ l.items.rows) {expected : ℕ} :
    InMemoryMemoryStore.IsCurrent l x expected ↔ l.Unreplaced x ∧ x.revision = expected := by
  rw [InMemoryMemoryStore.IsCurrent, hc.latestDescendant_id_iff hx]

/-- On a well-formed history the recallable heads are the unreplaced items without a
tombstone status. -/
theorem Chained.isRecallableHead_iff (hc : l.Chained) (hx : x ∈ l.items.rows) :
    l.isRecallableHead x.tenantId x.id = true ↔ x.status.isTombstone = false ∧ l.Unreplaced x := by
  rw [Ledger.isRecallableHead_iff]
  constructor
  · rintro ⟨i, hi, hid, -, hs, hn⟩
    obtain rfl : i = x := l.items.eq_of_key_eq hi hx hid
    refine ⟨hs, fun y hy hp => ?_⟩
    exact hn y hy (hc.child ⟨hi, hy, hp⟩).2.tenant.symm hp
  · rintro ⟨hs, hn⟩
    exact ⟨x, hx, rfl, rfl, hs, fun c hc _ => hn c hc⟩

/-- What a ledger admits as its next writes. -/
structure Admits (l : Ledger) (ws : List Write) : Prop where
  /-- Items have new, distinct identifiers. -/
  freshItems : ∀ w ∈ ws, l.items.find w.item.id = none
  distinctItems : (ws.map fun w => w.item.id).Nodup
  /-- So have events. -/
  freshEvents : ∀ w ∈ ws, ∀ e ∈ l.events, e.id ≠ w.event.id
  distinctEvents : (ws.map fun w => w.event.id).Nodup
  /-- Each event announces its item. -/
  announced : ∀ w ∈ ws, w.event.Announces w.item
  /-- A key is scoped by the workspace and was not used before. -/
  keyScope : ∀ w ∈ ws, ∀ k, w.key = some k →
    ∃ raw, some k = scopeIdempotencyKey w.item.workspaceId raw
  unused : ∀ w ∈ ws, ∀ k, w.key = some k → l.idempotency.find (w.item.tenantId, k) = none
  /-- A revision replaces a current item, and no two writes replace the same one. -/
  rooted : ∀ w ∈ ws, ∀ p, w.item.supersedesId = some p →
    ∃ x ∈ l.items.rows, x.id = p ∧ w.item.revision = x.revision + 1 ∧ SameBoundary x w.item ∧
      l.Unreplaced x
  distinctParents : ∀ v ∈ ws, ∀ w ∈ ws, ∀ p, v.item.supersedesId = some p →
    w.item.supersedesId = some p → v = w

theorem admits_nil : l.Admits [] := by
  constructor <;> simp

/-- The rows after admitted writes. -/
theorem Admits.rows_commitAll {ws : List Write} (h : l.Admits ws) :
    (l.commitAll ws).items.rows = l.items.rows ++ ws.map Write.item :=
  Ledger.rows_commitAll h.freshItems h.distinctItems

/-- Admitted writes keep the history well formed. -/
theorem Chained.commitAll {ws : List Write} (hc : l.Chained) (h : l.Admits ws) :
    (l.commitAll ws).Chained := by
  have hrows := h.rows_commitAll
  unfold Chained
  rw [hrows]
  refine VersionScheme.WellFormed.append hc ?_ ?_ ?_
  · have hn := (l.commitAll ws).items.nodup
    rwa [hrows] at hn
  · intro y hy p hp
    obtain ⟨w, hw, rfl⟩ := List.mem_map.mp hy
    exact h.rooted w hw p hp
  · intro y hy z hz p hp hq
    obtain ⟨v, hv, rfl⟩ := List.mem_map.mp hy
    obtain ⟨w, hw, rfl⟩ := List.mem_map.mp hz
    rw [h.distinctParents v hv w hw p hp hq]

/-- Items and the events that announce them, in the same order. -/
def Announced (l : Ledger) : Prop :=
  List.Forall₂ (fun i e => IntegrationEvent.Announces e i) l.items.rows l.events

theorem Announced.commitAll {ws : List Write} (ha : l.Announced) (h : l.Admits ws) :
    (l.commitAll ws).Announced := by
  unfold Announced
  rw [h.rows_commitAll, events_commitAll]
  refine List.rel_append ha ?_
  rw [List.forall₂_map_left_iff, List.forall₂_map_right_iff, List.forall₂_same]
  exact h.announced

/-- Every idempotency entry points to a stored item of its tenant and workspace. -/
def Keyed (l : Ledger) : Prop :=
  ∀ e ∈ l.idempotency.rows, ∃ i ∈ l.items.rows, i.id = e.itemId ∧ i.tenantId = e.tenantId ∧
    ∃ raw, some e.key = scopeIdempotencyKey i.workspaceId raw

theorem Keyed.commitAll {ws : List Write} (hk : l.Keyed) (h : l.Admits ws) :
    (l.commitAll ws).Keyed := by
  intro e he
  rw [h.rows_commitAll]
  rcases mem_idempotency_commitAll he with he | ⟨w, hw, hkey, ht, hid⟩
  · obtain ⟨i, hi, hrest⟩ := hk e he
    exact ⟨i, List.mem_append_left _ hi, hrest⟩
  · exact ⟨w.item, List.mem_append_right _ (List.mem_map_of_mem hw), hid.symm, ht.symm,
      h.keyScope w hw e.key hkey⟩

/-- The invariant of the ledger. -/
structure Consistent (l : Ledger) : Prop where
  chained : l.Chained
  announced : l.Announced
  keyed : l.Keyed

theorem consistent_empty : empty.Consistent :=
  ⟨chained_empty, .nil, by simp [Keyed, empty]⟩

/-- Admitted writes keep the invariant. -/
theorem Consistent.commitAll {ws : List Write} (hl : l.Consistent) (h : l.Admits ws) :
    (l.commitAll ws).Consistent :=
  ⟨hl.chained.commitAll h, hl.announced.commitAll h, hl.keyed.commitAll h⟩

end Ledger

end MemoryPlane
