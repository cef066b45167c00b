import MemoryPlane.Runs.Writes

/-!
# Revision chains in every run

What a client of the store may rely on after any run: revisions form disjoint chains, the
last version of a chain is found from every item of it, and a compare-and-swap is rejected
exactly when the item was replaced or the expected revision is wrong.
-/

namespace MemoryPlane

open Relation

/-- The revision history of a ledger, in the words of its clients. -/
structure RevisionChains (l : Ledger) : Prop where
  /-- An item is replaced at most once. -/
  replacedOnce : ∀ y ∈ l.items.rows, ∀ z ∈ l.items.rows, ∀ p,
    y.supersedesId = some p → z.supersedesId = some p → y = z
  /-- The replaced item exists one revision below, within the same boundary. -/
  parent : ∀ y ∈ l.items.rows, ∀ p, y.supersedesId = some p →
    ∃ x ∈ l.items.rows, x.id = p ∧ y.revision = x.revision + 1 ∧ SameBoundary x y
  /-- No item replaces itself, directly or through others. -/
  acyclic : ∀ x, ¬ TransGen l.Replaces x x
  /-- `_latest_descendant` stays in the chain of its item. -/
  descendant : ∀ x ∈ l.items.rows, l.latestDescendant x ∈ l.items.rows ∧
    ReflTransGen l.Replaces x (l.latestDescendant x)
  /-- It returns the only item of that chain that nothing replaces. -/
  latest : ∀ x ∈ l.items.rows, ∀ y, EqvGen l.Replaces x y →
    (l.Unreplaced y ↔ y = l.latestDescendant x)

theorem Ledger.Chained.revisionChains {l : Ledger} (h : l.Chained) : RevisionChains l where
  replacedOnce y hy z hz p := h.linear y hy z hz p
  parent := h.grounded
  acyclic := h.acyclic
  descendant x hx := ⟨h.latestDescendant_mem hx, (h.latestDescendant_isHead hx).1⟩
  latest x hx y hc := by
    have hh := h.latestDescendant_isHead hx
    constructor
    · exact h.eq_head_of_chain hh hc
    · rintro rfl
      exact hh.2

variable {env : Deployment} {s : InMemoryMemoryStore} {d : Draws}

/-- The reply is a rejected compare-and-swap. -/
def RaisesConflict (r : Except Exn Reply) : Prop :=
  ∃ id expected actual, r = .error (.revisionConflict id expected actual)

/-- A compare-and-swap of a stored item whose replacement was prepared and whose key is unused:
rejected exactly when the item was replaced or the revision is another, appended otherwise. -/
def SupersedeExact (env : Deployment) (s : InMemoryMemoryStore) : Prop :=
  ∀ (command : SupersedeMemoryCommand) (audit : Option AuditEvent) (d : Draws)
    (item replacement : MemoryItem) (event : IntegrationEvent),
    d.Fresh 2 s.usedIds →
    s.get command.tenantId command.itemId = some item →
    RetentionService.prepareReplacement env.privacy command item d = .ok (replacement, event) →
    s.replayed item.tenantId (scopeIdempotencyKey item.workspaceId command.idempotencyKey) = none →
    let out := (Operation.supersede command audit).run env d s
    (RaisesConflict out.1 ↔ (∃ y ∈ s.items.rows, y.supersedesId = some item.id) ∨
      item.revision ≠ command.expectedRevision) ∧
    (¬ RaisesConflict out.1 →
      out.1 = .ok (.retained ⟨replacement, true, [event.id]⟩) ∧
        out.2.items.rows = s.items.rows ++ [replacement])

theorem Ledger.Chained.supersedeExact (hs : s.Chained) : SupersedeExact env s := by
  intro command audit d item replacement event hd hg hp hk out
  obtain ⟨hid, heid, hsup, -, ht, hw, -⟩ := RetentionService.prepareReplacement_eq_ok hp
  obtain ⟨him, hiid, hit⟩ := Ledger.get_eq_some.mp hg
  have hevent : ∀ e ∈ s.events, e.id ≠ event.id := heid ▸ hd.event (by omega)
  have hget : s.get replacement.tenantId item.id = some item := by
    rw [ht]
    exact Ledger.get_self him
  have hkey : s.replayed replacement.tenantId
      (scopeIdempotencyKey replacement.workspaceId command.idempotencyKey) = none := by
    rw [ht, hw]
    exact hk
  have hreplaced : ¬ s.Unreplaced item ↔ ∃ y ∈ s.items.rows, y.supersedesId = some item.id := by
    simp [Ledger.Unreplaced, VersionScheme.Childless, revisionScheme]
  obtain ⟨a, hrun⟩ : ∃ a, out =
      (((s.supersedeIfCurrent replacement event command.expectedRevision command.idempotencyKey
          a).1.map (RetentionService.resultOf event)).map .retained,
        (s.supersedeIfCurrent replacement event command.expectedRevision command.idempotencyKey
          a).2) := by
    simp only [out, Operation.run, Operation.program, MemoryOperation.program, inMemoryStores,
      Proc.run_wrap]
    obtain ⟨a, ha⟩ := RetentionService.run_supersede_of_prepared inMemoryRetention audit hg hp
    exact ⟨a, by rw [ha]; rfl⟩
  rcases InMemoryMemoryStore.supersedeIfCurrent_of_parent event
    command.expectedRevision a hsup hget hkey with ⟨hc, h⟩ | ⟨hc, h⟩
  · rw [h] at hrun
    rw [hs.isCurrent_iff him] at hc
    have hraise : RaisesConflict out.1 := ⟨_, _, _, by rw [hrun]; rfl⟩
    refine ⟨⟨fun _ => ?_, fun _ => hraise⟩, fun hn => absurd hraise hn⟩
    rcases not_and_or.mp hc with hc | hc
    · exact .inl (hreplaced.mp hc)
    · exact .inr hc
  · rw [h] at hrun
    rw [hs.isCurrent_iff him] at hc
    have hok : out.1 = .ok (.retained ⟨replacement, true, [event.id]⟩) := by rw [hrun]; rfl
    refine ⟨⟨?_, ?_⟩, fun _ => ⟨hok, ?_⟩⟩
    · rintro ⟨_, _, _, he⟩
      rw [hok] at he
      cases he
    · rintro (hr | hr)
      · exact absurd hc.1 (hreplaced.mpr hr)
      · exact absurd hc.2 hr
    · have hfresh : s.items.find replacement.id = none := hid ▸ hd.item (by omega)
      rw [hrun]
      change (InMemoryMemoryStore.toLedger
        (InMemoryMemoryStore.appendAuditEvent _ a)).items.rows = _
      rw [InMemoryMemoryStore.appendAuditEvent_toLedger,
        InMemoryMemoryStore.publish_putItem_toLedger hevent]
      exact Table.rows_put_of_fresh hfresh

/-- In every reachable store the revisions form chains and the compare-and-swap is exact. -/
theorem reachable_revision_chains (h : Reachable env s) :
    RevisionChains s.toLedger ∧ SupersedeExact env s :=
  ⟨h.consistent.chained.revisionChains, h.consistent.chained.supersedeExact⟩

/-- A store with one memory. -/
def storeWithMemory : InMemoryMemoryStore :=
  ((Operation.retain (plainRetain "The service listens on port 8080." .workspace none) none).run
    (plainDeployment (UUID.ofNat 0)) (drawsFrom 10) .empty).2

/-- A replacement of a memory that expects a revision. -/
def portMove (item : ℕ) (revision : ℕ) (positive : 1 ≤ revision) : SupersedeMemoryCommand where
  tenantId := UUID.ofNat 1
  itemId := UUID.ofNat item
  replacementText := "The service listens on port 9090."
  expectedRevision := revision
  text_nonempty := by decide
  revision_positive := positive
  confidence_bounds := no_confidence_bounds

theorem second_revision_positive : 1 ≤ 2 := by decide

theorem storeWithMemory_reachable :
    Reachable (plainDeployment (UUID.ofNat 0)) storeWithMemory :=
  .step _ _ .empty (by decide +kernel)

/-- The only memory of that store. -/
def firstMemory : MemoryItem :=
  (storeWithMemory.get (UUID.ofNat 1) (UUID.ofNat 10)).get (by decide +kernel)

/-- The memory after two replacements. -/
def storeWithChain : InMemoryMemoryStore :=
  ((Operation.supersede (portMove 20 2 second_revision_positive) none).run
    (plainDeployment (UUID.ofNat 0)) (drawsFrom 30)
    ((Operation.supersede (portMove 10 1 first_revision_positive) none).run
      (plainDeployment (UUID.ofNat 0)) (drawsFrom 20) storeWithMemory).2).2

theorem storeWithChain_reachable : Reachable (plainDeployment (UUID.ofNat 0)) storeWithChain :=
  .step _ _ (.step _ _ storeWithMemory_reachable (by decide +kernel)) (by decide +kernel)

/-- A replacement of the first memory of the chain is rejected, although it expects its revision. -/
theorem reachable_revision_chains_example :
    storeWithChain.items.rows.length = 3 ∧ RevisionChains storeWithChain.toLedger ∧
      RaisesConflict ((Operation.supersede (portMove 10 1 first_revision_positive) none).run
        (plainDeployment (UUID.ofNat 0)) (drawsFrom 40) storeWithChain).1 := by
  obtain ⟨hchains, hexact⟩ := reachable_revision_chains storeWithChain_reachable
  refine ⟨by decide +kernel, hchains, ?_⟩
  obtain ⟨⟨replacement, event⟩, hp⟩ := Except.exists_of_isOk
    (x := RetentionService.prepareReplacement (plainDeployment (UUID.ofNat 0)).privacy
      (portMove 10 1 first_revision_positive) firstMemory (drawsFrom 40)) (by decide +kernel)
  have hspec := hexact (portMove 10 1 first_revision_positive) none (drawsFrom 40) firstMemory
    replacement event (by decide +kernel) (by decide +kernel) hp (by decide +kernel)
  exact hspec.1.mpr (.inl (by decide +kernel))

end MemoryPlane
