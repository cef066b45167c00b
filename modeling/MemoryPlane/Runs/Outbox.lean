import MemoryPlane.Runs.Chains

/-!
# Ledger and outbox in every run

Every stored item has exactly one announcing event, no announcing event lacks its item, keys
point to stored items, and an operation without a creation leaves items and events alone.
-/

namespace MemoryPlane

variable {env : Deployment} {s : InMemoryMemoryStore}

/-- The events that announce an item. -/
def announcements (l : Ledger) (i : MemoryItem) : List IntegrationEvent :=
  l.events.filter fun e => e.name = memoryRetained ∧ e.correlationId = some i.id

/-- Items and announcing events correspond one to one. -/
structure OutboxExact (l : Ledger) : Prop where
  /-- An item has one event, within its boundary. -/
  event : ∀ i ∈ l.items.rows, ∃ e, announcements l i = [e] ∧ e.tenantId = i.tenantId ∧
    e.workspaceId = i.workspaceId
  /-- An event has its item. -/
  item : ∀ e ∈ l.events, e.name = memoryRetained → ∃ i ∈ l.items.rows,
    e.correlationId = some i.id ∧ e.tenantId = i.tenantId ∧ e.workspaceId = i.workspaceId

/-- Paired lists with distinct item identifiers give each item one event. -/
private theorem filter_announced {rows : List MemoryItem} {events : List IntegrationEvent}
    (h : List.Forall₂ (fun i e => IntegrationEvent.Announces e i) rows events)
    (hn : (rows.map fun i => i.id).Nodup) : ∀ i ∈ rows, ∃ e,
      (events.filter fun e => e.name = memoryRetained ∧ e.correlationId = some i.id) = [e] ∧
        e.Announces i := by
  induction h with
  | nil => simp
  | @cons j e rows events ha hrest ih =>
    rw [List.map_cons, List.nodup_cons] at hn
    intro i hi
    rcases List.mem_cons.mp hi with rfl | hi
    · refine ⟨e, ?_, ha⟩
      rw [List.filter_cons_of_pos (by simp [ha.name, ha.correlation]), List.cons.injEq,
        List.filter_eq_nil_iff]
      refine ⟨rfl, fun f hf hc => ?_⟩
      obtain ⟨k, hk, hfk⟩ := hrest.exists_of_mem_right hf
      simp only [decide_eq_true_eq, hfk.correlation, Option.some.injEq] at hc
      exact hn.1 (List.mem_map.mpr ⟨k, hk, hc.2⟩)
    · have hne : j.id ≠ i.id := fun he => hn.1 (List.mem_map.mpr ⟨i, hi, he.symm⟩)
      rw [List.filter_cons_of_neg (by simp [ha.correlation, hne])]
      exact ih hn.2 i hi

theorem Ledger.Announced.outboxExact {l : Ledger} (h : l.Announced) : OutboxExact l where
  event i hi := by
    obtain ⟨e, he, ha⟩ := filter_announced h l.items.nodup i hi
    exact ⟨e, he, ha.tenant, ha.workspace⟩
  item e he _ := by
    obtain ⟨i, hi, ha⟩ := h.exists_of_mem_right he
    exact ⟨i, hi, ha.correlation, ha.tenant, ha.workspace⟩

/-- The operation raised or reported that it created nothing. -/
def ReportsNothing (r : Except Exn Reply) : Prop :=
  (∃ e, r = .error e) ∨ ∃ reply, r = .ok reply ∧ reply.reportsCreated = false

theorem Committed.eq_of_reportsNothing {t : InMemoryMemoryStore} {r : Except Exn Reply}
    {ws : List Ledger.Write} (h : Committed s r t ws) (hr : ReportsNothing r) :
    t.toLedger = s.toLedger := by
  have hnil : ws = [] := by
    by_contra hne
    obtain ⟨reply, hok, htrue⟩ := h.reported hne
    rcases hr with ⟨e, he⟩ | ⟨reply', hok', hfalse⟩
    · rw [hok] at he
      cases he
    · rw [hok] at hok'
      cases hok'
      rw [htrue] at hfalse
      cases hfalse
  rw [h.ledger, hnil, Ledger.commitAll_nil]

/-- In every reachable store items, events and keys agree, and an operation that creates
nothing changes neither items nor events. -/
theorem reachable_outbox_exact (h : Reachable env s) :
    OutboxExact s.toLedger ∧ s.toLedger.Keyed ∧
      ∀ (op : Operation) (d : Draws), d.Fresh (op.drawCount s) s.usedIds →
        ReportsNothing (op.run env d s).1 →
          (op.run env d s).2.items = s.items ∧ (op.run env d s).2.events = s.events := by
  refine ⟨h.consistent.announced.outboxExact, h.consistent.keyed, fun op d hd hr => ?_⟩
  obtain ⟨ws, hw⟩ := op.run_writes env h.consistent.chained hd
  have hl := hw.eq_of_reportsNothing hr
  rw [hl]
  exact ⟨rfl, rfl⟩

/-- A rejected replacement leaves the memories of the chain and their events alone. -/
theorem reachable_outbox_exact_example :
    storeWithChain.events.length = 3 ∧ OutboxExact storeWithChain.toLedger ∧
      storeWithChain.toLedger.Keyed ∧
      ((Operation.supersede (portMove 10 1 first_revision_positive) none).run
        (plainDeployment (UUID.ofNat 0)) (drawsFrom 40) storeWithChain).2.events =
          storeWithChain.events := by
  obtain ⟨hevents, hkeys, hop⟩ := reachable_outbox_exact storeWithChain_reachable
  refine ⟨by decide +kernel, hevents, hkeys, ?_⟩
  exact (hop (.supersede (portMove 10 1 first_revision_positive) none) (drawsFrom 40)
    (by decide +kernel) (.inl (Except.exists_of_not_isOk (by decide +kernel)))).2

end MemoryPlane
