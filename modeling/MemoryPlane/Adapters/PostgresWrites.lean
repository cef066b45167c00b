import MemoryPlane.Adapters.Postgres

/-!
# What the PostgreSQL ledger's calls write

The outcomes of the adapter's calls on its tables. A transaction either commits exactly one
write or leaves the tables alone.
-/

namespace MemoryPlane

namespace PostgresMemoryLedger

open Ledger

variable {s t u : PostgresMemoryLedger}

/-- The tables of the PostgreSQL ledger. -/
def tables (s : PostgresMemoryLedger) : ReviewTables := ⟨s.toLedger, s.proposals⟩

@[simp] theorem tables_items : s.tables.items = s.items := rfl

@[simp] theorem tables_proposals : s.tables.proposals = s.proposals := rfl

@[simp] theorem transact_error {α : Type} (e : Exn) :
    s.transact (.error e : Except Exn (α × PostgresMemoryLedger)) = (.error e, s) := rfl

@[simp] theorem transact_ok {α : Type} (a : α) : s.transact (.ok (a, t)) = (.ok a, t) := rfl

/-- An event that announces its item passes the validation. -/
theorem validateEvent_of_announces {item : MemoryItem} {event : IntegrationEvent}
    (h : event.Announces item) : validateEvent item event = .ok () := by
  simp [validateEvent, h.tenant, h.workspace, h.correlation]

/-- Inserting an audit event touches no other table. -/
theorem insertAuditEvent_tables {audit : Option AuditEvent}
    (h : s.insertAuditEvent audit = .ok t) : t.tables = s.tables := by
  unfold insertAuditEvent at h
  split at h
  · cases h
    rfl
  · split at h
    · cases h
    split at h
    · cases h
    · cases h
      rfl

theorem insertItem_eq_ok {item : MemoryItem} {e : Exn} (h : s.insertItem item e = .ok t) :
    t = { s with items := s.items.put item } := by
  unfold insertItem at h
  split at h
  · cases h
  split at h
  · cases h
  · cases h
    rfl

theorem insertEvent_eq_ok {event : IntegrationEvent} (h : s.insertEvent event = .ok t) :
    t = { s with events := s.events ++ [event] } := by
  unfold insertEvent at h
  split at h
  · cases h
  · cases h
    rfl

/-- A key is inserted only when it was unused. -/
theorem insertKey_eq_ok {item : MemoryItem} {key : Option String} (event : IntegrationEvent)
    (h : s.insertKey item key = .ok t) :
    t = { s with idempotency := (s.toLedger.commit ⟨item, event, key⟩).idempotency } ∧
      s.tables.keyEntry item.tenantId key = none := by
  cases key with
  | none =>
    cases h
    exact ⟨rfl, rfl⟩
  | some k =>
    simp only [insertKey] at h
    split at h
    · cases h
    · rename_i hkey
      cases h
      refine ⟨rfl, ?_⟩
      simpa [ReviewTables.keyEntry, tables] using hkey

/-- The inserts of one memory are one write, under an unused key. -/
theorem insertMemory_eq_ok {item : MemoryItem} {event : IntegrationEvent} {key : Option String}
    {e : Exn} (h : s.insertMemory item event key e = .ok t) :
    s.tables.Writes ⟨item, event, key⟩ t.tables ∧ t.proposals = s.proposals ∧
      s.tables.keyEntry item.tenantId key = none := by
  obtain ⟨a, ha, h⟩ := Except.bind_eq_ok.mp h
  obtain ⟨b, hb, h⟩ := Except.bind_eq_ok.mp h
  obtain rfl := insertItem_eq_ok ha
  obtain ⟨rfl, hkey⟩ := insertKey_eq_ok event hb
  obtain rfl := insertEvent_eq_ok h
  exact ⟨⟨rfl, rfl, fun _ => rfl⟩, rfl, hkey⟩

/-- A key that resolves to an item has an entry that names it. -/
theorem byIdempotencyKey_eq_some {tenantId : UUID} {key : Option String} {i : MemoryItem} :
    s.byIdempotencyKey tenantId key = some i ↔
      ∃ e, s.tables.keyEntry tenantId key = some e ∧ s.items.find e.itemId = some i ∧
        i.tenantId = tenantId := by
  unfold byIdempotencyKey
  rw [Option.bind_eq_some_iff]
  constructor
  · rintro ⟨e, he, hg⟩
    obtain ⟨hi, hid, ht⟩ := Ledger.get_eq_some.mp hg
    exact ⟨e, he, Table.find_eq_some.mpr ⟨hi, hid⟩, ht⟩
  · rintro ⟨e, he, hf, ht⟩
    obtain ⟨hi, hid⟩ := Table.find_eq_some.mp hf
    exact ⟨e, he, Ledger.get_eq_some.mpr ⟨hi, hid, ht⟩⟩

variable (s) in
/-- The inserts of one memory and its audit event, as one transaction. -/
theorem insertMemory_outcome (item : MemoryItem) (event : IntegrationEvent) (key : Option String)
    (e : Exn) (audit : Option AuditEvent) :
    let out := s.transact do
      let t ← s.insertMemory item event key e
      let t ← t.insertAuditEvent audit
      return ((item, true), t)
    WriteOutcome s.tables ⟨item, event, key⟩ out.1 out.2.tables := by
  intro out
  cases hm : s.insertMemory item event key e with
  | error x =>
    have hout : out = (.error x, s) := by
      simp only [out, hm]
      rfl
    rw [hout]
    exact .raised x
  | ok t =>
    obtain ⟨hw, hp, hk⟩ := insertMemory_eq_ok hm
    cases ha : t.insertAuditEvent audit with
    | error x =>
      have hout : out = (.error x, s) := by
        simp only [out, hm, Except.ok_bind, ha]
        rfl
      rw [hout]
      exact .raised x
    | ok u =>
      have hout : out = (.ok (item, true), u) := by
        simp only [out, hm, Except.ok_bind, ha]
        rfl
      rw [hout, insertAuditEvent_tables ha]
      exact .committed _ hk hw hp

variable (s) in
/-- `retain` writes its item, unless the key was used before. -/
theorem retain_outcome (item : MemoryItem) (event : IntegrationEvent) (key : Option String)
    (audit : Option AuditEvent) :
    WriteOutcome s.tables ⟨item, event, scopeIdempotencyKey item.workspaceId key⟩
      (s.retain item event key audit).1 (s.retain item event key audit).2.tables := by
  unfold retain
  cases hv : validateEvent item event with
  | error e => exact .raised e
  | ok u =>
    cases hk : s.byIdempotencyKey item.tenantId (scopeIdempotencyKey item.workspaceId key) with
    | some i =>
      obtain ⟨e, he, hf, -⟩ := byIdempotencyKey_eq_some.mp hk
      simp only [hk]
      exact .replayed e i he hf
    | none =>
      simp only [hk, Except.ok_bind]
      exact s.insertMemory_outcome item event _ _ audit

variable (s) in
/-- `supersede_if_current` writes its item, unless the key was used before. -/
theorem supersedeIfCurrent_outcome (item : MemoryItem) (event : IntegrationEvent)
    (expectedRevision : ℕ) (key : Option String) (audit : Option AuditEvent) :
    let out := s.supersedeIfCurrent item event expectedRevision key audit
    WriteOutcome s.tables ⟨item, event, scopeIdempotencyKey item.workspaceId key⟩ out.1
      out.2.tables := by
  intro out
  simp only [out, supersedeIfCurrent]
  cases hp : item.supersedesId with
  | none => exact .raised _
  | some parentId =>
    cases hv : validateEvent item event with
    | error e => exact .raised e
    | ok u =>
      cases hk : s.byIdempotencyKey item.tenantId (scopeIdempotencyKey item.workspaceId key) with
      | some i =>
        obtain ⟨e, he, hf, -⟩ := byIdempotencyKey_eq_some.mp hk
        simp only [Except.ok_bind]
        exact .replayed e i he hf
      | none =>
        cases hg : s.get item.tenantId parentId with
        | none =>
          simp only [Except.ok_bind, hg]
          exact .raised _
        | some parent =>
          simp only [Except.ok_bind, hg]
          split
          · exact .raised _
          · exact s.insertMemory_outcome item event _ _ audit

variable (s) in
/-- `append_proposal` stores its proposal, unless the key was used before. -/
theorem appendProposal_outcome (proposal : MemoryProposal) (key : Option String)
    (audit : Option AuditEvent) :
    let out := s.appendProposal proposal key audit
    SubmitOutcome s.tables proposal out.1 out.2.tables := by
  intro out
  simp only [out, appendProposal]
  split
  · exact .replayed _
  · split
    · exact .raised _
    split
    · exact .raised _
    · cases ha : PostgresMemoryLedger.insertAuditEvent _ audit with
      | error e => exact .raised e
      | ok t =>
        simp only [Except.ok_bind]
        change SubmitOutcome s.tables proposal (.ok (proposal, true)) t.tables
        rw [insertAuditEvent_tables ha]
        exact .stored

/-- The audit event, if one is given, can be inserted. -/
def AdmitsAudit (s : PostgresMemoryLedger) (audit : Option AuditEvent) : Prop :=
  (s.insertAuditEvent audit).isOk = true

/-- Whether an audit event can be inserted does not depend on the proposals. -/
theorem insertAuditEvent_isOk_congr {audit : Option AuditEvent}
    (ha : t.auditEvents = s.auditEvents) (hp : t.provisionedAudit = s.provisionedAudit) :
    (t.insertAuditEvent audit).isOk = (s.insertAuditEvent audit).isOk := by
  unfold insertAuditEvent
  cases audit with
  | none => rfl
  | some a =>
    simp only [ha, hp]
    split
    · rfl
    split <;> rfl

variable (s) in
/-- `save_proposal_review` updates the review fields of a stored proposal, or changes no table. -/
theorem saveProposalReview_outcome (proposal : MemoryProposal) (audit : Option AuditEvent) :
    let out := s.saveProposalReview proposal audit
    SaveOutcome s.tables proposal out.1 out.2.tables ∧
      (out.1.isOk = true ↔
        (s.tables.getProposal proposal.tenantId proposal.id).isSome ∧ s.AdmitsAudit audit) := by
  intro out
  simp only [out, saveProposalReview]
  have hview : s.tables.getProposal proposal.tenantId proposal.id =
    s.getProposal proposal.tenantId proposal.id := rfl
  cases hg : s.getProposal proposal.tenantId proposal.id with
  | none =>
    have hno : ¬ (s.tables.getProposal proposal.tenantId proposal.id).isSome := by
      rw [hview, hg]
      simp
    cases ha : s.insertAuditEvent audit with
    | error e => exact ⟨.raised e, fun h => (by cases h), fun h => absurd h.1 hno⟩
    | ok t =>
      simp only
      rw [insertAuditEvent_tables ha]
      exact ⟨.raised _, fun h => (by cases h), fun h => absurd h.1 hno⟩
  | some current =>
    have hsome : (s.tables.getProposal proposal.tenantId proposal.id).isSome := by
      rw [hview, hg]
      rfl
    have hcongr : ((s.updateProposal (reviewUpdate current proposal)).insertAuditEvent audit).isOk =
        (s.insertAuditEvent audit).isOk := insertAuditEvent_isOk_congr rfl rfl
    obtain ⟨hm, hid, ht⟩ := ReviewTables.getProposal_eq_some.mp (hview.trans hg)
    simp only
    cases ha : (s.updateProposal (reviewUpdate current proposal)).insertAuditEvent audit with
    | error e =>
      rw [ha] at hcongr
      refine ⟨.raised e, fun h => (by cases h), fun h => ?_⟩
      exact absurd (hcongr.trans h.2) (by simp [Except.isOk, Except.toBool])
    | ok t =>
      rw [ha] at hcongr
      change SaveOutcome s.tables proposal (.ok proposal) t.tables ∧ _
      refine ⟨?_, fun _ => ⟨hsome, hcongr.symm⟩, fun _ => rfl⟩
      rw [insertAuditEvent_tables ha]
      exact .saved current (reviewUpdate current proposal) (hview.trans hg) hid ht rfl

variable (s) in
/-- `accept_proposal_with_memory` replays, raises, or appends; it never recovers. -/
theorem acceptProposalWithMemory_outcome (proposal : MemoryProposal) (item : MemoryItem)
    (event : IntegrationEvent) (reviewer reason key : String) (audit : Option AuditEvent)
    (now : DateTime) :
    let out := s.acceptProposalWithMemory proposal item event reviewer reason key audit now
    AcceptOutcome s.tables proposal
      ⟨item, event, scopeIdempotencyKey item.workspaceId (some key)⟩
      (fun current => InMemoryMemoryStore.acceptedCopy current item reviewer reason now)
      out.1 out.2.tables := by
  intro out
  simp only [out, acceptProposalWithMemory]
  cases hv : validateEvent item event with
  | error e => exact .raised e
  | ok u =>
    simp only [Except.ok_bind]
    cases hg : s.getProposal proposal.tenantId proposal.id with
    | none => exact .raised _
    | some current =>
      simp only
      by_cases hrej : current.status = .rejected
      · rw [if_pos hrej]
        exact .raised _
      · rw [if_neg hrej]
        cases hk : s.byIdempotencyKey item.tenantId
            (scopeIdempotencyKey item.workspaceId (some key)) with
        | some i =>
          obtain ⟨e, he, hf, -⟩ := byIdempotencyKey_eq_some.mp hk
          exact .replayed current e i hg hrej he hf
        | none =>
          simp only
          by_cases hacc : current.status = .accepted
          · rw [if_pos hacc]
            exact .raised _
          · rw [if_neg hacc]
            cases hm : s.insertMemory item event
                (scopeIdempotencyKey item.workspaceId (some key))
                (.valueError "tenant or workspace is not provisioned") with
            | error x => exact .raised x
            | ok t =>
              obtain ⟨hw, hp, hfree⟩ := insertMemory_eq_ok hm
              simp only [Except.ok_bind]
              cases ha : PostgresMemoryLedger.insertAuditEvent _ audit with
              | error x => exact .raised x
              | ok v =>
                simp only [Except.ok_bind]
                change AcceptOutcome _ _ _ _ (.ok (_, item, true)) v.tables
                rw [insertAuditEvent_tables ha]
                refine .committed current _ hg hfree hrej hacc
                  ⟨hw.items, hw.idempotency, hw.events⟩ ?_
                change t.proposals.put _ = _
                rw [hp]
                rfl

end PostgresMemoryLedger

end MemoryPlane
