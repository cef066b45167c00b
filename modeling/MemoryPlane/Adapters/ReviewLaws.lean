import MemoryPlane.Adapters.PostgresWrites
import MemoryPlane.Adapters.Writes

/-!
# Both adapters keep the review laws

The in-memory store finds the memory of an accepted proposal by the name that the proposal
keeps; the PostgreSQL ledger finds it by its key only.
-/

namespace MemoryPlane

open InMemoryMemoryStore in
/-- The in-memory store keeps the laws, and recovers. -/
theorem inMemory_reviewLaws :
    ReviewLaws inMemoryStores InMemoryMemoryStore.tables (fun _ _ => True) true where
  getProposal _ _ _ := rfl
  retain s item event key audit := retain_outcome s item event key audit
  supersede s item event expected key audit :=
    (supersedeIfCurrent_outcome s item event expected key audit).1
  submit s proposal key audit := appendProposal_outcome s proposal key audit
  save s proposal audit := by
    simp only [inMemoryStores, inMemoryProposals, saveProposalReview_eq]
    cases hg : s.tables.getProposal proposal.tenantId proposal.id with
    | none => exact .raised _
    | some current =>
      simp only
      rw [appendAuditEvent_tables]
      exact .saved current proposal hg rfl rfl rfl
  saves s proposal audit := by
    simp only [inMemoryStores, inMemoryProposals, saveProposalReview_eq]
    cases s.tables.getProposal proposal.tenantId proposal.id with
    | none => simp [Except.isOk, Except.toBool]
    | some current => simp [Except.isOk, Except.toBool]
  accept s proposal item event reviewer reason key audit now :=
    acceptProposalWithMemory_outcome s proposal item event reviewer reason key audit now
  replays s proposal item event reviewer reason key audit now current e i _ hg hrej hk hi _ := by
    have hg' : s.getProposal proposal.tenantId proposal.id = some current := hg
    have hk' : s.replayed item.tenantId (scopeIdempotencyKey item.workspaceId (some key)) =
      some e := hk
    have hi' : s.items.find e.itemId = some i := hi
    simp only [inMemoryStores, inMemoryProposals, acceptProposalWithMemory, hg', hk', if_neg hrej,
      itemAt, hi']
    rfl
  recovery s proposal item event reviewer reason key audit now current i _ hg hacc hn hk hi := by
    have hg' : s.getProposal proposal.tenantId proposal.id = some current := hg
    have hk' : s.replayed item.tenantId (scopeIdempotencyKey item.workspaceId (some key)) =
      none := hk
    have hrej : current.status ≠ .rejected := by simp [hacc]
    have hfind : (s.items.rows.find? fun j => j.id.str = i.id.str) = some i := by
      have hkey := Table.find_key (t := s.items) hi
      simpa [Table.find, UUID.str_injective.eq_iff] using hkey
    simp only [inMemoryStores, inMemoryProposals, acceptProposalWithMemory, hg', hk', if_neg hrej,
      if_pos hacc, hn, hfind, if_true]

open PostgresMemoryLedger in
/-- The PostgreSQL ledger keeps the laws, and does not recover. -/
theorem postgres_reviewLaws :
    ReviewLaws postgresStores PostgresMemoryLedger.tables AdmitsAudit false where
  getProposal _ _ _ := rfl
  retain s item event key audit := retain_outcome s item event key audit
  supersede s item event expected key audit :=
    supersedeIfCurrent_outcome s item event expected key audit
  submit s proposal key audit := appendProposal_outcome s proposal key audit
  save s proposal audit := (saveProposalReview_outcome s proposal audit).1
  saves s proposal audit := (saveProposalReview_outcome s proposal audit).2
  accept s proposal item event reviewer reason key audit now :=
    acceptProposalWithMemory_outcome s proposal item event reviewer reason key audit now
  replays s proposal item event reviewer reason key audit now current e i ha hg hrej hk hi ht := by
    have hg' : s.getProposal proposal.tenantId proposal.id = some current := hg
    have hk' := byIdempotencyKey_eq_some.mpr ⟨e, hk, hi, ht⟩
    simp only [postgresStores, acceptProposalWithMemory, validateEvent_of_announces ha,
      Except.ok_bind, hg', hk', if_neg hrej]
    rfl
  recovery s proposal item event reviewer reason key audit now current i ha hg hacc hn hk hi := by
    have hg' : s.getProposal proposal.tenantId proposal.id = some current := hg
    have hrej : current.status ≠ .rejected := by simp [hacc]
    have hk' : s.byIdempotencyKey item.tenantId
        (scopeIdempotencyKey item.workspaceId (some key)) = none := by
      cases hb : s.byIdempotencyKey item.tenantId
          (scopeIdempotencyKey item.workspaceId (some key)) with
      | none => rfl
      | some j =>
        obtain ⟨e, he, -⟩ := byIdempotencyKey_eq_some.mp hb
        rw [hk] at he
        cases he
    simp only [postgresStores, acceptProposalWithMemory, validateEvent_of_announces ha,
      Except.ok_bind, hg', hk', if_neg hrej, if_pos hacc]
    rfl

end MemoryPlane
