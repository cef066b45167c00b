import MemoryPlane.Adapters.Tables

/-!
# What the store's calls write

One lemma for each writing call of the in-memory store: it replays an earlier write, raises, or
commits exactly one ledger write, and says which other tables it leaves alone. Later modules
reason from these lemmas and never unfold the calls.
-/

namespace MemoryPlane

namespace InMemoryMemoryStore

open Ledger

variable {s t : InMemoryMemoryStore}

/-- An audit event leaves the memories alone. -/
@[simp] theorem appendAuditEvent_toLedger (a : Option AuditEvent) :
    (s.appendAuditEvent a).toLedger = s.toLedger := by
  cases a <;> rfl

/-- An audit event leaves the proposals alone. -/
@[simp] theorem appendAuditEvent_proposals (a : Option AuditEvent) :
    (s.appendAuditEvent a).proposals = s.proposals := by
  cases a <;> rfl

/-- An audit event leaves the conflict reviews alone. -/
@[simp] theorem appendAuditEvent_conflictReviews (a : Option AuditEvent) :
    (s.appendAuditEvent a).conflictReviews = s.conflictReviews := by
  cases a <;> rfl

/-- A new event is added at the end. -/
theorem publish_of_fresh {e : IntegrationEvent} (h : ∀ x ∈ s.events, x.id ≠ e.id) :
    s.publish e = { s with events := s.events ++ [e] } := if_pos h

/-- Storing an item and publishing its event is one ledger write. -/
theorem publish_putItem_toLedger {item : MemoryItem} {key : Option String} {e : IntegrationEvent}
    (h : ∀ x ∈ s.events, x.id ≠ e.id) :
    ((s.putItem item key).publish e).toLedger = s.toLedger.commit ⟨item, e, key⟩ := by
  rw [publish_of_fresh (s := s.putItem item key) h]
  rfl

/-- Publishing leaves the proposals alone. -/
@[simp] theorem publish_proposals (e : IntegrationEvent) :
    (s.publish e).proposals = s.proposals := by
  unfold publish
  split <;> rfl

/-- Publishing leaves the conflict reviews alone. -/
@[simp] theorem publish_conflictReviews (e : IntegrationEvent) :
    (s.publish e).conflictReviews = s.conflictReviews := by
  unfold publish
  split <;> rfl

/-- An audit event leaves every other table alone. -/
@[simp] theorem appendAuditEvent_tables (a : Option AuditEvent) :
    (s.appendAuditEvent a).tables = s.tables := by
  cases a <;> rfl

/-- Storing an item and publishing its event is one write. -/
theorem publish_putItem_writes (item : MemoryItem) (key : Option String) (e : IntegrationEvent) :
    s.tables.Writes ⟨item, e, key⟩ ((s.putItem item key).publish e).tables := by
  have hitems : ((s.putItem item key).publish e).items = s.items.put item := by
    unfold publish
    split <;> rfl
  have hkeys : ((s.putItem item key).publish e).idempotency =
      (s.toLedger.commit ⟨item, e, key⟩).idempotency := by
    unfold publish
    split <;> rfl
  refine ⟨hitems, hkeys, fun hevent => ?_⟩
  exact congrArg Ledger.events (publish_putItem_toLedger hevent)

/-- A write leaves every other key as it was. -/
theorem replayed_of_writes {item : MemoryItem} {event : IntegrationEvent} {key used : Option String}
    (h : s.tables.Writes ⟨item, event, used⟩ t.tables) (hne : key ≠ used) (tenantId : UUID) :
    t.replayed tenantId key = s.replayed tenantId key := by
  have hkeys : t.idempotency = (s.toLedger.commit ⟨item, event, used⟩).idempotency := h.idempotency
  cases key with
  | none => rfl
  | some k =>
    cases used with
    | none =>
      rw [replayed, replayed, hkeys]
      rfl
    | some k' =>
      rw [replayed, replayed, Option.bind_some, Option.bind_some, hkeys]
      apply Table.find_put_of_ne
      intro heq
      exact hne (congrArg some (congrArg Prod.snd heq))

variable (s) in
/-- `retain` writes its item, unless the key was used before. -/
theorem retain_outcome (item : MemoryItem) (event : IntegrationEvent) (key : Option String)
    (audit : Option AuditEvent) :
    WriteOutcome s.tables ⟨item, event, scopeIdempotencyKey item.workspaceId key⟩
      (s.retain item event key audit).1 (s.retain item event key audit).2.tables := by
  cases hr : s.replayed item.tenantId (scopeIdempotencyKey item.workspaceId key) with
  | some e =>
    cases hf : s.items.find e.itemId with
    | none =>
      have hout : s.retain item event key audit = (.error (.keyError e.itemId.str), s) := by
        simp [retain, append, hr, itemAt, hf, Except.map]
      rw [hout]
      exact .raised _
    | some i =>
      have hout : s.retain item event key audit = (.ok (i, false), s) := by
        simp [retain, append, hr, itemAt, hf, Except.map]
      rw [hout]
      exact .replayed e i hr hf
  | none =>
    have hout : s.retain item event key audit = (.ok (item, true),
        ((s.putItem item (scopeIdempotencyKey item.workspaceId key)).publish
          event).appendAuditEvent audit) := by
      simp [retain, append, hr]
    rw [hout]
    refine .committed _ hr ?_ ?_
    · rw [appendAuditEvent_tables]
      exact publish_putItem_writes ..
    · simp [putItem]

/-- What `supersede_if_current` requires of the parent before it writes. -/
def IsCurrent (l : Ledger) (parent : MemoryItem) (expectedRevision : ℕ) : Prop :=
  (l.latestDescendant parent).id = parent.id ∧ parent.revision = expectedRevision

/-- `supersede_if_current` with an unused key on a stored parent: it raises the conflict
unless the parent is current, and otherwise appends. -/
theorem supersedeIfCurrent_of_parent {item parent : MemoryItem} (event : IntegrationEvent)
    (expectedRevision : ℕ) {key : Option String} (audit : Option AuditEvent) {parentId : UUID}
    (hp : item.supersedesId = some parentId) (hg : s.get item.tenantId parentId = some parent)
    (hk : s.replayed item.tenantId (scopeIdempotencyKey item.workspaceId key) = none) :
    (¬ IsCurrent s.toLedger parent expectedRevision ∧
      s.supersedeIfCurrent item event expectedRevision key audit =
        (.error (.revisionConflict parentId expectedRevision
          (s.latestDescendant parent).revision), s)) ∨
    (IsCurrent s.toLedger parent expectedRevision ∧
      s.supersedeIfCurrent item event expectedRevision key audit =
        (.ok (item, true),
          ((s.putItem item (scopeIdempotencyKey item.workspaceId key)).publish
            event).appendAuditEvent audit)) := by
  unfold supersedeIfCurrent IsCurrent
  simp only [hp, hk, hg]
  by_cases h : (s.latestDescendant parent).id ≠ parent.id ∨ parent.revision ≠ expectedRevision
  · left
    rw [if_pos h]
    refine ⟨fun hc => ?_, rfl⟩
    rcases h with h | h
    · exact h hc.1
    · exact h hc.2
  · right
    rw [if_neg h]
    exact ⟨not_or.mp h |>.imp not_not.mp not_not.mp, rfl⟩

variable (s) in
/-- `supersede_if_current` writes its item only on top of a current parent. -/
theorem supersedeIfCurrent_outcome (item : MemoryItem) (event : IntegrationEvent)
    (expectedRevision : ℕ) (key : Option String) (audit : Option AuditEvent) :
    let w : Write := ⟨item, event, scopeIdempotencyKey item.workspaceId key⟩
    let out := s.supersedeIfCurrent item event expectedRevision key audit
    WriteOutcome s.tables w out.1 out.2.tables ∧
      (∀ i, out.1 = .ok (i, true) → ∃ parentId parent, item.supersedesId = some parentId ∧
        s.get item.tenantId parentId = some parent ∧
          IsCurrent s.toLedger parent expectedRevision) := by
  intro w out
  cases hp : item.supersedesId with
  | none =>
    have hout : out = (.error (.valueError "replacement item must declare supersedes_id"), s) := by
      simp [out, supersedeIfCurrent, hp]
    rw [hout]
    exact ⟨.raised _, fun i hi => by cases hi⟩
  | some parentId =>
    cases hr : s.replayed item.tenantId (scopeIdempotencyKey item.workspaceId key) with
    | some e =>
      have hout : out = ((s.itemAt e.itemId).map fun i => (i, false), s) := by
        simp [out, supersedeIfCurrent, hp, hr]
      rw [hout]
      simp only [itemAt]
      cases hf : s.items.find e.itemId with
      | none => exact ⟨.raised _, fun i hi => by cases hi⟩
      | some i => exact ⟨.replayed e i hr hf, fun i hi => by cases hi⟩
    | none =>
      cases hg : s.get item.tenantId parentId with
      | none =>
        have hout : out = (.error (.keyError "memory item not found"), s) := by
          simp [out, supersedeIfCurrent, hp, hr, hg]
        rw [hout]
        exact ⟨.raised _, fun i hi => by cases hi⟩
      | some parent =>
        rcases supersedeIfCurrent_of_parent event expectedRevision audit hp hg hr with
          ⟨-, h⟩ | ⟨hc, h⟩
        · have hout : out = _ := h
          rw [hout]
          exact ⟨.raised _, fun i hi => by cases hi⟩
        · have hout : out = _ := h
          rw [hout]
          refine ⟨.committed _ hr ?_ ?_, fun i _ => ⟨parentId, parent, rfl, hg, hc⟩⟩
          · rw [appendAuditEvent_tables]
            exact publish_putItem_writes ..
          · simp [putItem]

variable (s) in
/-- `append_proposal` stores its proposal, unless the key was used before. -/
theorem appendProposal_outcome (proposal : MemoryProposal) (key : Option String)
    (audit : Option AuditEvent) :
    SubmitOutcome s.tables proposal (s.appendProposal proposal key audit).1
      (s.appendProposal proposal key audit).2.tables := by
  unfold appendProposal
  simp only
  split
  · split
    · exact .raised _
    · exact .replayed _
  · rw [appendAuditEvent_tables]
    exact .stored

variable (s) in
/-- `save_proposal_review` replaces a stored proposal by the reviewed copy. -/
theorem saveProposalReview_eq (proposal : MemoryProposal) (audit : Option AuditEvent) :
    s.saveProposalReview proposal audit =
      match s.tables.getProposal proposal.tenantId proposal.id with
      | none => (.error (.keyError "memory proposal not found"), s)
      | some _ =>
        (.ok proposal, { s with proposals := s.proposals.put proposal }.appendAuditEvent audit) :=
  rfl

variable (s) in
/-- `accept_proposal_with_memory` replays, returns the accepted item, raises, or appends. -/
theorem acceptProposalWithMemory_outcome (proposal : MemoryProposal) (item : MemoryItem)
    (event : IntegrationEvent) (reviewer reason key : String) (audit : Option AuditEvent)
    (now : DateTime) :
    let out := s.acceptProposalWithMemory proposal item event reviewer reason key audit now
    AcceptOutcome s.tables proposal
      ⟨item, event, scopeIdempotencyKey item.workspaceId (some key)⟩
      (fun current => acceptedCopy current item reviewer reason now) out.1 out.2.tables := by
  intro out
  have hout : out = s.acceptProposalWithMemory proposal item event reviewer reason key audit now :=
    rfl
  unfold acceptProposalWithMemory at hout
  cases hg : s.getProposal proposal.tenantId proposal.id with
  | none =>
    simp only [hg] at hout
    rw [hout]
    exact .raised _
  | some current =>
    by_cases hrej : current.status = .rejected
    · simp only [hg, if_pos hrej] at hout
      rw [hout]
      exact .raised _
    · simp only [hg, if_neg hrej] at hout
      cases hr : s.replayed item.tenantId (scopeIdempotencyKey item.workspaceId (some key)) with
      | some e =>
        simp only [hr, itemAt] at hout
        rw [hout]
        cases hf : s.items.find e.itemId with
        | none => exact .raised _
        | some i => exact .replayed current e i hg hrej hr hf
      | none =>
        simp only [hr] at hout
        by_cases hacc : current.status = .accepted
        · rw [if_pos hacc] at hout
          split at hout
          · rename_i acceptedId hmeta
            split at hout
            · rename_i i hf
              rw [hout]
              have hid : i.id.str = acceptedId := by simpa using List.find?_some hf
              exact .recovered current i hg hr hacc (hid ▸ hmeta) (List.mem_of_find?_eq_some hf)
            · rw [hout]
              exact .raised _
          · rw [hout]
            exact .raised _
        · rw [if_neg hacc] at hout
          rw [hout]
          refine .committed current _ hg hr hrej hacc ?_ ?_
          · have hw := publish_putItem_writes (s := s) item
              (scopeIdempotencyKey item.workspaceId (some key)) event
            rw [appendAuditEvent_tables]
            exact ⟨hw.items, hw.idempotency, hw.events⟩
          · simp [putItem]

/-- Storing resolution writes is committing them without keys. -/
theorem putResolutionWrites_toLedger (writes : List (MemoryItem × IntegrationEvent × ℕ)) :
    (s.putResolutionWrites writes).toLedger =
      s.toLedger.commitAll (writes.map fun w => ⟨w.1, w.2.1, none⟩) := by
  induction writes generalizing s with
  | nil => rfl
  | cons w rest ih =>
    rw [putResolutionWrites, List.foldl_cons, ← putResolutionWrites, ih]
    rfl

/-- The writes of a resolution leave the proposals alone. -/
@[simp] theorem putResolutionWrites_proposals (writes : List (MemoryItem × IntegrationEvent × ℕ)) :
    (s.putResolutionWrites writes).proposals = s.proposals := by
  induction writes generalizing s with
  | nil => rfl
  | cons w rest ih =>
    rw [putResolutionWrites, List.foldl_cons, ← putResolutionWrites, ih]

/-- The writes of a resolution leave the conflict reviews alone. -/
@[simp] theorem putResolutionWrites_conflictReviews
    (writes : List (MemoryItem × IntegrationEvent × ℕ)) :
    (s.putResolutionWrites writes).conflictReviews = s.conflictReviews := by
  induction writes generalizing s with
  | nil => rfl
  | cons w rest ih =>
    rw [putResolutionWrites, List.foldl_cons, ← putResolutionWrites, ih]

/-- What a checked write of a resolution satisfies. -/
structure ResolutionWriteOk (s : InMemoryMemoryStore) (decision : ConflictReviewDecision)
    (item : MemoryItem) (expectedRevision : ℕ) : Prop where
  tenant : item.tenantId = decision.tenantId
  workspace : item.workspaceId = decision.workspaceId
  parent : ∃ parentId parent, item.supersedesId = some parentId ∧
    s.get item.tenantId parentId = some parent ∧ IsCurrent s.toLedger parent expectedRevision

/-- The check of one write passes exactly for a new revision of the expected head. -/
theorem checkResolutionWrite_eq_ok {decision : ConflictReviewDecision} {item : MemoryItem}
    {expectedRevision : ℕ} :
    s.checkResolutionWrite decision (item, expectedRevision) = .ok () ↔
      ResolutionWriteOk s decision item expectedRevision := by
  unfold checkResolutionWrite
  simp only
  by_cases hscope : item.tenantId ≠ decision.tenantId ∨ item.workspaceId ≠ decision.workspaceId
  · rw [if_pos hscope]
    refine ⟨fun h => (by cases h), fun h => ?_⟩
    rcases hscope with hs | hs
    · exact absurd h.tenant hs
    · exact absurd h.workspace hs
  · rw [if_neg hscope]
    obtain ⟨ht, hw⟩ := not_or.mp hscope |>.imp not_not.mp not_not.mp
    cases hp : item.supersedesId with
    | none =>
      refine ⟨fun h => (by cases h), fun h => ?_⟩
      obtain ⟨p, x, hp', -⟩ := h.parent
      rw [hp] at hp'
      cases hp'
    | some parentId =>
      cases hg : s.get item.tenantId parentId with
      | none =>
        simp only [hg]
        refine ⟨fun h => (by cases h), fun h => ?_⟩
        obtain ⟨p, x, hp', hg', _⟩ := h.parent
        rw [hp] at hp'
        cases hp'
        rw [hg] at hg'
        cases hg'
      | some parent =>
        simp only [hg]
        by_cases hc : (s.latestDescendant parent).id ≠ parent.id ∨
            parent.revision ≠ expectedRevision
        · rw [if_pos hc]
          refine ⟨fun h => (by cases h), fun h => ?_⟩
          obtain ⟨p, x, hp', hg', hcur⟩ := h.parent
          rw [hp] at hp'
          cases hp'
          rw [hg] at hg'
          cases hg'
          rcases hc with hc | hc
          · exact absurd hcur.1 hc
          · exact absurd hcur.2 hc
        · rw [if_neg hc]
          have hcur := not_or.mp hc |>.imp not_not.mp not_not.mp
          exact ⟨fun _ => ⟨ht, hw, parentId, parent, hp, hg, hcur⟩, fun _ => rfl⟩

/-- The checks pass exactly when each write passes its own. -/
theorem checkResolutionWrites_eq_ok {decision : ConflictReviewDecision}
    {writes : List (MemoryItem × IntegrationEvent × ℕ)} :
    s.checkResolutionWrites decision writes = .ok () ↔
      ∀ w ∈ writes, ResolutionWriteOk s decision w.1 w.2.2 := by
  induction writes with
  | nil => simp [checkResolutionWrites]
  | cons w rest ih =>
    obtain ⟨item, event, expectedRevision⟩ := w
    rw [List.forall_mem_cons, ← ih, ← checkResolutionWrite_eq_ok]
    simp only [checkResolutionWrites]
    cases h : s.checkResolutionWrite decision (item, expectedRevision) with
    | error e => simp
    | ok u => simp

/-- The outcome of applying a resolution. -/
inductive ResolutionOutcome (s : InMemoryMemoryStore) (decision : ConflictReviewDecision)
    (writes : List (MemoryItem × IntegrationEvent × ℕ)) :
    Except Exn ConflictReviewDecision → InMemoryMemoryStore → Prop
  /-- The same decision was applied before. -/
  | replayed (existing : ConflictReviewDecision)
      (found : s.conflictReviews.find (decision.tenantId, decision.caseId) = some existing)
      (applied : existing.appliedMemoryId ≠ none) :
      ResolutionOutcome s decision writes (.ok existing) s
  /-- The call raised before it wrote. -/
  | raised (e : Exn) : ResolutionOutcome s decision writes (.error e) s
  /-- All writes passed their checks and were appended with the decision. -/
  | committed (t : InMemoryMemoryStore)
      (pending : ∀ existing, s.conflictReviews.find (decision.tenantId, decision.caseId) =
        some existing → existing.appliedMemoryId = none)
      (checked : ∀ w ∈ writes, ResolutionWriteOk s decision w.1 w.2.2)
      (ledger : t.toLedger = s.toLedger.commitAll (writes.map fun w => ⟨w.1, w.2.1, none⟩))
      (proposals : t.proposals = s.proposals)
      (reviews : t.conflictReviews = s.conflictReviews.put decision) :
      ResolutionOutcome s decision writes (.ok decision) t

/-- Validating first means that a refused resolution wrote nothing. -/
theorem validateThenApply_outcome {decision : ConflictReviewDecision}
    {writes : List (MemoryItem × IntegrationEvent × ℕ)} {audit : Option AuditEvent}
    (pending : ∀ existing, s.conflictReviews.find (decision.tenantId, decision.caseId) =
      some existing → existing.appliedMemoryId = none) :
    ResolutionOutcome s decision writes (s.validateThenApply decision writes audit).1
      (s.validateThenApply decision writes audit).2 := by
  unfold validateThenApply
  cases hc : s.checkResolutionWrites decision writes with
  | error e => exact .raised e
  | ok u =>
    refine .committed _ pending (checkResolutionWrites_eq_ok.mp hc) ?_ ?_ ?_
    · simp [putResolutionWrites_toLedger]
    · simp
    · simp

/-- `apply_conflict_resolution` replays, raises, or appends all its checked writes. -/
theorem applyConflictResolution_outcome {decision : ConflictReviewDecision}
    {writes : List (MemoryItem × IntegrationEvent × ℕ)} {audit : Option AuditEvent} :
    ResolutionOutcome s decision writes (s.applyConflictResolution decision writes audit).1
      (s.applyConflictResolution decision writes audit).2 := by
  unfold applyConflictResolution
  cases hf : s.conflictReviews.find (decision.tenantId, decision.caseId) with
  | none => exact validateThenApply_outcome fun _ h => by rw [hf] at h; cases h
  | some existing =>
    by_cases ha : existing.appliedMemoryId = none
    · simp only [if_pos ha]
      refine validateThenApply_outcome fun e h => ?_
      rw [hf] at h
      cases h
      exact ha
    · simp only [if_neg ha]
      split
      · exact .replayed existing hf ha
      · exact .raised _

end InMemoryMemoryStore

end MemoryPlane
