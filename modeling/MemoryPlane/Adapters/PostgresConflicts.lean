import MemoryPlane.Adapters.PostgresWrites
import MemoryPlane.Services.ConflictStores
import MemoryPlane.Services.ConflictWrites

/-!
# Conflict reviews of the PostgreSQL ledger

The reviews of the PostgreSQL adapter, one committed transaction for each call. A plain review
replaces the row of its case; a resolution locks the row and looks at it first.
-/

namespace MemoryPlane

/-- The ledger with the table of conflict reviews. -/
structure PostgresConflictLedger extends PostgresMemoryLedger where
  conflictReviews : Table ConflictReviewDecision fun r => (r.tenantId, r.caseId)
  /-- The tenant and workspace of a review exist. -/
  provisionedReview : ConflictReviewDecision → Bool

namespace PostgresConflictLedger

open PostgresMemoryLedger

variable (s : PostgresConflictLedger)

/-- Commit what a transaction computed, or roll back. -/
def transact {α : Type} (r : Except Exn (α × PostgresConflictLedger)) :
    Except Exn α × PostgresConflictLedger :=
  match r with
  | .ok (a, t) => (.ok a, t)
  | .error e => (.error e, s)

/-- The ledger part of a transaction. -/
def onLedger (r : Except Exn PostgresMemoryLedger) : Except Exn PostgresConflictLedger :=
  r.map fun t => { s with toPostgresMemoryLedger := t }

/-- `_upsert_conflict_review`. -/
def upsertConflictReview (decision : ConflictReviewDecision) :
    Except Exn PostgresConflictLedger :=
  if s.provisionedReview decision = true ∧
      decision.appliedMemoryId.all fun id => (s.items.find id).isSome then
    .ok { s with conflictReviews := s.conflictReviews.put decision }
  else .error (.databaseError "foreign key")

/-- Create or replace a persisted human decision for one conflict case. -/
def saveConflictReview (decision : ConflictReviewDecision) (audit : Option AuditEvent) :
    Except Exn ConflictReviewDecision × PostgresConflictLedger :=
  s.transact <| do
    let t ← s.upsertConflictReview decision
    let t ← t.onLedger (t.toPostgresMemoryLedger.insertAuditEvent audit)
    return (decision, t)

/-- `_append_conflict_resolution_write`. -/
def appendConflictResolutionWrite (item : MemoryItem) (event : IntegrationEvent)
    (expectedRevision : ℕ) : Except Exn PostgresConflictLedger :=
  match item.supersedesId with
  | none => .error (.valueError "conflict resolution replacement must declare supersedes_id")
  | some parentId => do
    validateEvent item event
    match s.get item.tenantId parentId with
    | none => .error (.keyError "conflict evidence memory not found")
    | some parent =>
      let head := s.chainHead item.tenantId parent
      let actual := (head.getD parent).revision
      if head.any fun h => h.id ≠ parentId ∨ parent.revision ≠ expectedRevision then
        .error (.revisionConflict parentId expectedRevision actual)
      else
        s.onLedger (s.toPostgresMemoryLedger.insertMemory item event none
          (.databaseError "foreign key"))

/-- The writes of a resolution, in order. -/
def appendConflictResolutionWrites (decision : ConflictReviewDecision) :
    List (MemoryItem × IntegrationEvent × ℕ) → PostgresConflictLedger →
      Except Exn PostgresConflictLedger
  | [], s => .ok s
  | (item, event, expectedRevision) :: rest, s =>
    if item.tenantId ≠ decision.tenantId ∨ item.workspaceId ≠ decision.workspaceId then
      .error (.valueError "conflict resolution write crosses decision scope")
    else do
      let t ← s.appendConflictResolutionWrite item event expectedRevision
      appendConflictResolutionWrites decision rest t

/-- Atomically apply all revisions, outbox events and the review. -/
def applyConflictResolution (decision : ConflictReviewDecision)
    (writes : List (MemoryItem × IntegrationEvent × ℕ)) (audit : Option AuditEvent) :
    Except Exn ConflictReviewDecision × PostgresConflictLedger :=
  let existing := (s.conflictReviews.find (decision.tenantId, decision.caseId)).filter fun r =>
    r.appliedMemoryId ≠ none
  match existing with
  | some r =>
    if r.status = decision.status ∧ r.winnerValue = decision.winnerValue then
      (.ok { decision with appliedMemoryId := r.appliedMemoryId }, s)
    else (.error (.valueError "conflict resolution is already applied and immutable"), s)
  | none =>
    s.transact <| do
      let t ← appendConflictResolutionWrites decision writes s
      let t ← t.upsertConflictReview decision
      let t ← t.onLedger (t.toPostgresMemoryLedger.insertAuditEvent audit)
      return (decision, t)

/-- List the decisions of a workspace, oldest first. -/
def listConflictReviews (tenantId workspaceId : UUID) : List ConflictReviewDecision :=
  sortedBy (fun r : ConflictReviewDecision => toLex (r.updatedAt, r.caseId)) <|
    s.conflictReviews.rows.filter fun r => r.tenantId = tenantId ∧ r.workspaceId = workspaceId

end PostgresConflictLedger

/-- The ports of the PostgreSQL ledger. -/
def postgresConflicts : ConflictReviewRepository PostgresConflictLedger where
  ledger s := s.toLedger
  save decision audit s := s.saveConflictReview decision audit
  applyResolution decision writes audit s := s.applyConflictResolution decision writes audit
  listForWorkspace s := s.listConflictReviews

namespace PostgresConflictLedger

open PostgresMemoryLedger

variable {s t : PostgresConflictLedger} {decision : ConflictReviewDecision}
  {audit : Option AuditEvent} {writes : List (MemoryItem × IntegrationEvent × ℕ)}

/-- The row of a review and its audit event can be inserted. -/
def AdmitsReview (s : PostgresConflictLedger) (decision : ConflictReviewDecision)
    (audit : Option AuditEvent) : Prop :=
  s.provisionedReview decision = true ∧
    (decision.appliedMemoryId.all fun id => (s.items.find id).isSome) = true ∧
      s.toPostgresMemoryLedger.AdmitsAudit audit

theorem onLedger_conflictReviews {r : Except Exn PostgresMemoryLedger}
    (h : s.onLedger r = .ok t) : t.conflictReviews = s.conflictReviews := by
  unfold onLedger at h
  cases r with
  | error e => cases h
  | ok u =>
    cases h
    rfl

theorem appendConflictResolutionWrites_conflictReviews :
    ∀ {writes : List (MemoryItem × IntegrationEvent × ℕ)} {s : PostgresConflictLedger},
      appendConflictResolutionWrites decision writes s = .ok t →
        t.conflictReviews = s.conflictReviews
  | [], s, h => by
    cases h
    rfl
  | (item, event, expected) :: rest, s, h => by
    unfold appendConflictResolutionWrites at h
    split at h
    · cases h
    obtain ⟨u, hu, h⟩ := Except.bind_eq_ok.mp h
    rw [appendConflictResolutionWrites_conflictReviews h]
    unfold appendConflictResolutionWrite at hu
    split at hu
    · cases hu
    obtain ⟨-, -, hu⟩ := Except.bind_eq_ok.mp hu
    split at hu
    · cases hu
    simp only at hu
    split at hu
    · cases hu
    · exact onLedger_conflictReviews hu

theorem upsertConflictReview_eq_ok (h : s.upsertConflictReview decision = .ok t) :
    t = { s with conflictReviews := s.conflictReviews.put decision } := by
  unfold upsertConflictReview at h
  split at h
  · cases h
    rfl
  · cases h

end PostgresConflictLedger

open PostgresConflictLedger in
/-- The PostgreSQL ledger keeps the laws. -/
theorem postgres_conflictReviewLaws :
    ConflictReviewLaws postgresConflicts PostgresConflictLedger.conflictReviews AdmitsReview where
  saves s decision audit h := by
    obtain ⟨hp, hm, ha⟩ := h
    obtain ⟨u, hu⟩ := Except.exists_of_isOk ha
    simp only [postgresConflicts, saveConflictReview, upsertConflictReview,
      if_pos (And.intro hp hm),
      Except.ok_bind, hu]
    rfl
  refuses s decision audit h := by
    simp only [postgresConflicts, saveConflictReview, upsertConflictReview]
    split
    · rename_i hok
      rw [Except.ok_bind]
      cases ha : s.toPostgresMemoryLedger.insertAuditEvent audit with
      | ok u => exact absurd ⟨hok.1, hok.2, by rw [PostgresMemoryLedger.AdmitsAudit, ha]; rfl⟩ h
      | error e => rfl
    · rfl
  applies s decision writes audit := by
    simp only [postgresConflicts, applyConflictResolution]
    cases he : (s.conflictReviews.find (decision.tenantId, decision.caseId)).filter fun r =>
        r.appliedMemoryId ≠ none with
    | some r =>
      simp only
      split <;> exact .inl rfl
    | none =>
      simp only
      cases hr : appendConflictResolutionWrites decision writes s with
      | error e => exact .inl rfl
      | ok u =>
        rw [Except.ok_bind]
        cases hu : u.upsertConflictReview decision with
        | error e => exact .inl rfl
        | ok v =>
          rw [Except.ok_bind]
          cases hv : v.onLedger (v.toPostgresMemoryLedger.insertAuditEvent audit) with
          | error e => exact .inl rfl
          | ok x =>
            refine .inr ⟨fun r hf => ?_, ?_⟩
            · simpa using Option.filter_eq_none_iff.mp he r hf
            · change x.conflictReviews = _
              rw [onLedger_conflictReviews hv, upsertConflictReview_eq_ok hu,
                appendConflictResolutionWrites_conflictReviews hr]

open InMemoryMemoryStore in
/-- The in-memory store keeps them, and admits every review. -/
theorem inMemory_conflictReviewLaws :
    ConflictReviewLaws inMemoryConflicts InMemoryMemoryStore.conflictReviews
      fun _ _ _ => True where
  saves s decision audit _ := by simp [inMemoryConflicts, saveConflictReview]
  refuses s decision audit h := absurd trivial h
  applies s decision writes audit := by
    have hout : ResolutionOutcome s decision writes
        (s.applyConflictResolution decision writes audit).1
        (s.applyConflictResolution decision writes audit).2 := applyConflictResolution_outcome
    simp only [inMemoryConflicts]
    generalize s.applyConflictResolution decision writes audit = out at hout ⊢
    obtain ⟨r, t⟩ := out
    simp only at hout ⊢
    cases hout with
    | replayed | raised => exact .inl rfl
    | committed _ pending _ _ _ reviews => exact .inr ⟨pending, reviews⟩

end MemoryPlane
