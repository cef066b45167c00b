import MemoryPlane.Services.Conflicts

/-!
# The conflict service over an adapter

The calls of a decision on the ports of any adapter, and what a review repository must do for
the results about interleaved decisions to hold of it.
-/

namespace MemoryPlane

open ConflictService

/-- The ports that the conflict service is bound to: the ledger it reads and the reviews. -/
structure ConflictReviewRepository (σ : Type) where
  ledger : σ → Ledger
  save : ConflictReviewDecision → Option AuditEvent → σ → Except Exn ConflictReviewDecision × σ
  applyResolution : ConflictReviewDecision → List (MemoryItem × IntegrationEvent × ℕ) →
    Option AuditEvent → σ → Except Exn ConflictReviewDecision × σ
  listForWorkspace : σ → UUID → UUID → List ConflictReviewDecision

/-- The ports of the in-memory store. -/
def inMemoryConflicts : ConflictReviewRepository InMemoryMemoryStore where
  ledger s := s.toLedger
  save decision audit s := ((.ok (s.saveConflictReview decision audit).1),
    (s.saveConflictReview decision audit).2)
  applyResolution decision writes audit s := s.applyConflictResolution decision writes audit
  listForWorkspace s := s.listConflictReviews

namespace ConflictReviewRepository

variable {σ : Type} (repository : ConflictReviewRepository σ) (rt : Runtime)

/-- `list_cases`, with the resolved ones. -/
def listCases (x : σ) (tenantId workspaceId : UUID) : List ConflictCase :=
  let groups := groupBy (fun f => f.slot.key)
    (factsOf rt (repository.ledger x) tenantId workspaceId)
  let reviews := repository.listForWorkspace x tenantId workspaceId
  sortedBy caseKey (groups.filterMap fun g => caseOf rt tenantId workspaceId reviews true g.2)

/-- `_apply_winner`. -/
def applyWinner (case : ConflictCase) (decision : ConflictReviewDecision) (winnerValue : String)
    (audit : Option AuditEvent) (d : Draws) : Proc σ Exn ConflictReviewDecision := do
  match case.candidates.reverse.find? fun c => c.value = winnerValue with
  | none => .raise (.valueError "winner_value must match one of the conflict candidates")
  | some winner =>
    let ids := (evidenceIds case).eraseDups
    let items ← Proc.read fun x => ids.filterMap fun id =>
      (repository.ledger x).get case.tenantId id
    if items.length ≠ ids.length then .raise (.valueError "conflict evidence is incomplete")
    else
      let recallable ← Proc.read fun x =>
        (repository.ledger x).filterRecallableHeads case.tenantId (items.map fun i => i.id)
      let (appliedId, writes) ← Proc.ofExcept
        (resolutionWrites case d (evidence case winner items recallable))
      Proc.invoke (repository.applyResolution { decision with appliedMemoryId := some appliedId }
        writes audit)

/-- Persist the review and make its winner canonical when required. -/
def decide (tenantId workspaceId caseId : UUID) (status : ConflictReviewStatus)
    (winnerValue : Option String) (reason : String) (audit : Option AuditEvent) (d : Draws) :
    Proc σ Exn ConflictReviewDecision :=
  if status.appliesWinner ∧ winnerValue.all Text.isBlank then
    .raise (.valueError "winner_value is required for accepted/overridden decisions")
  else do
    let cases ← Proc.read fun x => repository.listCases rt x tenantId workspaceId
    match cases.find? fun c => c.id = caseId with
    | none => .raise (.valueError "conflict case not found")
    | some case =>
      match case.review.filter fun r => r.appliedMemoryId ≠ none with
      | some r =>
        if r.status = status ∧ r.winnerValue = winnerValue then return r
        else .raise (.valueError "conflict resolution is already applied and immutable")
      | none =>
        let decision : ConflictReviewDecision :=
          { tenantId := tenantId
            workspaceId := workspaceId
            caseId := caseId
            status := status
            winnerValue := winnerValue
            reason := reason
            appliedMemoryId := none
            updatedAt := d.now 0 }
        if status.appliesWinner then
          repository.applyWinner case decision (Text.strip (winnerValue.getD "")) audit (d.tick 1)
        else Proc.invoke (repository.save decision audit)

end ConflictReviewRepository

/-- What a review repository does, in terms of its table of reviews. -/
structure ConflictReviewLaws {σ : Type} (repository : ConflictReviewRepository σ)
    (reviews : σ → Table ConflictReviewDecision fun r => (r.tenantId, r.caseId))
    (admits : σ → ConflictReviewDecision → Option AuditEvent → Prop) : Prop where
  /-- An admitted review is stored in the place of the earlier one, whatever that says. -/
  saves : ∀ x decision audit, admits x decision audit →
    reviews (repository.save decision audit x).2 = (reviews x).put decision
  /-- Another one is not. -/
  refuses : ∀ x decision audit, ¬ admits x decision audit →
    reviews (repository.save decision audit x).2 = reviews x
  /-- A resolution is stored only if none was applied before. -/
  applies : ∀ x decision writes audit,
    reviews (repository.applyResolution decision writes audit x).2 = reviews x ∨
      (∀ r, (reviews x).find (decision.tenantId, decision.caseId) = some r →
        r.appliedMemoryId = none) ∧
      reviews (repository.applyResolution decision writes audit x).2 = (reviews x).put decision

end MemoryPlane
