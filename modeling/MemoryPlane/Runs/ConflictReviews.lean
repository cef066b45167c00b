import MemoryPlane.Runs.Writes
import MemoryPlane.Services.ConflictEvidence

/-!
# Stored reviews in every run

Only decisions touch the reviews of conflict cases. Every stored review belongs to a slot with
memories, and only an accepting review names an applied memory. A review that does is never
replaced, provided that the name-based identifiers of the cases are distinct.
-/

namespace MemoryPlane

open ConflictService InMemoryMemoryStore

section

variable (s : InMemoryMemoryStore)

/-- Retaining leaves the conflict reviews alone. -/
theorem InMemoryMemoryStore.retain_conflictReviews (item : MemoryItem) (event : IntegrationEvent)
    (key : Option String) (audit : Option AuditEvent) :
    (s.retain item event key audit).2.conflictReviews = s.conflictReviews := by
  unfold retain append
  simp only
  cases s.replayed item.tenantId (scopeIdempotencyKey item.workspaceId key) with
  | some e =>
    simp only
    cases s.itemAt e.itemId <;> rfl
  | none => simp [putItem]

/-- Superseding leaves the conflict reviews alone. -/
theorem InMemoryMemoryStore.supersedeIfCurrent_conflictReviews (item : MemoryItem)
    (event : IntegrationEvent) (expected : ℕ) (key : Option String) (audit : Option AuditEvent) :
    (s.supersedeIfCurrent item event expected key audit).2.conflictReviews =
      s.conflictReviews := by
  unfold supersedeIfCurrent
  simp only
  split
  · rfl
  split
  · rfl
  split
  · rfl
  split
  · rfl
  · simp [putItem]

/-- Appending a proposal leaves the conflict reviews alone. -/
theorem InMemoryMemoryStore.appendProposal_conflictReviews (proposal : MemoryProposal)
    (key : Option String) (audit : Option AuditEvent) :
    (s.appendProposal proposal key audit).2.conflictReviews = s.conflictReviews := by
  unfold appendProposal
  simp only
  split
  · split <;> rfl
  · simp

/-- Reviewing a proposal leaves the conflict reviews alone. -/
theorem InMemoryMemoryStore.saveProposalReview_conflictReviews (proposal : MemoryProposal)
    (audit : Option AuditEvent) :
    (s.saveProposalReview proposal audit).2.conflictReviews = s.conflictReviews := by
  unfold saveProposalReview
  split
  · rfl
  · simp

/-- Accepting a proposal leaves the conflict reviews alone. -/
theorem InMemoryMemoryStore.acceptProposalWithMemory_conflictReviews (proposal : MemoryProposal)
    (item : MemoryItem) (event : IntegrationEvent) (reviewer reason key : String)
    (audit : Option AuditEvent) (now : DateTime) :
    (s.acceptProposalWithMemory proposal item event reviewer reason key audit
      now).2.conflictReviews = s.conflictReviews := by
  unfold acceptProposalWithMemory
  simp only
  repeat' split
  all_goals first | rfl | simp [putItem]

end

/-- The operations of the retention and proposal services leave reviews alone. -/
theorem MemoryOperation.run_conflictReviews (env : Deployment) (op : MemoryOperation) (d : Draws)
    (s : InMemoryMemoryStore) :
    ((Operation.memory op).run env d s).2.conflictReviews = s.conflictReviews := by
  simp only [Operation.run, Operation.program]
  cases op with
  | retain command audit =>
    simp only [MemoryOperation.program, inMemoryStores, Proc.run_wrap]
    rcases RetentionService.run_retain env.privacy inMemoryRetention d s command audit with
      ⟨e, -, h⟩ | ⟨item, event, -, a, h⟩
    · rw [h]
    · rw [h]
      exact retain_conflictReviews ..
  | supersede command audit =>
    simp only [MemoryOperation.program, inMemoryStores, Proc.run_wrap]
    rcases RetentionService.run_supersede env.privacy inMemoryRetention d s command audit with
      ⟨e, h⟩ | ⟨current, item, event, -, -, a, h⟩
    · rw [h]
    · rw [h]
      exact supersedeIfCurrent_conflictReviews ..
  | submit proposal key audit =>
    simp only [MemoryOperation.program, inMemoryStores, inMemoryProposals, Proc.run_bind,
      Proc.run_invoke]
    have hk := s.appendProposal_conflictReviews (proposal.submitted (d.uuid4 0)) key audit
    rcases hc : s.appendProposal (proposal.submitted (d.uuid4 0)) key audit with ⟨r, t⟩
    rw [hc] at hk
    cases r <;> exact hk
  | accept command audit =>
    simp only [MemoryOperation.program, inMemoryStores, Proc.run_wrap]
    rcases MemoryProposalService.run_accept env.privacy inMemoryProposals d s command audit with
      ⟨e, h⟩ | ⟨p, item, event, -, -, a, h⟩
    · rw [h]
    · rw [h]
      exact acceptProposalWithMemory_conflictReviews ..
  | reject command audit =>
    simp only [MemoryOperation.program, inMemoryStores, Proc.run_wrap]
    rcases MemoryProposalService.run_reject inMemoryProposals d s command audit with
      ⟨e, h⟩ | ⟨p, -, -, a, h⟩
    · rw [h]
    · rw [h]
      exact saveProposalReview_conflictReviews ..

/-- A stored review belongs to a slot with memories, and only a review that applies a winner
names an applied memory. -/
structure ReviewSound (rt : Runtime) (items : List MemoryItem) (r : ConflictReviewDecision) :
    Prop where
  applies : r.appliedMemoryId ≠ none → r.status.appliesWinner = true
  slot : ∃ i ∈ items, i.tenantId = r.tenantId ∧ i.workspaceId = r.workspaceId ∧
    i.layer = .semantic ∧ caseId rt r.tenantId r.workspaceId (slotOf rt i) = r.caseId

/-- A sound review stays sound as items are added. -/
theorem ReviewSound.mono {rt : Runtime} {items items' : List MemoryItem}
    {r : ConflictReviewDecision} (h : ReviewSound rt items r) (hsub : items ⊆ items') :
    ReviewSound rt items' r := by
  obtain ⟨i, hi, hrest⟩ := h.slot
  exact ⟨h.applies, i, hsub hi, hrest⟩

/-- The identifiers that name-based hashing gives to the cases of these memories are distinct. -/
def CasesDistinct (rt : Runtime) (items : List MemoryItem) : Prop :=
  ∀ i ∈ items, ∀ j ∈ items, i.layer = .semantic → j.layer = .semantic →
    caseId rt i.tenantId i.workspaceId (slotOf rt i) =
      caseId rt j.tenantId j.workspaceId (slotOf rt j) →
    i.tenantId = j.tenantId ∧ i.workspaceId = j.workspaceId ∧
      (slotOf rt i).key = (slotOf rt j).key

instance (rt : Runtime) (items : List MemoryItem) : Decidable (CasesDistinct rt items) := by
  unfold CasesDistinct
  infer_instance

/-- Cases told apart among more items are told apart among fewer. -/
theorem CasesDistinct.mono {rt : Runtime} {items items' : List MemoryItem}
    (h : CasesDistinct rt items') (hsub : items ⊆ items') : CasesDistinct rt items :=
  fun i hi j hj => h i (hsub hi) j (hsub hj)

section

variable {rt : Runtime} {s s' : InMemoryMemoryStore} {t w caseId : UUID} {d : Draws}
  {status : ConflictReviewStatus} {winnerValue : Option String} {reason : String}
  {r : Except Exn ConflictReviewDecision} {case : ConflictCase}

/-- What a decision does to the stored reviews: nothing, or it stores one of its case, which had
no applied review in its workspace. -/
theorem ConflictService.DecideOutcome.reviews
    (h : DecideOutcome rt s t w caseId status winnerValue reason d r s') :
    s'.conflictReviews = s.conflictReviews ∨
      ∃ case decision, findCase rt s t w caseId = some case ∧ decision.tenantId = t ∧
        decision.workspaceId = w ∧ decision.caseId = caseId ∧
        (decision.appliedMemoryId ≠ none → decision.status.appliesWinner = true) ∧
        (∀ review, case.review = some review → review.appliedMemoryId = none) ∧
        s'.conflictReviews = s.conflictReviews.put decision := by
  cases h with
  | raised | found => exact .inl rfl
  | saved case _ listed plain _ _ reviews unapplied =>
    exact .inr ⟨case, _, listed, rfl, rfl, rfl, fun hne => absurd rfl hne, unapplied, reviews⟩
  | applied case _ _ listed winning outcome =>
    cases outcome with
    | raised => exact .inl rfl
    | resolved winner applied writes _ _ _ _ outcome =>
      cases outcome with
      | replayed | raised => exact .inl rfl
      | committed _ pending _ _ _ reviews =>
        refine .inr ⟨case, _, listed, rfl, rfl, rfl, fun _ => winning, fun review hr => ?_, reviews⟩
        have hid : case.id = caseId := by simpa using List.find?_some listed
        exact pending review (hid ▸ listCases_review (List.mem_of_find?_eq_some listed) hr)

/-- What an operation does to the stored reviews. -/
theorem Operation.run_reviews (env : Deployment) (op : Operation) (s : InMemoryMemoryStore)
    (d : Draws) :
    (op.run env d s).2.conflictReviews = s.conflictReviews ∨
      ∃ t w case decision, case ∈ listCases env.runtime s t w true ∧ decision.tenantId = t ∧
        decision.workspaceId = w ∧ decision.caseId = case.id ∧
        (decision.appliedMemoryId ≠ none → decision.status.appliesWinner = true) ∧
        (∀ review, case.review = some review → review.appliedMemoryId = none) ∧
        (op.run env d s).2.conflictReviews = s.conflictReviews.put decision := by
  cases op with
  | memory op => exact .inl (op.run_conflictReviews env d s)
  | decide t w caseId status winnerValue reason audit =>
    simp only [run, program, Proc.run_wrap]
    have hout := run_decide env.runtime s t w caseId status winnerValue reason audit d
    rcases hout.reviews with h | ⟨case, decision, listed, ht, hw, hid, hrest⟩
    · exact .inl h
    · have hcase : case.id = caseId := by simpa using List.find?_some listed
      exact .inr ⟨t, w, case, decision, List.mem_of_find?_eq_some listed, ht, hw,
        hid.trans hcase.symm, hrest⟩

/-- Every stored review of a reachable store is sound. -/
theorem Reachable.reviewSound {env : Deployment} (h : Reachable env s) :
    ∀ r ∈ s.conflictReviews.rows, ReviewSound env.runtime s.items.rows r := by
  induction h with
  | empty => simp [InMemoryMemoryStore.empty]
  | @step s op d before fresh ih =>
    have hkeeps := op.keeps_items env before.consistent.chained fresh
    intro r hr
    rcases op.run_reviews env s d with h | ⟨t, w, case, decision, hcase, ht, hw, hid, happ, -, h⟩
    · rw [h] at hr
      exact (ih r hr).mono hkeeps
    · rw [h] at hr
      rcases Table.mem_put.mp hr with rfl | ⟨hr, -⟩
      · obtain ⟨i, hi, hin⟩ := exists_inSlot hcase
        refine ⟨happ, i, hkeeps i hi, hin.tenant.trans ht.symm, hin.workspace.trans hw.symm,
          hin.layer, ?_⟩
        rw [ht, hw, hid]
        exact caseId_eq_of_inSlot hcase hin
      · exact (ih r hr).mono hkeeps

/-- With distinct identifiers, the review stored under the identifier of a listed case is the
review of the case. -/
theorem review_of_stored {env : Deployment} (h : Reachable env s)
    (hdistinct : CasesDistinct env.runtime s.items.rows) {resolved : Bool}
    (hcase : case ∈ listCases env.runtime s t w resolved) {review : ConflictReviewDecision}
    (hr : s.conflictReviews.find (t, case.id) = some review) : case.review = some review := by
  refine (listed_review_iff hcase).mpr ⟨hr, ?_⟩
  obtain ⟨hm, hkey⟩ := Table.find_eq_some.mp hr
  obtain ⟨j, hj, hjt, hjw, hjl, hjid⟩ := (h.reviewSound review hm).slot
  obtain ⟨i, hi, hin⟩ := exists_inSlot hcase
  have hsame := hdistinct i hi j hj hin.layer hjl (by
    rw [hin.tenant, hin.workspace, hjt, hjw, hjid, caseId_eq_of_inSlot hcase hin]
    exact (congrArg Prod.snd hkey).symm)
  rw [← hjw, ← hsame.2.1]
  exact hin.workspace

/-- Stores that further operations lead to. -/
inductive Later (env : Deployment) (s : InMemoryMemoryStore) : InMemoryMemoryStore → Prop
  | refl : Later env s s
  | step {s' : InMemoryMemoryStore} (op : Operation) (d : Draws) (before : Later env s s')
      (fresh : d.Fresh (op.drawCount s') s'.usedIds) : Later env s (op.run env d s').2

/-- A later store is reachable. -/
theorem Later.reachable {env : Deployment} (h : Later env s s') (hs : Reachable env s) :
    Reachable env s' := by
  induction h with
  | refl => exact hs
  | step op d _ fresh ih => exact .step op d ih fresh

/-- A later store has all the items of an earlier one. -/
theorem Later.keeps_items {env : Deployment} (h : Later env s s') (hs : Reachable env s) :
    s.items.rows ⊆ s'.items.rows := by
  induction h with
  | refl => exact List.Subset.refl _
  | step op d before fresh ih =>
    intro i hi
    exact op.keeps_items env (before.reachable hs).consistent.chained fresh i (ih hi)

/-- An applied review stays, as long as the identifiers of the cases are distinct. -/
theorem Later.keeps_applied {env : Deployment} (h : Later env s s') (hs : Reachable env s)
    (hdistinct : CasesDistinct env.runtime s'.items.rows) {k : UUID × UUID}
    {review : ConflictReviewDecision} (hr : s.conflictReviews.find k = some review)
    (happ : review.appliedMemoryId ≠ none) : s'.conflictReviews.find k = some review := by
  induction h with
  | refl => exact hr
  | @step u op d before fresh ih =>
    have hu := before.reachable hs
    have hkeeps := op.keeps_items env hu.consistent.chained fresh
    have hdu := hdistinct.mono hkeeps
    have hstored := ih hdu
    rcases op.run_reviews env u d with h | ⟨t, w, case, decision, hcase, ht, hw, hid, -, hun, h⟩
    · rw [h]
      exact hstored
    · rw [h]
      by_cases hk : k = (decision.tenantId, decision.caseId)
      · rw [hk, ht, hid] at hstored
        exact absurd (hun review (review_of_stored hu hdu hcase hstored)) happ
      · have hput : (u.conflictReviews.put decision).find k = u.conflictReviews.find k :=
          Table.find_put_of_ne hk
        exact hput.trans hstored

end

end MemoryPlane
