import MemoryPlane.Domain.Records

/-!
# Commands and results

The transport-neutral requests that the write services take and the results they return.
-/

namespace MemoryPlane

/-- Request to append one canonical memory atom. -/
structure RetainCommand where
  tenantId : UUID
  workspaceId : UUID
  layer : MemoryLayer
  scope : MemoryScope
  kind : String
  text : String
  provenance : Provenance
  agentId : Option UUID := none
  threadId : Option UUID := none
  labels : List String := []
  importance : ℚ := 1 / 2
  confidence : ℚ := 7 / 10
  metadata : JsonObject := []
  status : MemoryStatus := .active
  idempotencyKey : Option String := none

/-- Result of a transactional write. -/
structure RetainResult where
  item : MemoryItem
  created : Bool
  queuedEventIds : List UUID
  deriving DecidableEq

/-- Request to append a replacement for the current memory head; the fields are those that
the constructor admits. -/
structure SupersedeMemoryCommand where
  tenantId : UUID
  itemId : UUID
  replacementText : String
  expectedRevision : ℕ
  confidence : Option ℚ := none
  status : Option MemoryStatus := none
  idempotencyKey : Option String := none
  text_nonempty : Text.isBlank replacementText = false
  revision_positive : 1 ≤ expectedRevision
  confidence_bounds : ∀ c ∈ confidence, 0 ≤ c ∧ c ≤ 1

theorem no_confidence_bounds : ∀ c ∈ (none : Option ℚ), 0 ≤ c ∧ c ≤ 1 := by simp

theorem first_revision_positive : 1 ≤ 1 := Nat.le_refl 1

/-- The constructor with its checks. -/
def SupersedeMemoryCommand.create (tenantId itemId : UUID) (replacementText : String)
    (expectedRevision : ℤ) (confidence : Option ℚ) (status : Option MemoryStatus)
    (idempotencyKey : Option String) : Except Exn SupersedeMemoryCommand :=
  if ht : Text.isBlank replacementText = true then
    .error (.valueError "replacement text must not be empty")
  else if hr : expectedRevision < 1 then
    .error (.valueError "expected_revision must be positive")
  else if hc : ∃ c ∈ confidence, ¬(0 ≤ c ∧ c ≤ 1) then
    .error (.valueError "confidence must be between 0 and 1")
  else
    .ok
      { tenantId, itemId, replacementText, confidence, status, idempotencyKey
        expectedRevision := expectedRevision.toNat
        text_nonempty := Text.isBlank_eq_false ht
        revision_positive := by omega
        confidence_bounds := by simpa using hc }

/-- A command that passes the checks has what was asked for. -/
theorem SupersedeMemoryCommand.create_eq_ok {tenantId itemId : UUID} {replacementText : String}
    {expectedRevision : ℤ} {confidence : Option ℚ} {status : Option MemoryStatus}
    {idempotencyKey : Option String} {command : SupersedeMemoryCommand}
    (h : create tenantId itemId replacementText expectedRevision confidence status idempotencyKey =
      .ok command) :
    command.tenantId = tenantId ∧ command.itemId = itemId ∧
      command.replacementText = replacementText ∧
      (command.expectedRevision : ℤ) = expectedRevision ∧ command.confidence = confidence ∧
      command.status = status ∧ command.idempotencyKey = idempotencyKey := by
  unfold create at h
  split at h
  · cases h
  split at h
  · cases h
  split at h
  · cases h
  · rename_i hpositive _
    cases h
    refine ⟨rfl, rfl, rfl, ?_, rfl, rfl, rfl⟩
    simp only [Int.toNat_of_nonneg (show (0 : ℤ) ≤ expectedRevision by omega)]

/-- Accept or reject a memory proposal. -/
structure ReviewMemoryProposalCommand where
  tenantId : UUID
  proposalId : UUID
  reviewer : String := "operator"
  reason : String := ""
  layer : Option MemoryLayer := none
  kind : Option String := none
  labels : List String := []
  idempotencyKey : Option String := none

/-- Result of accepting or rejecting one proposal. -/
structure ReviewMemoryProposalResult where
  proposal : MemoryProposal
  retained : Option RetainResult
  deriving DecidableEq

end MemoryPlane
