import MemoryPlane.Domain.Records

/-!
# Recall requests and results

The tenant-bound retrieval request, the candidates that sources produce for it, and the ranked
result with its diagnostics.
-/

namespace MemoryPlane

/-- A tenant-bound retrieval request, with the checks of its constructor. -/
structure RecallQuery where
  tenantId : UUID
  workspaceId : UUID
  text : String
  agentId : Option UUID := none
  threadId : Option UUID := none
  layers : List MemoryLayer := []
  labels : List String := []
  validAt : Option DateTime := none
  topK : ℕ := 12
  minimumScore : ℚ := 0
  text_nonempty : Text.isBlank text = false
  topK_bounds : 1 ≤ topK ∧ topK ≤ 1000

/-- One candidate and its retrieval signals. -/
structure Candidate where
  item : MemoryItem
  source : String
  semantic : ℚ := 0
  lexical : ℚ := 0
  entity : ℚ := 0
  recency : ℚ := 0
  trust : ℚ := 0
  finalScore : ℚ := 0
  deriving DecidableEq

/-- Durable embedding delivery state for active heads in one workspace. -/
structure IndexFreshness where
  activeMemoryCount : ℕ := 0
  staleMemoryCount : ℕ := 0
  unpublishedMemoryCount : ℕ := 0
  processingMemoryCount : ℕ := 0
  deadLetterMemoryCount : ℕ := 0
  missingDeliveryMemoryCount : ℕ := 0
  deriving DecidableEq

/-- A recallable memory lacks a completed index delivery. -/
def IndexFreshness.stale (f : IndexFreshness) : Bool := decide (0 < f.staleMemoryCount)

/-- One step of a retrieval. -/
structure RetrievalTraceStep where
  sequence : ℕ
  stage : String
  name : String
  status : String
  candidateCount : ℕ := 0
  acceptedCount : ℕ := 0
  selectedCount : ℕ := 0
  errorType : Option String := none
  deriving DecidableEq

namespace RetrievalTraceStep

/-- The counters of a step, by the names of their fields. -/
def counts (s : RetrievalTraceStep) : List (String × ℕ) :=
  [("candidate_count", s.candidateCount), ("accepted_count", s.acceptedCount),
    ("selected_count", s.selectedCount)]

def stages : List String := ["source", "fusion"]

def statuses : List String := ["succeeded", "degraded"]

/-- `RetrievalTraceStep.__post_init__`. -/
def postInit (s : RetrievalTraceStep) : Except Exn Unit :=
  if ¬(1 ≤ s.sequence ∧ s.sequence ≤ 64) then
    .error (.valueError "retrieval trace sequence must be between 1 and 64")
  else if s.stage ∉ stages then
    .error (.valueError "retrieval trace stage must be source or fusion")
  else if s.status ∉ statuses then
    .error (.valueError "retrieval trace status must be succeeded or degraded")
  else if s.name = "" ∨ 64 < s.name.length then
    .error (.valueError "retrieval trace name must contain between 1 and 64 characters")
  else
    match s.counts.find? fun c => decide (1000000 < c.2) with
    | some c => .error (.valueError (c.1 ++ " must be between 0 and 1000000"))
    | none =>
      if s.errorType.any fun e => decide (e = "" ∨ 128 < e.length) then
        .error (.valueError "retrieval trace error_type must be between 1 and 128 characters")
      else .ok ()

/-- What the checks establish. -/
structure Valid (s : RetrievalTraceStep) : Prop where
  sequence : 1 ≤ s.sequence ∧ s.sequence ≤ 64
  stage : s.stage ∈ stages
  status : s.status ∈ statuses
  name : s.name ≠ "" ∧ s.name.length ≤ 64
  counts : ∀ c ∈ s.counts, c.2 ≤ 1000000
  errorType : ∀ e, s.errorType = some e → e ≠ "" ∧ e.length ≤ 128

theorem postInit_eq_ok {s : RetrievalTraceStep} (h : s.Valid) : s.postInit = .ok () := by
  have hname : ¬(s.name = "" ∨ 64 < s.name.length) := by
    rintro (hempty | hlong)
    · exact h.name.1 hempty
    · exact absurd h.name.2 (not_le.mpr hlong)
  have hcounts : s.counts.find? (fun c => decide (1000000 < c.2)) = none := by
    rw [List.find?_eq_none]
    intro c hc
    rw [decide_eq_true_eq, not_lt]
    exact h.counts c hc
  have herror : (s.errorType.any fun e => decide (e = "" ∨ 128 < e.length)) = false := by
    cases he : s.errorType with
    | none => rfl
    | some e =>
      obtain ⟨hempty, hlong⟩ := h.errorType e he
      simp [hempty, hlong]
  rw [postInit, if_neg (not_not.mpr h.sequence), if_neg (not_not.mpr h.stage),
    if_neg (not_not.mpr h.status), if_neg hname, hcounts, herror, if_neg Bool.false_ne_true]

/-- The constructor. -/
def new (s : RetrievalTraceStep) : Except Exn RetrievalTraceStep := s.postInit.map fun _ => s

theorem new_eq_ok {s : RetrievalTraceStep} (h : s.Valid) : s.new = .ok s := by
  rw [new, postInit_eq_ok h]
  rfl

end RetrievalTraceStep

/-- Ranked retrieval output with its diagnostics. -/
structure RecallResult where
  candidates : List Candidate
  sourcesUsed : List String
  indexStale : Bool
  indexFreshness : Option IndexFreshness
  traversal : List RetrievalTraceStep
  deriving DecidableEq

/-- A named producer of candidates; a search may raise. -/
structure CandidateSource where
  name : String
  search : RecallQuery → Except Exn (List Candidate)

end MemoryPlane
