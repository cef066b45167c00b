import MemoryPlane.Domain.Models

/-!
# Graph edges

Typed relationships between two memory items.
-/

namespace MemoryPlane

/-- Supported relationship types between memory items. -/
inductive MemoryEdgeType where
  | supports | contradicts | derivedFrom | sameEntity | causedBy | ownedByAgent | fromThread
  | supersedes
  deriving DecidableEq

/-- Fields of a relationship between two memory items. -/
structure EdgeFields where
  tenantId : UUID
  workspaceId : UUID
  srcId : UUID
  dstId : UUID
  edgeType : MemoryEdgeType
  id : UUID
  weight : ℚ
  validFrom : Option DateTime
  validTo : Option DateTime
  provenanceItemId : Option UUID
  createdAt : DateTime
  deriving DecidableEq

/-- `MemoryEdge.__post_init__`. -/
def EdgeFields.postInit (e : EdgeFields) : Except Exn Unit :=
  if e.srcId = e.dstId then .error (.valueError "memory edge cannot point to itself")
  else if ¬(0 ≤ e.weight ∧ e.weight ≤ 1) then
    .error (.valueError "edge weight must be between 0 and 1")
  else if e.validFrom.any (fun start => e.validTo.any fun stop => decide (stop ≤ start)) then
    .error (.valueError "valid_to must be after valid_from")
  else .ok ()

/-- A relationship that passed its constructor. -/
structure MemoryEdge extends EdgeFields where
  valid : toEdgeFields.postInit = .ok ()
  deriving DecidableEq

namespace MemoryEdge

/-- Construction, which runs the checks. -/
def new (e : EdgeFields) : Except Exn MemoryEdge :=
  match h : e.postInit with
  | .ok () => .ok ⟨e, h⟩
  | .error err => .error err

/-- An edge has the fields it was constructed from. -/
theorem new_eq_ok {e : EdgeFields} {edge : MemoryEdge} :
    new e = .ok edge ↔ edge.toEdgeFields = e := by
  constructor
  · intro h
    unfold new at h
    split at h
    · cases h
      rfl
    · cases h
  · rintro rfl
    unfold new
    split
    · rfl
    · rename_i err herr
      rw [edge.valid] at herr
      cases herr

/-- Construction succeeds exactly when the checks pass. -/
theorem exists_new_iff {e : EdgeFields} : (∃ edge, new e = .ok edge) ↔ e.postInit = .ok () := by
  constructor
  · rintro ⟨edge, h⟩
    rw [← new_eq_ok.mp h]
    exact edge.valid
  · intro h
    exact ⟨⟨e, h⟩, new_eq_ok.mpr rfl⟩

end MemoryEdge

/-- The checks on an edge that is valid at all times. -/
theorem EdgeFields.postInit_eq_ok {e : EdgeFields} (hfrom : e.validFrom = none) :
    e.postInit = .ok () ↔ e.srcId ≠ e.dstId ∧ 0 ≤ e.weight ∧ e.weight ≤ 1 := by
  unfold postInit
  by_cases hloop : e.srcId = e.dstId
  · simp [hloop]
  · by_cases hweight : 0 ≤ e.weight ∧ e.weight ≤ 1
    · simp [hloop, hweight, hfrom]
    · simp [hloop, hweight]

end MemoryPlane
