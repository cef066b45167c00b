import MemoryPlane.Adapters.Listings
import MemoryPlane.Services.Observations

/-!
# Vault health

The graph service links two memories of a workspace, and the health service checks the references
of a workspace's revisions, edges and observations without changing them. The report has no error
exactly when every reference leads to a memory of the workspace and each revision stands one above
its parent.
-/

namespace MemoryPlane

/-- The in-memory store with its observations and its graph. -/
structure VaultStore extends ObservationStore where
  edges : Table MemoryEdge fun e => e.id

namespace VaultStore

def empty : VaultStore := ⟨ObservationStore.empty, Table.empty⟩

variable (x : VaultStore)

/-- Persist one memory graph edge; a stored one stays. -/
def saveEdge (edge : MemoryEdge) (audit : Option AuditEvent) : MemoryEdge × VaultStore :=
  let edges := x.edges.setDefault edge
  ((edges.find edge.id).getD edge,
    { x with toInMemoryMemoryStore := x.appendAuditEvent audit, edges := edges })

/-- List all graph edges inside a tenant-scoped workspace. -/
def listEdgesForWorkspace (tenantId workspaceId : UUID) : List MemoryEdge :=
  sortedBy edgeKey <| x.edges.rows.filter fun e =>
    e.tenantId = tenantId ∧ e.workspaceId = workspaceId

end VaultStore

/-- The arguments of `GraphService.link`. -/
structure LinkCommand where
  tenantId : UUID
  workspaceId : UUID
  srcId : UUID
  dstId : UUID
  edgeType : MemoryEdgeType
  weight : ℚ := 1
  provenanceItemId : Option UUID := none
  auditEvent : Option AuditEvent := none

namespace GraphService

/-- The edge that a command asks for. -/
def edgeFields (c : LinkCommand) (d : Draws) : EdgeFields where
  tenantId := c.tenantId
  workspaceId := c.workspaceId
  srcId := c.srcId
  dstId := c.dstId
  edgeType := c.edgeType
  id := d.uuid4 0
  weight := c.weight
  validFrom := none
  validTo := none
  provenanceItemId := c.provenanceItemId
  createdAt := d.now 0

/-- Create a graph edge only when both endpoint memories exist. -/
def link (c : LinkCommand) (d : Draws) (x : VaultStore) : Except Exn MemoryEdge × VaultStore :=
  match x.get c.tenantId c.srcId, x.get c.tenantId c.dstId with
  | some src, some dst =>
    if src.workspaceId ≠ c.workspaceId ∨ dst.workspaceId ≠ c.workspaceId then
      (.error (.valueError "memory edge endpoints must share workspace"), x)
    else
      match MemoryEdge.new (edgeFields c d) with
      | .error e => (.error e, x)
      | .ok edge =>
        let (saved, y) := x.saveEdge edge c.auditEvent
        (.ok saved, y)
  | _, _ => (.error (.keyError "memory edge endpoint not found"), x)

end GraphService

/-- How serious a finding is. -/
inductive Severity where
  | error | warning
  deriving DecidableEq

/-- One tenant-scoped, non-mutating vault-health finding. -/
structure VaultHealthIssue where
  severity : Severity
  code : String
  message : String
  itemId : Option UUID := none
  edgeId : Option UUID := none
  observationId : Option UUID := none
  deriving DecidableEq

/-- A deterministic health report for one canonical workspace projection. -/
structure VaultHealthReport where
  tenantId : UUID
  workspaceId : UUID
  memoryCount : ℕ
  edgeCount : ℕ
  observationCount : ℕ
  recallableHeadCount : ℕ
  unlinkedHeadCount : ℕ
  issues : List VaultHealthIssue
  deriving DecidableEq

namespace VaultHealthReport

variable (r : VaultHealthReport)

/-- Count integrity failures that require operator investigation. -/
def errorCount : ℕ := r.issues.countP fun i => i.severity = .error

/-- Count diagnostics that do not invalidate canonical memory. -/
def warningCount : ℕ := r.issues.countP fun i => i.severity = .warning

/-- A vault is healthy when no canonical-reference error is present. -/
def healthy : Bool := r.errorCount = 0

end VaultHealthReport

namespace VaultHealthService

/-- The item under an identifier, among those of the workspace. -/
def itemById (items : List MemoryItem) (id : UUID) : Option MemoryItem :=
  items.find? fun i => i.id = id

/-- The finding about one item's parent. -/
def checkRevision (items : List MemoryItem) (item : MemoryItem) : Option VaultHealthIssue :=
  match item.supersedesId with
  | none => none
  | some parentId =>
    match itemById items parentId with
    | none => some
        { severity := .error
          code := "missing_revision_parent"
          message := "superseding memory references a missing parent"
          itemId := some item.id }
    | some parent =>
      if item.revision ≠ parent.revision + 1 then some
        { severity := .error
          code := "invalid_revision_sequence"
          message := "superseding memory revision is not parent revision plus one"
          itemId := some item.id }
      else none

/-- The findings about the revisions of a workspace. -/
def checkRevisionChains (items : List MemoryItem) : List VaultHealthIssue :=
  items.filterMap (checkRevision items)

/-- Both ends of the edge are items of the workspace. -/
def endsPresent (items : List MemoryItem) (edge : MemoryEdge) : Bool :=
  (itemById items edge.srcId).isSome && (itemById items edge.dstId).isSome

/-- The finding about one edge. The provenance is looked at only when both ends are there. -/
def checkEdge (items : List MemoryItem) (edge : MemoryEdge) : Option VaultHealthIssue :=
  if ¬ endsPresent items edge then some
    { severity := .error
      code := "broken_graph_endpoint"
      message := "graph edge references a missing or out-of-workspace memory"
      edgeId := some edge.id }
  else if edge.provenanceItemId.any fun p => (itemById items p).isNone then some
    { severity := .error
      code := "missing_graph_provenance"
      message := "graph edge provenance references a missing or out-of-workspace memory"
      edgeId := some edge.id }
  else none

/-- The findings about the edges, and the items that they link. -/
def checkEdges (items : List MemoryItem) (edges : List MemoryEdge) :
    List VaultHealthIssue × List UUID :=
  (edges.filterMap (checkEdge items),
    (edges.filter (endsPresent items)).flatMap fun edge => [edge.srcId, edge.dstId])

/-- The findings about one observation: one for each evidence that is not there. -/
def checkObservation (items : List MemoryItem) (o : Observation) : List VaultHealthIssue :=
  (o.evidenceIds.filter fun id => (itemById items id).isNone).map fun _ =>
    { severity := .error
      code := "missing_observation_evidence"
      message := "observation evidence references a missing or out-of-workspace memory"
      observationId := some o.id }

/-- The findings about the observations, and the items that current ones rest on. -/
def checkObservations (items : List MemoryItem) (observations : List Observation) :
    List VaultHealthIssue × List UUID :=
  (observations.flatMap (checkObservation items),
    (observations.filter fun o => !o.stale).flatMap fun o =>
      o.evidenceIds.filter fun id => (itemById items id).isSome)

/-- The finding about a head that nothing links. -/
def unlinkedIssue (item : MemoryItem) : VaultHealthIssue where
  severity := .warning
  code := "unlinked_memory_head"
  message := "recallable memory head has no typed graph edge or active observation evidence"
  itemId := some item.id

/-- The order of the findings in a report. -/
def issueKey (i : VaultHealthIssue) : ℕ ×ₗ String ×ₗ String :=
  let subject := ((i.itemId.or i.edgeId).or i.observationId).elim "" UUID.str
  toLex (if i.severity = .error then 0 else 1, toLex (i.code, subject))

/-- Produce a tenant-scoped report from canonical records only. -/
def inspect (x : VaultStore) (tenantId workspaceId : UUID) : VaultHealthReport :=
  let items := x.listForWorkspace tenantId workspaceId
  let observations := x.listObservations tenantId workspaceId
  let edges := x.listEdgesForWorkspace tenantId workspaceId
  let revisions := checkRevisionChains items
  let links := checkEdges items edges
  let evidence := checkObservations items observations
  let linked := links.2 ++ evidence.2
  let heads := items.filter fun i =>
    x.isRecallableHead tenantId i.id = true ∧ i.status ≠ .archived ∧ i.status ≠ .rejected
  let unlinked := heads.filter fun i => i.id ∉ linked
  { tenantId := tenantId
    workspaceId := workspaceId
    memoryCount := items.length
    edgeCount := edges.length
    observationCount := observations.length
    recallableHeadCount := heads.length
    unlinkedHeadCount := unlinked.length
    issues := sortedBy issueKey (revisions ++ links.1 ++ evidence.1 ++ unlinked.map unlinkedIssue) }

end VaultHealthService

section Laws

variable {x : VaultStore} {t w id : UUID}

variable (x t w) in
/-- The workspace has a memory under the identifier. -/
def VaultStore.Holds (id : UUID) : Prop :=
  ∃ i ∈ x.items.rows, i.id = id ∧ i.tenantId = t ∧ i.workspaceId = w

variable (x t w) in
/-- Every reference of the workspace leads to one of its memories, and revisions count up. -/
structure VaultStore.Intact : Prop where
  parents : ∀ i ∈ x.items.rows, i.tenantId = t → i.workspaceId = w →
    ∀ p, i.supersedesId = some p → ∃ parent ∈ x.items.rows, parent.id = p ∧
      parent.tenantId = t ∧ parent.workspaceId = w ∧ i.revision = parent.revision + 1
  endpoints : ∀ e ∈ x.edges.rows, e.tenantId = t → e.workspaceId = w →
    x.Holds t w e.srcId ∧ x.Holds t w e.dstId
  provenance : ∀ e ∈ x.edges.rows, e.tenantId = t → e.workspaceId = w →
    ∀ p, e.provenanceItemId = some p → x.Holds t w p
  evidence : ∀ o ∈ x.observations.rows, o.tenantId = t → o.workspaceId = w →
    ∀ id ∈ o.evidenceIds, x.Holds t w id

namespace VaultHealthService

theorem mem_listEdgesForWorkspace {e : MemoryEdge} :
    e ∈ x.listEdgesForWorkspace t w ↔ e ∈ x.edges.rows ∧ e.tenantId = t ∧ e.workspaceId = w := by
  simp [VaultStore.listEdgesForWorkspace]

theorem mem_listObservations {o : Observation} :
    o ∈ x.listObservations t w ↔ o ∈ x.observations.rows ∧ o.tenantId = t ∧ o.workspaceId = w := by
  simp [ObservationStore.listObservations]

theorem itemById_eq_some {i : MemoryItem} :
    itemById (x.listForWorkspace t w) id = some i ↔
      i ∈ x.items.rows ∧ i.id = id ∧ i.tenantId = t ∧ i.workspaceId = w := by
  constructor
  · intro h
    have hmem := Ledger.mem_listForWorkspace.mp (List.mem_of_find?_eq_some h)
    have hid : i.id = id := by simpa using List.find?_some h
    exact ⟨hmem.1, hid, hmem.2.1, hmem.2.2.1⟩
  · rintro ⟨hi, hid, ht, hw⟩
    have hlisted : i ∈ x.listForWorkspace t w :=
      Ledger.mem_listForWorkspace.mpr ⟨hi, ht, hw, .inl rfl⟩
    cases hfound : itemById (x.listForWorkspace t w) id with
    | none =>
      have hno := List.find?_eq_none.mp hfound i hlisted
      simp [hid] at hno
    | some j =>
      have hj := Ledger.mem_listForWorkspace.mp (List.mem_of_find?_eq_some hfound)
      have hjd : j.id = id := by simpa using List.find?_some hfound
      rw [x.items.eq_of_key_eq hj.1 hi (hjd.trans hid.symm)]

theorem isSome_itemById : (itemById (x.listForWorkspace t w) id).isSome = true ↔
    x.Holds t w id := by
  rw [Option.isSome_iff_exists]
  exact exists_congr fun i => itemById_eq_some

theorem isNone_itemById : (itemById (x.listForWorkspace t w) id).isNone = true ↔
    ¬ x.Holds t w id := by
  rw [← isSome_itemById, Bool.not_eq_true, Option.isSome_eq_false_iff]

/-- A revision passes when its parent is a memory of the workspace one revision below. -/
theorem checkRevision_eq_none {i : MemoryItem} :
    checkRevision (x.listForWorkspace t w) i = none ↔
      ∀ p, i.supersedesId = some p → ∃ parent ∈ x.items.rows, parent.id = p ∧
        parent.tenantId = t ∧ parent.workspaceId = w ∧ i.revision = parent.revision + 1 := by
  unfold checkRevision
  cases hp : i.supersedesId with
  | none => simp
  | some p =>
    cases hfound : itemById (x.listForWorkspace t w) p with
    | none =>
      have hno : ¬ x.Holds t w p := isNone_itemById.mp (Option.isNone_iff_eq_none.mpr hfound)
      simp only [hfound, reduceCtorEq, false_iff]
      intro hall
      obtain ⟨parent, hmem, hid, hpt, hpw, -⟩ := hall p rfl
      exact hno ⟨parent, hmem, hid, hpt, hpw⟩
    | some parent =>
      obtain ⟨hmem, hid, hpt, hpw⟩ := itemById_eq_some.mp hfound
      simp only [hfound, ite_eq_right_iff, reduceCtorEq, imp_false, not_not]
      constructor
      · rintro hrev p' ⟨⟩
        exact ⟨parent, hmem, hid, hpt, hpw, hrev⟩
      · intro hall
        obtain ⟨parent', hmem', hid', -, -, hrev⟩ := hall p rfl
        rw [← x.items.eq_of_key_eq hmem' hmem (hid'.trans hid.symm)]
        exact hrev

/-- An edge passes when its ends and its provenance are memories of the workspace. -/
theorem checkEdge_eq_none {e : MemoryEdge} :
    checkEdge (x.listForWorkspace t w) e = none ↔
      (x.Holds t w e.srcId ∧ x.Holds t w e.dstId) ∧
        ∀ p, e.provenanceItemId = some p → x.Holds t w p := by
  have hends : endsPresent (x.listForWorkspace t w) e = true ↔
      x.Holds t w e.srcId ∧ x.Holds t w e.dstId := by
    rw [endsPresent, Bool.and_eq_true, isSome_itemById, isSome_itemById]
  have hprov : (e.provenanceItemId.any fun p => (itemById (x.listForWorkspace t w) p).isNone) =
      true ↔ ¬ ∀ p, e.provenanceItemId = some p → x.Holds t w p := by
    cases e.provenanceItemId with
    | none => simp
    | some p =>
      rw [Option.any_some, isNone_itemById]
      simp
  unfold checkEdge
  by_cases hboth : x.Holds t w e.srcId ∧ x.Holds t w e.dstId
  · rw [if_neg (not_not.mpr (hends.mpr hboth)), ite_eq_right_iff, hprov]
    simp [hboth]
  · rw [if_pos (mt hends.mp hboth)]
    simp [hboth]

/-- An observation passes when its evidence is memories of the workspace. -/
theorem checkObservation_eq_nil {o : Observation} :
    checkObservation (x.listForWorkspace t w) o = [] ↔
      ∀ id ∈ o.evidenceIds, x.Holds t w id := by
  rw [checkObservation, List.map_eq_nil_iff, List.filter_eq_nil_iff]
  apply forall₂_congr
  intro id _
  rw [isNone_itemById, not_not]

/-- The checks of references find errors only. -/
theorem severity_of_check {items : List MemoryItem} {i : VaultHealthIssue}
    (h : (∃ item, checkRevision items item = some i) ∨ (∃ e, checkEdge items e = some i) ∨
      ∃ o, i ∈ checkObservation items o) : i.severity = .error := by
  obtain ⟨item, h⟩ | ⟨e, h⟩ | ⟨o, h⟩ := h
  · unfold checkRevision at h
    split at h
    · cases h
    · split at h
      · cases h
        rfl
      · split at h
        · cases h
          rfl
        · cases h
  · unfold checkEdge at h
    split at h
    · cases h
      rfl
    · split at h
      · cases h
        rfl
      · cases h
  · obtain ⟨id, -, rfl⟩ := List.mem_map.mp h
    rfl

theorem countP_severity {issues : List VaultHealthIssue}
    (h : ∀ i ∈ issues, i.severity = .error) :
    issues.countP (fun i => i.severity = .error) = 0 ↔ issues = [] := by
  have hall : issues.countP (fun i => i.severity = .error) = issues.length :=
    List.countP_eq_length.mpr fun i hi => decide_eq_true (h i hi)
  rw [hall, List.length_eq_zero_iff]

/-- The report has no error exactly when the references of the workspace are intact. -/
theorem errorCount_eq_zero_iff : (inspect x t w).errorCount = 0 ↔ x.Intact t w := by
  set items := x.listForWorkspace t w with hitems
  have hrevisions : ∀ i ∈ checkRevisionChains items, i.severity = .error := by
    intro i hi
    obtain ⟨item, -, h⟩ := List.mem_filterMap.mp hi
    exact severity_of_check (.inl ⟨item, h⟩)
  have hedges : ∀ i ∈ (checkEdges items (x.listEdgesForWorkspace t w)).1, i.severity = .error := by
    intro i hi
    obtain ⟨e, -, h⟩ := List.mem_filterMap.mp hi
    exact severity_of_check (.inr (.inl ⟨e, h⟩))
  have hevidence : ∀ i ∈ (checkObservations items (x.listObservations t w)).1,
      i.severity = .error := by
    intro i hi
    obtain ⟨o, -, h⟩ := List.mem_flatMap.mp hi
    exact severity_of_check (.inr (.inr ⟨o, h⟩))
  -- the findings of the three checks are the errors, the unlinked heads only warn
  have hzero : (inspect x t w).errorCount = 0 ↔
      checkRevisionChains items = [] ∧ (checkEdges items (x.listEdgesForWorkspace t w)).1 = [] ∧
        (checkObservations items (x.listObservations t w)).1 = [] := by
    unfold VaultHealthReport.errorCount inspect
    simp only [(sortedBy_perm _ _).countP_eq, List.countP_append, Nat.add_eq_zero_iff, and_assoc]
    rw [countP_severity hrevisions, countP_severity hedges, countP_severity hevidence]
    simp [unlinkedIssue]
  rw [hzero, checkRevisionChains, checkEdges, checkObservations, List.filterMap_eq_nil_iff,
    List.filterMap_eq_nil_iff, List.flatMap_eq_nil_iff]
  constructor
  · rintro ⟨hrev, hedge, hobs⟩
    have hpass := fun e he ht hw =>
      checkEdge_eq_none.mp (hedge e (mem_listEdgesForWorkspace.mpr ⟨he, ht, hw⟩))
    refine ⟨fun i hi ht hw => ?_, fun e he ht hw => (hpass e he ht hw).1,
      fun e he ht hw => (hpass e he ht hw).2, fun o ho ht hw => ?_⟩
    · exact checkRevision_eq_none.mp
        (hrev i (Ledger.mem_listForWorkspace.mpr ⟨hi, ht, hw, .inl rfl⟩))
    · exact checkObservation_eq_nil.mp (hobs o (mem_listObservations.mpr ⟨ho, ht, hw⟩))
  · intro h
    refine ⟨fun i hi => ?_, fun e he => ?_, fun o ho => ?_⟩
    · obtain ⟨hmem, ht, hw, -⟩ := Ledger.mem_listForWorkspace.mp hi
      exact checkRevision_eq_none.mpr (h.parents i hmem ht hw)
    · obtain ⟨hmem, ht, hw⟩ := mem_listEdgesForWorkspace.mp he
      exact checkEdge_eq_none.mpr ⟨h.endpoints e hmem ht hw, h.provenance e hmem ht hw⟩
    · obtain ⟨hmem, ht, hw⟩ := mem_listObservations.mp ho
      exact checkObservation_eq_nil.mpr (h.evidence o hmem ht hw)

end VaultHealthService

variable {c : LinkCommand} {d : Draws}

/-- What a command asks of the store before it is linked. -/
structure LinkCommand.Accepted (c : LinkCommand) (x : VaultStore) : Prop where
  src : x.Holds c.tenantId c.workspaceId c.srcId
  dst : x.Holds c.tenantId c.workspaceId c.dstId
  apart : c.srcId ≠ c.dstId
  weight : 0 ≤ c.weight ∧ c.weight ≤ 1

namespace GraphService

/-- Linking checks the ends and the weight, and saves the edge. -/
theorem link_cases (c : LinkCommand) (d : Draws) (x : VaultStore) :
    (c.Accepted x ∧ ∃ edge : MemoryEdge, edge.toEdgeFields = edgeFields c d ∧
      link c d x = (.ok (x.saveEdge edge c.auditEvent).1, (x.saveEdge edge c.auditEvent).2)) ∨
    (¬ c.Accepted x ∧ ∃ e, link c d x = (.error e, x)) := by
  -- an end that the tenant's ledger lacks is not in the workspace
  have hmissing : ∀ id, x.get c.tenantId id = none → ¬ x.Holds c.tenantId c.workspaceId id := by
    rintro id hnone ⟨i, hi, hid, ht, -⟩
    exact Ledger.get_eq_none.mp hnone i hi hid ht
  have hplace : ∀ id i, x.get c.tenantId id = some i →
      (x.Holds c.tenantId c.workspaceId id ↔ i.workspaceId = c.workspaceId) := by
    intro id i hsome
    obtain ⟨hi, hid, ht⟩ := Ledger.get_eq_some.mp hsome
    constructor
    · rintro ⟨j, hj, hjd, -, hjw⟩
      rw [← x.items.eq_of_key_eq hj hi (hjd.trans hid.symm)]
      exact hjw
    · intro hw
      exact ⟨i, hi, hid, ht, hw⟩
  unfold link
  cases hsrc : x.get c.tenantId c.srcId with
  | none => exact .inr ⟨fun h => hmissing _ hsrc h.src, _, rfl⟩
  | some src =>
    cases hdst : x.get c.tenantId c.dstId with
    | none => exact .inr ⟨fun h => hmissing _ hdst h.dst, _, rfl⟩
    | some dst =>
      by_cases hws : src.workspaceId ≠ c.workspaceId ∨ dst.workspaceId ≠ c.workspaceId
      · refine .inr ⟨fun h => ?_, _, if_pos hws⟩
        obtain hws | hws := hws
        · exact hws ((hplace _ _ hsrc).mp h.src)
        · exact hws ((hplace _ _ hdst).mp h.dst)
      · simp only [if_neg hws]
        rw [not_or, not_not, not_not] at hws
        cases hnew : MemoryEdge.new (edgeFields c d) with
        | error e =>
          refine .inr ⟨fun h => ?_, e, rfl⟩
          obtain ⟨edge, hedge⟩ := MemoryEdge.exists_new_iff.mpr
            ((EdgeFields.postInit_eq_ok (e := edgeFields c d) rfl).mpr ⟨h.apart, h.weight⟩)
          rw [hnew] at hedge
          cases hedge
        | ok edge =>
          obtain ⟨hapart, hweight⟩ := (EdgeFields.postInit_eq_ok (e := edgeFields c d) rfl).mp
            (MemoryEdge.exists_new_iff.mp ⟨edge, hnew⟩)
          exact .inl ⟨⟨(hplace _ _ hsrc).mpr hws.1, (hplace _ _ hdst).mpr hws.2, hapart, hweight⟩,
            edge, MemoryEdge.new_eq_ok.mp hnew, rfl⟩

end GraphService

end Laws

end MemoryPlane
