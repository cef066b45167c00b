import MemoryPlane.Services.ConflictEvidence

/-!
# Reflection service

Reflection derives observations from the semantic memories of a workspace, one for each value of
a slot with at least two memories. The observation of the newest memory's value is current and
the others are stale. Observations are only added: a run leaves out those whose key, which names
the summary, the evidence and the staleness, was recorded before.
-/

namespace MemoryPlane

/-- Fields of a consolidated belief. -/
structure ObservationFields where
  tenantId : UUID
  workspaceId : UUID
  summary : String
  evidenceIds : List UUID
  id : UUID
  confidence : ℚ
  stale : Bool
  createdAt : DateTime
  deriving DecidableEq

/-- `Observation.__post_init__`. -/
def ObservationFields.postInit (o : ObservationFields) : Except Exn Unit :=
  if Text.isBlank o.summary then .error (.valueError "observation summary must not be empty")
  else if o.evidenceIds = [] then
    .error (.valueError "observation requires at least one evidence item")
  else .ok ()

/-- An observation that passed its constructor. -/
structure Observation extends ObservationFields where
  valid : toObservationFields.postInit = .ok ()
  deriving DecidableEq

/-- Construction, which runs the checks. -/
def Observation.new (o : ObservationFields) : Except Exn Observation :=
  match h : o.postInit with
  | .ok () => .ok ⟨o, h⟩
  | .error e => .error e

/-- Construction of an audit record, which runs its checks. -/
def AuditEvent.new (a : AuditFields) : Except Exn AuditEvent :=
  match h : a.postInit with
  | .ok () => .ok ⟨a, h⟩
  | .error e => .error e

/-- The in-memory store with its observations. -/
structure ObservationStore extends InMemoryMemoryStore where
  observations : Table Observation fun o => o.id

namespace ObservationStore

def empty : ObservationStore := ⟨InMemoryMemoryStore.empty, Table.empty⟩

variable (x : ObservationStore)

/-- Store a derived observation without mutating evidence; a stored one stays. -/
def save (o : Observation) (audit : Option AuditEvent) : Observation × ObservationStore :=
  let observations := x.observations.setDefault o
  ((observations.find o.id).getD o,
    { toInMemoryMemoryStore := x.appendAuditEvent audit, observations := observations })

/-- List the observations of a workspace. -/
def listObservations (tenantId workspaceId : UUID) : List Observation :=
  x.observations.rows.filter fun o => o.tenantId = tenantId ∧ o.workspaceId = workspaceId

end ObservationStore

namespace ReflectionService

open ConflictService

/-- What the memories of one value of a slot amount to. -/
structure Belief where
  summary : String
  evidenceIds : List UUID
  confidence : ℚ
  stale : Bool
  deriving DecidableEq

/-- `_observation_key`. -/
def observationKey (summary : String) (evidenceIds : List UUID) (stale : Bool) : String :=
  let evidence := ",".intercalate ((sortedBy id evidenceIds).map UUID.str)
  let flag := if stale then "True" else "False"
  s!"{summary}|{evidence}|stale={flag}"

def Belief.key (b : Belief) : String := observationKey b.summary b.evidenceIds b.stale

/-- The key under which an observation counts as recorded. -/
def keyOf (o : Observation) : String := observationKey o.summary o.evidenceIds o.stale

variable (rt : Runtime)

/-- Boost repeated evidence, but penalize slots with conflicting values. -/
def confidence (rows : List MemoryItem) (conflict : Bool) : ℚ :=
  let base := rt.round (rt.sum (rows.map fun i => i.confidence) / rows.length)
  let boost := if 1 < rows.length then rt.round (1 / 10) else 0
  let penalty := if conflict then rt.round (3 / 20) else 0
  min 1 (max 0 (rt.round (rt.round (base + boost) - penalty)))

/-- The belief of one value, given the newest memory of the slot. -/
def belief (latest : MemoryItem) (conflict : Bool) (rows : List MemoryItem) : Option Belief :=
  (rows.argmax fun i => i.createdAt).map fun newest =>
    { summary := newest.text
      evidenceIds := rows.map fun i => i.id
      confidence := confidence rt rows conflict
      stale := newest.id ≠ latest.id }

/-- The beliefs of one slot, values in order. -/
def slotBeliefs (facts : List Fact) : List Belief :=
  let groups := valueGroups facts
  if facts.length < 2 then []
  else
    match (facts.map Fact.item).argmax fun i => i.createdAt with
    | none => []
    | some latest =>
      (groups.filter fun g => ¬ (g.2.length < 2 ∧ groups.length = 1)).filterMap fun g =>
        belief rt latest (1 < groups.length) g.2

/-- The beliefs of a workspace, slots in the order of their first memories. -/
def beliefs (l : Ledger) (tenantId workspaceId : UUID) : List Belief :=
  (groupBy (fun f => f.slot.key) (factsOf rt l tenantId workspaceId)).flatMap fun g =>
    slotBeliefs rt g.2

/-- The name-based identifier of an observation. -/
def observationId (tenantId workspaceId : UUID) (key : String) : UUID :=
  rt.uuid5 namespaceUrl s!"uam:reflection:{tenantId.str}:{workspaceId.str}:{key}"

variable (tenantId workspaceId : UUID) (actor actorType : String)

/-- The observation of a belief and the record of its creation. -/
def prepare (b : Belief) (d : Draws) : Except Exn (Observation × AuditEvent) := do
  let o ← Observation.new
    { tenantId := tenantId
      workspaceId := workspaceId
      summary := b.summary
      evidenceIds := b.evidenceIds
      id := observationId rt tenantId workspaceId b.key
      confidence := b.confidence
      stale := b.stale
      createdAt := d.now 0 }
  let audit ← AuditEvent.new
    { tenantId := tenantId
      workspaceId := some workspaceId
      action := "reflection.observation.create"
      actor := actor
      actorType := actorType
      resourceType := "observation"
      resourceId := some o.id.str
      status := "succeeded"
      metadata := [("evidence_count", .int o.evidenceIds.length), ("stale", .bool o.stale)]
      id := d.uuid4 0
      createdAt := d.now 1 }
  return (o, audit)

/-- Save the observations of the beliefs whose keys are not recorded yet. -/
def createAll : List Belief → List String → Draws → ObservationStore →
    Except Exn (List Observation) × ObservationStore
  | [], _, _, x => (.ok [], x)
  | b :: rest, existing, d, x =>
    if b.key ∈ existing then createAll rest existing d x
    else
      match prepare rt tenantId workspaceId actor actorType b d with
      | .error e => (.error e, x)
      | .ok (o, audit) =>
        let (saved, y) := x.save o (some audit)
        let (created, z) := createAll rest (b.key :: existing) ((d.drop 1).tick 1) y
        (created.map fun os => saved :: os, z)

/-- The keys recorded for a workspace. -/
def existingKeys (x : ObservationStore) : List String :=
  (x.listObservations tenantId workspaceId).map keyOf

/-- Create deterministic observations for repeated or conflicting beliefs. -/
def reflect (d : Draws) (x : ObservationStore) :
    Except Exn (List Observation) × ObservationStore :=
  createAll rt tenantId workspaceId actor actorType (beliefs rt x.toLedger tenantId workspaceId)
    (existingKeys tenantId workspaceId x) d x

end ReflectionService

end MemoryPlane
