import Mathlib.Data.Int.Order.Basic
import Mathlib.Order.Lattice
import MemoryPlane.Python.Json
import MemoryPlane.Python.UUID

/-!
# Memory items

The canonical memory atom and its vocabulary. `MemoryFields` is the plain record; a
`MemoryItem` is a record that passed the checks of its constructor, so that every stored or
derived item is valid by construction. A moment is a number of microseconds, a float is its
exact value.
-/

namespace MemoryPlane

/-- The instant that an aware datetime names, in microseconds. What is stored, ordered and compared
with a clock is the instant; the zone that a datetime is shown in matters where datetimes themselves
are compared, and is kept there. -/
def DateTime : Type := ℤ
  deriving DecidableEq

namespace DateTime

/-- The moment a number of microseconds after the epoch. -/
def ofMicros (n : ℤ) : DateTime := n

instance : LinearOrder DateTime := Int.instLinearOrder

/-- `t + timedelta(seconds=n)`. -/
def plusSeconds (t : DateTime) (n : ℕ) : DateTime := Int.add t (n * 1000000)

end DateTime

/-- The exceptions that the modelled code raises. -/
inductive Exn where
  | valueError (message : String)
  | keyError (message : String)
  | runtimeError (message : String)
  | typeError (message : String)
  | overflowError (message : String)
  /-- An error of the database driver: the violated constraint. -/
  | databaseError (constraint : String)
  /-- `MemoryRevisionConflictError`, with its `expected` and `actual` revisions. -/
  | revisionConflict (itemId : UUID) (expected actual : ℕ)
  deriving DecidableEq

/-- `isoformat` and `fromisoformat` with its handling of `Z` and of naive values, as far as the
instants go: a printed datetime carries the offset of its zone and is read back as one of the same
instant. -/
structure IsoFormat where
  format : DateTime → String
  parse : String → Except Exn DateTime
  parse_format : ∀ t, parse (format t) = .ok t
  format_nonempty : ∀ t, format t ≠ ""

/-- Cognitive tier used by storage and retrieval. -/
inductive MemoryLayer where
  | working | core | episodic | semantic | procedural | social | reflection | error
  deriving DecidableEq

def MemoryLayer.value : MemoryLayer → String
  | .working => "working"
  | .core => "core"
  | .episodic => "episodic"
  | .semantic => "semantic"
  | .procedural => "procedural"
  | .social => "social"
  | .reflection => "reflection"
  | .error => "error"

/-- Visibility boundary. -/
inductive MemoryScope where
  | «private» | thread | team | workspace | organization
  deriving DecidableEq

/-- The value of a scope. -/
def MemoryScope.value : MemoryScope → String
  | .private => "private"
  | .thread => "thread"
  | .team => "team"
  | .workspace => "workspace"
  | .organization => "organization"

/-- Lifecycle state used by retrieval and review. -/
inductive MemoryStatus where
  | active | stale | deprecated | disputed | hypothesis | rejected | archived | pinned
  deriving DecidableEq

/-- The value of a status. -/
def MemoryStatus.value : MemoryStatus → String
  | .active => "active"
  | .stale => "stale"
  | .deprecated => "deprecated"
  | .disputed => "disputed"
  | .hypothesis => "hypothesis"
  | .rejected => "rejected"
  | .archived => "archived"
  | .pinned => "pinned"

/-- Rejected and archived memory is a tombstone. -/
def MemoryStatus.isTombstone (s : MemoryStatus) : Bool := s == .rejected || s == .archived

/-- Trace from derived memory back to its source. -/
structure Provenance where
  sourceKind : String
  originUri : Option String := none
  objectKey : Option String := none
  checksumSha256 : Option String := none
  quote : Option String := none
  extractionVersion : String := "manual-v1"
  deriving DecidableEq

/-- The fields of a memory item. -/
structure MemoryFields where
  tenantId : UUID
  workspaceId : UUID
  layer : MemoryLayer
  scope : MemoryScope
  kind : String
  text : String
  provenance : Provenance
  id : UUID
  agentId : Option UUID
  threadId : Option UUID
  labels : List String
  metadata : JsonObject
  status : MemoryStatus
  importance : ℚ
  salience : ℚ
  confidence : ℚ
  observedAt : DateTime
  validFrom : Option DateTime
  validTo : Option DateTime
  createdAt : DateTime
  revision : ℕ
  supersedesId : Option UUID
  deriving DecidableEq

/-- Both ends of the validity window are given and the end does not follow the start. -/
def badWindow (validFrom validTo : Option DateTime) : Bool :=
  match validFrom, validTo with
  | some a, some b => decide (b ≤ a)
  | _, _ => false

theorem badWindow_eq_false {validFrom validTo : Option DateTime} :
    badWindow validFrom validTo = false ↔
      ∀ a b, validFrom = some a → validTo = some b → a < b := by
  cases validFrom <;> cases validTo <;> simp [badWindow]

/-- `__post_init__`: the checks across fields, in the order of the source. -/
def MemoryFields.postInit (m : MemoryFields) : Except Exn Unit :=
  if Text.isBlank m.text then
    .error (.valueError "memory text must not be empty")
  else if ¬(0 ≤ m.importance ∧ m.importance ≤ 1) then
    .error (.valueError "importance must be between 0 and 1")
  else if ¬(0 ≤ m.salience ∧ m.salience ≤ 1) then
    .error (.valueError "salience must be between 0 and 1")
  else if ¬(0 ≤ m.confidence ∧ m.confidence ≤ 1) then
    .error (.valueError "confidence must be between 0 and 1")
  else if badWindow m.validFrom m.validTo then
    .error (.valueError "valid_to must be after valid_from")
  else if m.scope = .thread ∧ m.threadId = none then
    .error (.valueError "thread-scoped memory requires thread_id")
  else if m.scope = .private ∧ m.agentId = none then
    .error (.valueError "private memory requires agent_id")
  else if m.status = .pinned ∧ m.layer ≠ .core then
    .error (.valueError "pinned memory must live in the core layer")
  else .ok ()

/-- What the checks establish. -/
structure MemoryFields.Valid (m : MemoryFields) : Prop where
  text : Text.isBlank m.text = false
  importance : 0 ≤ m.importance ∧ m.importance ≤ 1
  salience : 0 ≤ m.salience ∧ m.salience ≤ 1
  confidence : 0 ≤ m.confidence ∧ m.confidence ≤ 1
  window : ∀ a b, m.validFrom = some a → m.validTo = some b → a < b
  thread : m.scope = .thread → m.threadId ≠ none
  «private» : m.scope = .private → m.agentId ≠ none
  pinned : m.status = .pinned → m.layer = .core

/-- The constructor raises exactly on records that violate a check. -/
theorem MemoryFields.postInit_eq_ok {m : MemoryFields} : m.postInit = .ok () ↔ m.Valid := by
  unfold postInit
  constructor
  · intro h
    split at h
    · cases h
    split at h
    · cases h
    split at h
    · cases h
    split at h
    · cases h
    split at h
    · cases h
    split at h
    · cases h
    split at h
    · cases h
    split at h
    · cases h
    rename_i ht hi hs hc hw hth hpr hpi
    refine ⟨by simpa using ht, not_not.mp hi, not_not.mp hs, not_not.mp hc,
      badWindow_eq_false.mp (by simpa using hw), ?_, ?_, ?_⟩
    · exact fun h₁ h₂ => hth ⟨h₁, h₂⟩
    · exact fun h₁ h₂ => hpr ⟨h₁, h₂⟩
    · intro h₁
      by_contra h₂
      exact hpi ⟨h₁, h₂⟩
  · intro h
    rw [if_neg (by simp [h.text]), if_neg (not_not.mpr h.importance),
      if_neg (not_not.mpr h.salience), if_neg (not_not.mpr h.confidence),
      if_neg (by simp [badWindow_eq_false.mpr h.window]),
      if_neg fun hc => h.thread hc.1 hc.2, if_neg fun hc => h.private hc.1 hc.2,
      if_neg fun hc => hc.2 (h.pinned hc.1)]

/-- An append-only memory atom that passed its constructor. -/
structure MemoryItem extends MemoryFields where
  /-- The constructor raised nothing. -/
  valid : toMemoryFields.postInit = .ok ()
  deriving DecidableEq

namespace MemoryItem

/-- Construction, which runs the checks. -/
def new (m : MemoryFields) : Except Exn MemoryItem :=
  match h : m.postInit with
  | .ok () => .ok ⟨m, h⟩
  | .error e => .error e

/-- Construction returns exactly the valid item with the given fields. -/
theorem new_eq_ok {m : MemoryFields} {i : MemoryItem} :
    new m = .ok i ↔ i.toMemoryFields = m := by
  constructor
  · intro h
    unfold new at h
    split at h
    · cases h
      rfl
    · cases h
  · rintro rfl
    unfold new
    split
    · rfl
    · rename_i e he
      rw [i.valid] at he
      cases he

theorem new_eq_error {m : MemoryFields} {e : Exn} :
    new m = .error e ↔ m.postInit = .error e := by
  unfold new
  split
  · rename_i h
    simp [h]
  · rename_i e' h
    simp [h]

/-- `replace(self, metadata=...)`. -/
def replaceMetadata (i : MemoryItem) (metadata : JsonObject) : MemoryItem :=
  { i with metadata := metadata, valid := i.valid }

/-- `replace(self, provenance=..., metadata=...)`. -/
def replaceProvenance (i : MemoryItem) (provenance : Provenance) (metadata : JsonObject) :
    MemoryItem :=
  { i with provenance := provenance, metadata := metadata, valid := i.valid }

/-- Whether the item was valid at a moment. -/
def isValidAt (i : MemoryItem) (moment : DateTime) : Bool :=
  !((i.validFrom.any fun a => decide (moment < a)) || i.validTo.any fun b => decide (b ≤ moment))

/-- Create a new revision; the old item is neither changed nor erased. -/
def supersede (self : MemoryItem) (replacementText : String) (confidence : Option ℚ)
    (status : Option MemoryStatus) (newId : UUID) (now : DateTime) : Except Exn MemoryItem :=
  new { self.toMemoryFields with
    id := newId
    text := replacementText
    confidence := confidence.getD self.confidence
    status := status.getD self.status
    createdAt := now
    revision := self.revision + 1
    supersedesId := some self.id }

/-- A new revision differs from the old item in the named fields only. -/
theorem supersede_eq_ok {self i : MemoryItem} {text : String} {confidence : Option ℚ}
    {status : Option MemoryStatus} {newId : UUID} {now : DateTime} :
    self.supersede text confidence status newId now = .ok i ↔
      i.toMemoryFields = { self.toMemoryFields with
        id := newId
        text := text
        confidence := confidence.getD self.confidence
        status := status.getD self.status
        createdAt := now
        revision := self.revision + 1
        supersedesId := some self.id } := new_eq_ok

/-- Superseding raises nothing when the replaced fields are valid by themselves. -/
theorem exists_supersede (self : MemoryItem) {text : String} {confidence : Option ℚ}
    {status : Option MemoryStatus} (newId : UUID) (now : DateTime)
    (htext : Text.isBlank text = false)
    (hconf : 0 ≤ confidence.getD self.confidence ∧ confidence.getD self.confidence ≤ 1)
    (hstatus : status.getD self.status = .pinned → self.layer = .core) :
    ∃ i, self.supersede text confidence status newId now = .ok i := by
  have hv := MemoryFields.postInit_eq_ok.mp self.valid
  refine ⟨⟨_, MemoryFields.postInit_eq_ok.mpr ?_⟩, supersede_eq_ok.mpr rfl⟩
  exact ⟨htext, hv.importance, hv.salience, hconf, hv.window, hv.thread, hv.private, hstatus⟩

end MemoryItem

end MemoryPlane
