import Mathlib.Data.Prod.Lex
import MemoryPlane.Contracts.Commands
import MemoryPlane.Lib.Sequences
import MemoryPlane.Lib.Table
import MemoryPlane.Lib.VersionForest

/-!
# In-memory store

The canonical ledger, its outbox and the review records that share one lock. Every operation
returns its result or exception together with the store it leaves behind, so that writes made
before an exception stay visible.
-/

namespace MemoryPlane

/-- An idempotency key, as stored for a tenant, and the item it produced. -/
structure IdempotencyEntry where
  tenantId : UUID
  key : String
  itemId : UUID
  deriving DecidableEq

/-- Canonical items, idempotency entries and the outbox. -/
structure Ledger where
  items : Table MemoryItem fun i => i.id
  idempotency : Table IdempotencyEntry fun e => (e.tenantId, e.key)
  events : List IntegrationEvent
  deriving DecidableEq

/-- The store: the ledger with proposals, conflict reviews and audit events. -/
structure InMemoryMemoryStore extends Ledger where
  proposals : Table MemoryProposal fun p => p.id
  proposalIdempotency : Table IdempotencyEntry fun e => (e.tenantId, e.key)
  conflictReviews : Table ConflictReviewDecision fun d => (d.tenantId, d.caseId)
  auditEvents : Table AuditEvent fun a => a.id
  deriving DecidableEq

/-- `_scope_idempotency_key`. -/
def scopeIdempotencyKey (workspaceId : UUID) (key : Option String) : Option String :=
  key.map fun k => s!"{workspaceId.str}:{k}"

/-- `reviewer.strip()[:120] or "operator"`. -/
def reviewerName (reviewer : String) : String :=
  let name := Text.take 120 (Text.strip reviewer)
  if name = "" then "operator" else name

namespace Ledger

def empty : Ledger := ⟨Table.empty, Table.empty, []⟩

/-- Return an item only when its tenant matches exactly. -/
def get (l : Ledger) (tenantId itemId : UUID) : Option MemoryItem :=
  (l.items.find itemId).filter fun i => i.tenantId = tenantId

theorem get_eq_some {l : Ledger} {t id : UUID} {i : MemoryItem} :
    l.get t id = some i ↔ i ∈ l.items.rows ∧ i.id = id ∧ i.tenantId = t := by
  simp [get, Option.filter_eq_some_iff, Table.find_eq_some, and_assoc]

theorem get_eq_none {l : Ledger} {t id : UUID} :
    l.get t id = none ↔ ∀ i ∈ l.items.rows, i.id = id → i.tenantId ≠ t := by
  constructor
  · intro h i hi hid ht
    have hs := get_eq_some.mpr ⟨hi, hid, ht⟩
    rw [h] at hs
    cases hs
  · intro h
    cases hg : l.get t id with
    | none => rfl
    | some i =>
      obtain ⟨hi, hid, ht⟩ := get_eq_some.mp hg
      exact absurd ht (h i hi hid)

/-- A stored item is found under its own tenant and identifier. -/
theorem get_self {l : Ledger} {i : MemoryItem} (hi : i ∈ l.items.rows) :
    l.get i.tenantId i.id = some i := get_eq_some.mpr ⟨hi, rfl, rfl⟩

/-- Reject tombstones and every item with a newer revision child. -/
def isRecallableHead (l : Ledger) (tenantId itemId : UUID) : Bool :=
  match l.get tenantId itemId with
  | none => false
  | some i =>
    !i.status.isTombstone &&
      !l.items.rows.any fun c => c.tenantId = tenantId ∧ c.supersedesId = some itemId

/-- Active heads among a batch of identifiers. -/
def filterRecallableHeads (l : Ledger) (tenantId : UUID) (itemIds : List UUID) : List UUID :=
  itemIds.filter fun id => l.isRecallableHead tenantId id

theorem isRecallableHead_iff {l : Ledger} {t id : UUID} :
    l.isRecallableHead t id = true ↔
      ∃ i ∈ l.items.rows, i.id = id ∧ i.tenantId = t ∧ i.status.isTombstone = false ∧
        ∀ c ∈ l.items.rows, c.tenantId = t → c.supersedesId ≠ some id := by
  unfold isRecallableHead
  cases hg : l.get t id with
  | none =>
    have := get_eq_none.mp hg
    simp only [Bool.false_eq_true, false_iff]
    rintro ⟨i, hi, hid, ht, -⟩
    exact this i hi hid ht
  | some i =>
    obtain ⟨hi, hid, ht⟩ := get_eq_some.mp hg
    simp only [Bool.and_eq_true, Bool.not_eq_true', List.any_eq_false, decide_eq_true_eq, not_and]
    constructor
    · rintro ⟨hs, hc⟩
      exact ⟨i, hi, hid, ht, hs, hc⟩
    · rintro ⟨j, hj, hjd, hjt, hs, hc⟩
      obtain rfl := l.items.eq_of_key_eq hi hj (hid.trans hjd.symm)
      exact ⟨hs, hc⟩

/-- The largest stored revision. -/
def maxRevision (rows : List MemoryItem) : ℕ := rows.foldr (fun i m => max i.revision m) 0

theorem le_maxRevision {rows : List MemoryItem} {i : MemoryItem} (h : i ∈ rows) :
    i.revision ≤ maxRevision rows := by
  induction rows with
  | nil => simp at h
  | cons j rest ih =>
    rcases List.mem_cons.mp h with rfl | h
    · exact Nat.le_max_left ..
    · exact (ih h).trans (Nat.le_max_right ..)

/-- The first stored row that revises the current head. -/
def nextRevision (rows : List MemoryItem) (tenantId : UUID) (head : MemoryItem) :
    Option MemoryItem :=
  rows.find? fun c =>
    c.tenantId = tenantId ∧ c.supersedesId = some head.id ∧ head.revision < c.revision

/-- Each step of the loop raises the revision, which stored rows bound. -/
theorem nextRevision_measure (rows : List MemoryItem) (tenantId : UUID) (x y : MemoryItem)
    (h : nextRevision rows tenantId x = some y) :
    maxRevision rows + 1 - y.revision < maxRevision rows + 1 - x.revision := by
  have hmem := le_maxRevision (List.mem_of_find?_eq_some h)
  have hy := List.find?_some h
  simp only [decide_eq_true_eq] at hy
  omega

/-- Follow the append-only supersedes chain to its latest known head. -/
def latestDescendant (l : Ledger) (item : MemoryItem) : MemoryItem :=
  chase (nextRevision l.items.rows item.tenantId)
    (fun i => maxRevision l.items.rows + 1 - i.revision)
    (nextRevision_measure l.items.rows item.tenantId) item

/-- List workspace items in creation order with optional filters. -/
def listForWorkspace (l : Ledger) (tenantId workspaceId : UUID) (layers : List MemoryLayer := [])
    (status : Option MemoryStatus := none) (label : Option String := none)
    (limit : Option ℕ := none) (offset : ℕ := 0) : List MemoryItem :=
  let rows := l.items.rows.filter fun i =>
    i.tenantId = tenantId ∧ i.workspaceId = workspaceId ∧ (layers = [] ∨ i.layer ∈ layers) ∧
      (∀ s ∈ status, i.status = s) ∧ ∀ b ∈ label, b = "" ∨ b ∈ i.labels
  let ordered := (sortedBy (fun i : MemoryItem => toLex (i.createdAt, i.id)) rows).drop offset
  match limit with
  | none => ordered
  | some n => ordered.take n

/-- The rows of an unbounded listing. -/
theorem mem_listForWorkspace {l : Ledger} {t w : UUID} {layers : List MemoryLayer}
    {i : MemoryItem} :
    i ∈ l.listForWorkspace t w layers ↔
      i ∈ l.items.rows ∧ i.tenantId = t ∧ i.workspaceId = w ∧
        (layers = [] ∨ i.layer ∈ layers) := by
  simp [listForWorkspace]

/-- One canonical write: an item, the event that announces it, and its idempotency key. -/
structure Write where
  item : MemoryItem
  event : IntegrationEvent
  key : Option String := none

/-- Append one write. -/
def commit (l : Ledger) (w : Write) : Ledger where
  items := l.items.put w.item
  idempotency :=
    match w.key with
    | none => l.idempotency
    | some k => l.idempotency.put ⟨w.item.tenantId, k, w.item.id⟩
  events := l.events ++ [w.event]

/-- Append several writes. -/
def commitAll (l : Ledger) (ws : List Write) : Ledger := ws.foldl commit l

@[simp] theorem commitAll_nil (l : Ledger) : l.commitAll [] = l := rfl

@[simp] theorem commitAll_cons (l : Ledger) (w : Write) (ws : List Write) :
    l.commitAll (w :: ws) = (l.commit w).commitAll ws := rfl

@[simp] theorem events_commitAll (l : Ledger) (ws : List Write) :
    (l.commitAll ws).events = l.events ++ ws.map Write.event := by
  induction ws generalizing l with
  | nil => simp
  | cons w ws ih => simp [ih, commit]

/-- Fresh items are appended in the order of the writes. -/
theorem rows_commitAll {l : Ledger} {ws : List Write}
    (hf : ∀ w ∈ ws, l.items.find w.item.id = none) (hn : (ws.map fun w => w.item.id).Nodup) :
    (l.commitAll ws).items.rows = l.items.rows ++ ws.map Write.item := by
  induction ws generalizing l with
  | nil => simp
  | cons w ws ih =>
    rw [List.map_cons, List.nodup_cons] at hn
    have hw : l.items.find w.item.id = none := hf w (List.mem_cons_self ..)
    have hrows : (l.commit w).items.rows = l.items.rows ++ [w.item] :=
      Table.rows_put_of_fresh hw
    rw [commitAll_cons, ih _ hn.2, hrows]
    · simp
    · intro v hv
      have hne : v.item.id ≠ w.item.id := fun he =>
        hn.1 (List.mem_map.mpr ⟨v, hv, he⟩)
      have hput := Table.find_put l.items w.item v.item.id
      rw [if_neg hne] at hput
      exact hput.trans (hf v (List.mem_cons_of_mem _ hv))

/-- Writes without keys leave the keys alone. -/
theorem idempotency_commitAll {l : Ledger} {ws : List Write} (h : ∀ w ∈ ws, w.key = none) :
    (l.commitAll ws).idempotency = l.idempotency := by
  induction ws generalizing l with
  | nil => rfl
  | cons w ws ih =>
    rw [commitAll_cons, ih fun v hv => h v (List.mem_cons_of_mem _ hv)]
    simp [commit, h w (List.mem_cons_self ..)]

/-- An idempotency entry after the writes was there before or belongs to a write. -/
theorem mem_idempotency_commitAll {l : Ledger} {ws : List Write} {e : IdempotencyEntry}
    (h : e ∈ (l.commitAll ws).idempotency.rows) :
    e ∈ l.idempotency.rows ∨
      ∃ w ∈ ws, w.key = some e.key ∧ e.tenantId = w.item.tenantId ∧ e.itemId = w.item.id := by
  induction ws generalizing l with
  | nil => exact .inl h
  | cons w ws ih =>
    rcases ih h with h | ⟨v, hv, hrest⟩
    · unfold commit at h
      cases hk : w.key with
      | none => exact .inl (by simpa [hk] using h)
      | some k =>
        simp only [hk] at h
        rcases Table.mem_put.mp h with rfl | ⟨h, -⟩
        · exact .inr ⟨w, List.mem_cons_self .., hk, rfl, rfl⟩
        · exact .inl h
    · exact .inr ⟨v, List.mem_cons_of_mem _ hv, hrest⟩

end Ledger

namespace InMemoryMemoryStore

open Ledger

def empty : InMemoryMemoryStore where
  toLedger := Ledger.empty
  proposals := Table.empty
  proposalIdempotency := Table.empty
  conflictReviews := Table.empty
  auditEvents := Table.empty

variable (s : InMemoryMemoryStore)

/-- Append one immutable audit event, if one is given. -/
def appendAuditEvent (audit : Option AuditEvent) : InMemoryMemoryStore :=
  match audit with
  | none => s
  | some a => { s with auditEvents := s.auditEvents.setDefault a }

/-- Append an outbox event once by event ID. -/
def publish (e : IntegrationEvent) : InMemoryMemoryStore :=
  if ∀ x ∈ s.events, x.id ≠ e.id then { s with events := s.events ++ [e] } else s

/-- `self._items[...]`. -/
def itemAt (id : UUID) : Except Exn MemoryItem :=
  match s.items.find id with
  | none => .error (.keyError id.str)
  | some i => .ok i

/-- The entry that an idempotency key resolves to. -/
def replayed (tenantId : UUID) (key : Option String) : Option IdempotencyEntry :=
  key.bind fun k => s.idempotency.find (tenantId, k)

/-- Store an item and remember its key. -/
def putItem (item : MemoryItem) (key : Option String) : InMemoryMemoryStore :=
  { s with
    items := s.items.put item
    idempotency :=
      match key with
      | none => s.idempotency
      | some k => s.idempotency.put ⟨item.tenantId, k, item.id⟩ }

/-- Atomically append or return an idempotent prior result. -/
def append (item : MemoryItem) (idempotencyKey : Option String) :
    Except Exn (MemoryItem × Bool) × InMemoryMemoryStore :=
  let key := scopeIdempotencyKey item.workspaceId idempotencyKey
  match s.replayed item.tenantId key with
  | some e => ((s.itemAt e.itemId).map fun i => (i, false), s)
  | none => (.ok (item, true), s.putItem item key)

/-- Atomically append canonical memory and its outbox event. -/
def retain (item : MemoryItem) (event : IntegrationEvent) (idempotencyKey : Option String)
    (audit : Option AuditEvent) : Except Exn (MemoryItem × Bool) × InMemoryMemoryStore :=
  match s.append item idempotencyKey with
  | (.ok (stored, true), t) => (.ok (stored, true), (t.publish event).appendAuditEvent audit)
  | r => r

/-- CAS append a replacement and enqueue its derived-work event. -/
def supersedeIfCurrent (item : MemoryItem) (event : IntegrationEvent) (expectedRevision : ℕ)
    (idempotencyKey : Option String) (audit : Option AuditEvent) :
    Except Exn (MemoryItem × Bool) × InMemoryMemoryStore :=
  let key := scopeIdempotencyKey item.workspaceId idempotencyKey
  match item.supersedesId with
  | none => (.error (.valueError "replacement item must declare supersedes_id"), s)
  | some parentId =>
    match s.replayed item.tenantId key with
    | some e => ((s.itemAt e.itemId).map fun i => (i, false), s)
    | none =>
      match s.get item.tenantId parentId with
      | none => (.error (.keyError "memory item not found"), s)
      | some parent =>
        let child := s.latestDescendant parent
        if child.id ≠ parent.id ∨ parent.revision ≠ expectedRevision then
          (.error (.revisionConflict parentId expectedRevision child.revision), s)
        else
          (.ok (item, true), ((s.putItem item key).publish event).appendAuditEvent audit)

/-- Atomically append a memory proposal. -/
def appendProposal (proposal : MemoryProposal) (idempotencyKey : Option String)
    (audit : Option AuditEvent) : Except Exn (MemoryProposal × Bool) × InMemoryMemoryStore :=
  let key := scopeIdempotencyKey proposal.workspaceId idempotencyKey
  match key.bind fun k => s.proposalIdempotency.find (proposal.tenantId, k) with
  | some e =>
    match s.proposals.find e.itemId with
    | none => (.error (.keyError e.itemId.str), s)
    | some p => (.ok (p, false), s)
  | none =>
    let t := { s with
      proposals := s.proposals.put proposal
      proposalIdempotency :=
        match key with
        | none => s.proposalIdempotency
        | some k => s.proposalIdempotency.put ⟨proposal.tenantId, k, proposal.id⟩ }
    (.ok (proposal, true), t.appendAuditEvent audit)

/-- Return a memory proposal only for its owning tenant. -/
def getProposal (tenantId proposalId : UUID) : Option MemoryProposal :=
  (s.proposals.find proposalId).filter fun p => p.tenantId = tenantId

/-- Persist a reviewed proposal copy. -/
def saveProposalReview (proposal : MemoryProposal) (audit : Option AuditEvent) :
    Except Exn MemoryProposal × InMemoryMemoryStore :=
  match s.getProposal proposal.tenantId proposal.id with
  | none => (.error (.keyError "memory proposal not found"), s)
  | some _ =>
    (.ok proposal, { s with proposals := s.proposals.put proposal }.appendAuditEvent audit)

/-- The stored copy of a proposal after its acceptance. -/
def acceptedCopy (current : MemoryProposal) (item : MemoryItem) (reviewer reason : String)
    (now : DateTime) : MemoryProposal :=
  current.reviewed .accepted now (reviewerName reviewer) (Text.take 1000 (Text.strip reason))
    (current.metadata.set "accepted_memory_id" (.str item.id.str))

/-- Atomically transition an open proposal and append its memory and event; `now` is the
time of the review. -/
def acceptProposalWithMemory (proposal : MemoryProposal) (item : MemoryItem)
    (event : IntegrationEvent) (reviewer reason idempotencyKey : String)
    (audit : Option AuditEvent) (now : DateTime) :
    Except Exn (MemoryProposal × MemoryItem × Bool) × InMemoryMemoryStore :=
  let key := scopeIdempotencyKey item.workspaceId (some idempotencyKey)
  match s.getProposal proposal.tenantId proposal.id with
  | none => (.error (.keyError "memory proposal not found"), s)
  | some current =>
    if current.status = .rejected then
      (.error (.valueError "rejected proposal cannot be accepted"), s)
    else
      match s.replayed item.tenantId key with
      | some e => ((s.itemAt e.itemId).map fun i => (current, i, false), s)
      | none =>
        if current.status = .accepted then
          match current.metadata.get "accepted_memory_id" with
          | some (.str acceptedId) =>
            match s.items.rows.find? fun i => i.id.str = acceptedId with
            | some i => (.ok (current, i, false), s)
            | none => (.error (.runtimeError "accepted proposal is missing its durable memory"), s)
          | _ => (.error (.runtimeError "accepted proposal is missing its durable memory"), s)
        else
          let reviewed := acceptedCopy current item reviewer reason now
          let t := (s.putItem item key).publish event
          (.ok (reviewed, item, true),
            { t with proposals := t.proposals.put reviewed }.appendAuditEvent audit)

/-- Persist or replace a human conflict-review decision. -/
def saveConflictReview (decision : ConflictReviewDecision) (audit : Option AuditEvent) :
    ConflictReviewDecision × InMemoryMemoryStore :=
  (decision,
    { s with conflictReviews := s.conflictReviews.put decision }.appendAuditEvent audit)

/-- List persisted conflict-review decisions. -/
def listConflictReviews (tenantId workspaceId : UUID) : List ConflictReviewDecision :=
  s.conflictReviews.rows.filter fun d => d.tenantId = tenantId ∧ d.workspaceId = workspaceId

/-- The check of one write of a resolution. -/
def checkResolutionWrite (decision : ConflictReviewDecision) (w : MemoryItem × ℕ) :
    Except Exn Unit :=
  let (item, expectedRevision) := w
  if item.tenantId ≠ decision.tenantId ∨ item.workspaceId ≠ decision.workspaceId then
    .error (.valueError "conflict resolution write crosses decision scope")
  else
    match item.supersedesId with
    | none => .error (.valueError "conflict resolution replacement must declare supersedes_id")
    | some parentId =>
      match s.get item.tenantId parentId with
      | none => .error (.keyError "conflict evidence memory not found")
      | some parent =>
        let head := s.latestDescendant parent
        if head.id ≠ parent.id ∨ parent.revision ≠ expectedRevision then
          .error (.revisionConflict parent.id expectedRevision head.revision)
        else .ok ()

/-- The checks of all writes, in order. -/
def checkResolutionWrites (decision : ConflictReviewDecision) :
    List (MemoryItem × IntegrationEvent × ℕ) → Except Exn Unit
  | [] => .ok ()
  | (item, _, expectedRevision) :: rest =>
    match s.checkResolutionWrite decision (item, expectedRevision) with
    | .error e => .error e
    | .ok () => checkResolutionWrites decision rest

/-- The store after the writes of a resolution: every item under its identifier, every event
at the end of the outbox. -/
def putResolutionWrites (writes : List (MemoryItem × IntegrationEvent × ℕ)) :
    InMemoryMemoryStore :=
  writes.foldl (fun t w => { t with items := t.items.put w.1, events := t.events ++ [w.2.1] }) s

/-- The checks of all writes, then the writes and the review. -/
def validateThenApply (decision : ConflictReviewDecision)
    (writes : List (MemoryItem × IntegrationEvent × ℕ)) (audit : Option AuditEvent) :
    Except Exn ConflictReviewDecision × InMemoryMemoryStore :=
  match s.checkResolutionWrites decision writes with
  | .error e => (.error e, s)
  | .ok () =>
    let t := s.putResolutionWrites writes
    (.ok decision,
      { t with conflictReviews := t.conflictReviews.put decision }.appendAuditEvent audit)

/-- Atomically validate then apply resolution revisions, events and the review. -/
def applyConflictResolution (decision : ConflictReviewDecision)
    (writes : List (MemoryItem × IntegrationEvent × ℕ)) (audit : Option AuditEvent) :
    Except Exn ConflictReviewDecision × InMemoryMemoryStore :=
  match s.conflictReviews.find (decision.tenantId, decision.caseId) with
  | some existing =>
    if existing.appliedMemoryId = none then s.validateThenApply decision writes audit
    else if existing.status = decision.status ∧ existing.winnerValue = decision.winnerValue then
      (.ok existing, s)
    else (.error (.valueError "conflict resolution is already applied and immutable"), s)
  | none => s.validateThenApply decision writes audit

end InMemoryMemoryStore

end MemoryPlane
