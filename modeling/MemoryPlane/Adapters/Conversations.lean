import MemoryPlane.Adapters.InMemory
import MemoryPlane.Domain.Conversation

/-!
# In-memory conversation ledger

The same store also keeps the raw turns of conversations. A purge replaces one row by its
purged form and touches nothing else.
-/

namespace MemoryPlane

/-- The in-memory store with its turns. -/
structure ConversationStore extends InMemoryMemoryStore where
  turns : Table ConversationTurn fun t => t.id
  turnIdempotency : Table IdempotencyEntry fun e => (e.tenantId, e.key)
  deriving DecidableEq

namespace ConversationStore

def empty : ConversationStore := ⟨.empty, Table.empty, Table.empty⟩

variable (x : ConversationStore)

/-- Atomically append a raw conversation turn. -/
def appendTurn (turn : ConversationTurn) (idempotencyKey : Option String)
    (audit : Option AuditEvent) (event : Option IntegrationEvent) :
    Except Exn (ConversationTurn × Bool) × ConversationStore :=
  let key := scopeIdempotencyKey turn.workspaceId idempotencyKey
  match key.bind fun k => x.turnIdempotency.find (turn.tenantId, k) with
  | some e =>
    match x.turns.find e.itemId with
    | none => (.error (.keyError e.itemId.str), x)
    | some t => (.ok (t, false), x)
  | none =>
    let audited := x.toInMemoryMemoryStore.appendAuditEvent audit
    (.ok (turn, true),
      { toInMemoryMemoryStore :=
          match event with
          | none => audited
          | some e => audited.publish e
        turns := x.turns.put turn
        turnIdempotency :=
          match key with
          | none => x.turnIdempotency
          | some k => x.turnIdempotency.put ⟨turn.tenantId, k, turn.id⟩ })

/-- Return a raw conversation turn only for its owning tenant. -/
def getTurn (tenantId turnId : UUID) : Option ConversationTurn :=
  (x.turns.find turnId).filter fun t => t.tenantId = tenantId

/-- `_purge_turn_content`. -/
def purgeContent (tenantId turnId : UUID) (reason : String) : Bool × ConversationStore :=
  match x.getTurn tenantId turnId with
  | none => (false, x)
  | some turn => (true, { x with turns := x.turns.put (turn.purged reason) })

/-- Replace transcript text after curation, preserving audit identifiers. -/
def purgeTurnContent (tenantId turnId : UUID) : Bool × ConversationStore :=
  x.purgeContent tenantId turnId "purged_after_curation"

/-- The staged turns that are due, earliest expiry first. -/
def expiredTurns (tenantId workspaceId : UUID) (now : DateTime) (limit : ℕ) : List UUID :=
  let ordered := sortedBy (fun t : ConversationTurn => toLex (t.expiresAt.getD now, t.id))
    x.turns.rows
  let due := ordered.filter fun t =>
    t.tenantId = tenantId ∧ t.workspaceId = workspaceId ∧ t.expiresAt.any (fun e => e ≤ now) ∧
      ¬ t.IsPurged
  (due.map fun t => t.id).take limit

/-- Purge due staged transcripts without deleting their audit identity. -/
def purgeExpiredTurns (tenantId workspaceId : UUID) (now : DateTime) (limit : ℕ) :
    List UUID × ConversationStore :=
  let ids := x.expiredTurns tenantId workspaceId now limit
  (ids, ids.foldl (fun y id => (y.purgeContent tenantId id "purged_after_expiry").2) x)

variable {x}

theorem getTurn_eq_some {t id : UUID} {turn : ConversationTurn} :
    x.getTurn t id = some turn ↔ turn ∈ x.turns.rows ∧ turn.id = id ∧ turn.tenantId = t := by
  simp [getTurn, Option.filter_eq_some_iff, Table.find_eq_some, and_assoc]

/-- A purge of a stored turn is confirmed, and the turn is found purged. -/
theorem purgeContent_of_getTurn {t id : UUID} {turn : ConversationTurn} (reason : String)
    (h : x.getTurn t id = some turn) :
    (x.purgeContent t id reason).1 = true ∧
      (x.purgeContent t id reason).2.getTurn t id = some (turn.purged reason) := by
  obtain ⟨-, hid, ht⟩ := getTurn_eq_some.mp h
  unfold purgeContent
  rw [h]
  refine ⟨rfl, getTurn_eq_some.mpr ⟨Table.mem_put.mpr (.inl rfl), hid, ht⟩⟩

/-- A purge touches the turns alone. -/
@[simp] theorem purgeContent_store (t id : UUID) (reason : String) :
    (x.purgeContent t id reason).2.toInMemoryMemoryStore = x.toInMemoryMemoryStore := by
  unfold purgeContent
  cases x.getTurn t id <;> rfl

theorem purgeExpiredTurns_store (t w : UUID) (now : DateTime) (limit : ℕ) :
    (x.purgeExpiredTurns t w now limit).2.toInMemoryMemoryStore = x.toInMemoryMemoryStore := by
  unfold purgeExpiredTurns
  simp only
  generalize x.expiredTurns t w now limit = ids
  induction ids generalizing x with
  | nil => rfl
  | cons id ids ih =>
    rw [List.foldl_cons, ih]
    exact purgeContent_store ..

/-- Appending a turn leaves items, keys and proposals alone. -/
theorem appendTurn_tables (turn : ConversationTurn) (key : Option String)
    (audit : Option AuditEvent) (event : Option IntegrationEvent) :
    let s := (x.appendTurn turn key audit event).2.toInMemoryMemoryStore
    s.items = x.items ∧ s.idempotency = x.idempotency ∧ s.proposals = x.proposals := by
  unfold appendTurn
  simp only
  split
  · split <;> exact ⟨rfl, rfl, rfl⟩
  · cases event with
    | none => cases audit <;> exact ⟨rfl, rfl, rfl⟩
    | some e =>
      simp only [InMemoryMemoryStore.publish]
      split <;> cases audit <;> exact ⟨rfl, rfl, rfl⟩

end ConversationStore

end MemoryPlane
