import MemoryPlane.Adapters.InMemory

/-!
# What a repository call writes

The tables that memories and proposals share, whichever adapter keeps them, and the possible
outcomes of each writing call on them. Both adapters meet these descriptions; what follows from
them holds of both.
-/

namespace MemoryPlane

open Ledger

/-- The ledger and the proposals of an adapter. -/
structure ReviewTables extends Ledger where
  proposals : Table MemoryProposal fun p => p.id

namespace ReviewTables

/-- The tables without rows. -/
def empty : ReviewTables := ⟨Ledger.empty, Table.empty⟩

/-- A proposal, for its owning tenant. -/
def getProposal (v : ReviewTables) (tenantId proposalId : UUID) : Option MemoryProposal :=
  (v.proposals.find proposalId).filter fun p => p.tenantId = tenantId

theorem getProposal_eq_some {v : ReviewTables} {t id : UUID} {p : MemoryProposal} :
    v.getProposal t id = some p ↔ p ∈ v.proposals.rows ∧ p.id = id ∧ p.tenantId = t := by
  simp [getProposal, Option.filter_eq_some_iff, Table.find_eq_some, and_assoc]

/-- The entry of a key, if the key was used. -/
def keyEntry (v : ReviewTables) (tenantId : UUID) (key : Option String) : Option IdempotencyEntry :=
  key.bind fun k => v.idempotency.find (tenantId, k)

/-- The tables after one write; the outbox drops an event whose identifier it holds already. -/
structure Writes (v : ReviewTables) (w : Write) (t : ReviewTables) : Prop where
  items : t.items = v.items.put w.item
  idempotency : t.idempotency = (v.toLedger.commit w).idempotency
  events : (∀ e ∈ v.events, e.id ≠ w.event.id) → t.events = v.events ++ [w.event]

theorem Writes.ledger {v t : ReviewTables} {w : Write} (h : v.Writes w t)
    (hevent : ∀ e ∈ v.events, e.id ≠ w.event.id) : t.toLedger = v.toLedger.commit w := by
  have hevents := h.events hevent
  have hitems := h.items
  have hkeys := h.idempotency
  rcases t with ⟨⟨items, keys, events⟩, proposals⟩
  simp only at hitems hkeys hevents ⊢
  rw [hitems, hkeys, hevents]
  rfl

end ReviewTables

open ReviewTables

/-- The outcome of a call that writes one item under an optional key. -/
inductive WriteOutcome (v : ReviewTables) (w : Write) :
    Except Exn (MemoryItem × Bool) → ReviewTables → Prop
  /-- The key was used before and its item is returned. -/
  | replayed (e : IdempotencyEntry) (i : MemoryItem)
      (entry : v.keyEntry w.item.tenantId w.key = some e)
      (stored : v.items.find e.itemId = some i) :
      WriteOutcome v w (.ok (i, false)) v
  /-- The call raised and left nothing behind. -/
  | raised (e : Exn) : WriteOutcome v w (.error e) v
  /-- The item was appended with its event and its key. -/
  | committed (t : ReviewTables) (unused : v.keyEntry w.item.tenantId w.key = none)
      (writes : v.Writes w t) (proposals : t.proposals = v.proposals) :
      WriteOutcome v w (.ok (w.item, true)) t

/-- The outcome of submitting a proposal. -/
inductive SubmitOutcome (v : ReviewTables) (proposal : MemoryProposal) :
    Except Exn (MemoryProposal × Bool) → ReviewTables → Prop
  /-- The key was used before and its proposal is returned. -/
  | replayed (p : MemoryProposal) : SubmitOutcome v proposal (.ok (p, false)) v
  | raised (e : Exn) : SubmitOutcome v proposal (.error e) v
  | stored : SubmitOutcome v proposal (.ok (proposal, true))
      { v with proposals := v.proposals.put proposal }

/-- The outcome of saving a reviewed copy. -/
inductive SaveOutcome (v : ReviewTables) (proposal : MemoryProposal) :
    Except Exn MemoryProposal → ReviewTables → Prop
  | raised (e : Exn) : SaveOutcome v proposal (.error e) v
  /-- The row `q` replaces the stored proposal; it has the status of the copy. -/
  | saved (current q : MemoryProposal)
      (found : v.getProposal proposal.tenantId proposal.id = some current)
      (id : q.id = proposal.id) (tenant : q.tenantId = proposal.tenantId)
      (status : q.status = proposal.status) :
      SaveOutcome v proposal (.ok proposal) { v with proposals := v.proposals.put q }

/-- The outcome of an acceptance. -/
inductive AcceptOutcome (v : ReviewTables) (proposal : MemoryProposal) (w : Write)
    (reviewed : MemoryProposal → MemoryProposal) :
    Except Exn (MemoryProposal × MemoryItem × Bool) → ReviewTables → Prop
  /-- The key was used before; the proposal stays as it is. -/
  | replayed (current : MemoryProposal) (e : IdempotencyEntry) (i : MemoryItem)
      (found : v.getProposal proposal.tenantId proposal.id = some current)
      (notRejected : current.status ≠ .rejected)
      (entry : v.keyEntry w.item.tenantId w.key = some e)
      (stored : v.items.find e.itemId = some i) :
      AcceptOutcome v proposal w reviewed (.ok (current, i, false)) v
  /-- The proposal was accepted before and its item is returned. -/
  | recovered (current : MemoryProposal) (i : MemoryItem)
      (found : v.getProposal proposal.tenantId proposal.id = some current)
      (unused : v.keyEntry w.item.tenantId w.key = none)
      (accepted : current.status = .accepted)
      (named : current.metadata.get "accepted_memory_id" = some (.str i.id.str))
      (stored : i ∈ v.items.rows) :
      AcceptOutcome v proposal w reviewed (.ok (current, i, false)) v
  | raised (e : Exn) : AcceptOutcome v proposal w reviewed (.error e) v
  /-- The item was appended and the proposal marked as accepted. -/
  | committed (current : MemoryProposal) (t : ReviewTables)
      (found : v.getProposal proposal.tenantId proposal.id = some current)
      (unused : v.keyEntry w.item.tenantId w.key = none)
      (notRejected : current.status ≠ .rejected) (notAccepted : current.status ≠ .accepted)
      (writes : v.Writes w t) (proposals : t.proposals = v.proposals.put (reviewed current)) :
      AcceptOutcome v proposal w reviewed (.ok (reviewed current, w.item, true)) t

namespace InMemoryMemoryStore

/-- The tables of the in-memory store. -/
def tables (s : InMemoryMemoryStore) : ReviewTables := ⟨s.toLedger, s.proposals⟩

@[simp] theorem tables_toLedger (s : InMemoryMemoryStore) : s.tables.toLedger = s.toLedger := rfl

@[simp] theorem tables_proposals (s : InMemoryMemoryStore) : s.tables.proposals = s.proposals := rfl

@[simp] theorem tables_empty : InMemoryMemoryStore.empty.tables = ReviewTables.empty := rfl

end InMemoryMemoryStore

end MemoryPlane
