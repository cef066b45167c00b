import Mathlib.Data.Prod.Lex
import MemoryPlane.Domain.Records
import MemoryPlane.Lib.Leases
import MemoryPlane.Lib.Sequences
import MemoryPlane.Lib.Table

/-!
# Delivery tables

The outbox and the processed events of the PostgreSQL ledger, with one definition for each SQL
statement. A statement reads the clock once, sees the rows of one tenant and returns its result
together with the table it leaves behind.
-/

namespace MemoryPlane

/-- One leased outbox event and its current delivery attempt. -/
structure ClaimedEvent where
  event : IntegrationEvent
  attempts : ℕ
  attempts_pos : 1 ≤ attempts

/-- One row of `outbox_events`. -/
structure OutboxRow where
  event : IntegrationEvent
  publishedAt : Option DateTime
  attempts : ℕ
  lease : Lease String DateTime
  lastError : Option String
  deadLetteredAt : Option DateTime
  availableAt : DateTime
  deriving DecidableEq

abbrev OutboxEvents := Table OutboxRow fun r => r.event.id

/-- The row of a new event, with the defaults of the table. -/
def OutboxRow.fresh (event : IntegrationEvent) (now : DateTime) : OutboxRow where
  event := event
  publishedAt := none
  attempts := 0
  lease := .free
  lastError := none
  deadLetteredAt := none
  availableAt := now

/-- The rows that a claim may lease. -/
def OutboxRow.Due (tenantId : UUID) (now : DateTime) (r : OutboxRow) : Prop :=
  r.event.tenantId = tenantId ∧ r.publishedAt = none ∧ r.deadLetteredAt = none ∧
    r.availableAt ≤ now ∧ r.lease.Available now

instance (tenantId : UUID) (now : DateTime) (r : OutboxRow) : Decidable (r.Due tenantId now) := by
  unfold OutboxRow.Due
  infer_instance

/-- The unpublished row of an event that a worker has leased. -/
def OutboxRow.OwnedBy (tenantId eventId : UUID) (workerId : String) (r : OutboxRow) : Prop :=
  r.event.tenantId = tenantId ∧ r.event.id = eventId ∧ r.lease.owner = some workerId ∧
    r.publishedAt = none

instance (tenantId eventId : UUID) (workerId : String) (r : OutboxRow) :
    Decidable (r.OwnedBy tenantId eventId workerId) := by
  unfold OutboxRow.OwnedBy
  infer_instance

namespace OutboxEvents

/-- `insert into outbox_events`; the primary key refuses a second event with the identifier. -/
def insert (t : OutboxEvents) (event : IntegrationEvent) (now : DateTime) : OutboxEvents :=
  t.setDefault (.fresh event now)

/-- The due rows that a claim takes. -/
def due (t : OutboxEvents) (now : DateTime) (tenantId : UUID) (limit : ℕ) : List OutboxRow :=
  (sortedBy (fun r : OutboxRow => toLex (r.event.occurredAt, r.event.id))
    (t.rows.filter fun r => r.Due tenantId now)).take limit

/-- The row after it was claimed. -/
def leased (now : DateTime) (workerId : String) (leaseSeconds : ℕ) (r : OutboxRow) : OutboxRow :=
  { r with
    lease := .granted workerId (now.plusSeconds leaseSeconds)
    attempts := r.attempts + 1
    lastError := none }

/-- Leasing a row keeps its event. -/
theorem leased_id (now : DateTime) (workerId : String) (leaseSeconds : ℕ) (r : OutboxRow) :
    (leased now workerId leaseSeconds r).event.id = r.event.id := rfl

/-- Lease due events. -/
def claimOutbox (t : OutboxEvents) (now : DateTime) (tenantId : UUID) (workerId : String)
    (limit leaseSeconds : ℕ) : List ClaimedEvent × OutboxEvents :=
  let rows := t.due now tenantId limit
  (rows.map fun r => ⟨r.event, r.attempts + 1, Nat.le_add_left ..⟩,
    t.updateWhere (fun r => r ∈ rows) (leased now workerId leaseSeconds)
      (leased_id now workerId leaseSeconds))

/-- The row after its publication was acknowledged. -/
def published (now : DateTime) (r : OutboxRow) : OutboxRow :=
  { r with publishedAt := some now, lease := .free, lastError := none }

/-- Publishing a row keeps its event. -/
theorem published_id (now : DateTime) (r : OutboxRow) :
    (published now r).event.id = r.event.id := rfl

/-- Acknowledge publication only for the worker holding the lease. -/
def markOutboxPublished (t : OutboxEvents) (now : DateTime) (tenantId eventId : UUID)
    (workerId : String) : Bool × OutboxEvents :=
  (t.rows.any fun r => r.OwnedBy tenantId eventId workerId,
    t.updateWhere (fun r => r.OwnedBy tenantId eventId workerId) (published now)
      (published_id now))

/-- The row after its lease was released. -/
def released (now : DateTime) (error : String) (maxAttempts retryDelaySeconds : ℕ)
    (r : OutboxRow) : OutboxRow :=
  { r with
    lease := .free
    lastError := some error
    availableAt := if maxAttempts ≤ r.attempts then now else now.plusSeconds retryDelaySeconds
    deadLetteredAt := if maxAttempts ≤ r.attempts then some now else r.deadLetteredAt }

/-- Releasing a row keeps its event. -/
theorem released_id (now : DateTime) (error : String) (maxAttempts retryDelaySeconds : ℕ)
    (r : OutboxRow) :
    (released now error maxAttempts retryDelaySeconds r).event.id = r.event.id := rfl

/-- Release a failed lease or dead-letter an exhausted event. -/
def releaseOutbox (t : OutboxEvents) (now : DateTime) (tenantId eventId : UUID)
    (workerId error : String) (maxAttempts retryDelaySeconds : ℕ) : Bool × OutboxEvents :=
  (t.rows.any fun r => r.OwnedBy tenantId eventId workerId,
    t.updateWhere (fun r => r.OwnedBy tenantId eventId workerId)
      (released now error maxAttempts retryDelaySeconds)
      (released_id now error maxAttempts retryDelaySeconds))

variable {t : OutboxEvents} {now : DateTime} {tenantId : UUID} {limit : ℕ} {r : OutboxRow}

/-- Every row picked is due. -/
theorem due_of_mem_due (h : r ∈ t.due now tenantId limit) : r ∈ t.rows ∧ r.Due tenantId now := by
  unfold due at h
  have hr := List.mem_of_mem_take h
  rw [mem_sortedBy, List.mem_filter] at hr
  exact ⟨hr.1, of_decide_eq_true hr.2⟩

/-- A claim that is large enough takes every due row. -/
theorem mem_due (hr : r ∈ t.rows) (hdue : r.Due tenantId now) (hlimit : t.rows.length ≤ limit) :
    r ∈ t.due now tenantId limit := by
  unfold due
  rw [List.take_of_length_le, mem_sortedBy, List.mem_filter]
  · exact ⟨hr, decide_eq_true hdue⟩
  · rw [(sortedBy_perm ..).length_eq]
    exact (List.length_filter_le ..).trans hlimit

end OutboxEvents

/-- Result of acquiring one event for one named consumer. -/
inductive ConsumerClaim where
  | acquired | completed | busy
  deriving DecidableEq

/-- What identifies a row of `processed_events`. -/
structure ProcessingKey where
  tenantId : UUID
  eventId : UUID
  consumer : String
  deriving DecidableEq

/-- One row of `processed_events`. -/
structure ProcessedRow where
  key : ProcessingKey
  lease : Lease String DateTime
  attempts : ℕ
  processedAt : Option DateTime
  lastError : Option String
  deriving DecidableEq

abbrev ProcessedEvents := Table ProcessedRow ProcessedRow.key

namespace ProcessedEvents

/-- `insert into processed_events ... on conflict do nothing returning event_id`. -/
def insertProcessing (t : ProcessedEvents) (now : DateTime) (key : ProcessingKey)
    (workerId : String) (leaseSeconds : ℕ) : Bool × ProcessedEvents :=
  match t.find key with
  | some _ => (false, t)
  | none => (true, t.put ⟨key, .granted workerId (now.plusSeconds leaseSeconds), 1, none, none⟩)

/-- `existing is not None and existing["processed_at"] is not None`. -/
def isProcessed (t : ProcessedEvents) (key : ProcessingKey) : Bool :=
  (t.find key).any fun r => r.processedAt.isSome

/-- The rows that a claim may take over. -/
def Takeable (now : DateTime) (key : ProcessingKey) (r : ProcessedRow) : Prop :=
  r.key = key ∧ r.processedAt = none ∧ r.lease.Available now

instance (now : DateTime) (key : ProcessingKey) (r : ProcessedRow) :
    Decidable (Takeable now key r) := by
  unfold Takeable
  infer_instance

/-- The row after a claim took it over. -/
def taken (now : DateTime) (workerId : String) (leaseSeconds : ℕ) (r : ProcessedRow) :
    ProcessedRow :=
  { r with
    lease := .granted workerId (now.plusSeconds leaseSeconds)
    attempts := r.attempts + 1
    lastError := none }

/-- Taking over keeps the key of the row. -/
theorem taken_key (now : DateTime) (workerId : String) (leaseSeconds : ℕ) (r : ProcessedRow) :
    (taken now workerId leaseSeconds r).key = r.key := rfl

/-- The conditional update of a claim. -/
def takeProcessing (t : ProcessedEvents) (now : DateTime) (key : ProcessingKey)
    (workerId : String) (leaseSeconds : ℕ) : Bool × ProcessedEvents :=
  (t.rows.any fun r => Takeable now key r,
    t.updateWhere (fun r => Takeable now key r) (taken now workerId leaseSeconds)
      (taken_key now workerId leaseSeconds))

/-- The unfinished row of an event that a worker has leased. -/
def OwnedBy (key : ProcessingKey) (workerId : String) (r : ProcessedRow) : Prop :=
  r.key = key ∧ r.lease.owner = some workerId ∧ r.processedAt = none

instance (key : ProcessingKey) (workerId : String) (r : ProcessedRow) :
    Decidable (OwnedBy key workerId r) := by
  unfold OwnedBy
  infer_instance

/-- The row after its completion. -/
def finished (now : DateTime) (r : ProcessedRow) : ProcessedRow :=
  { r with processedAt := some now, lease := .free, lastError := none }

/-- Completing keeps the key of the row. -/
theorem finished_key (now : DateTime) (r : ProcessedRow) : (finished now r).key = r.key := rfl

/-- Persist completion only for the worker holding the consumer lease. -/
def completeEventProcessing (t : ProcessedEvents) (now : DateTime) (key : ProcessingKey)
    (workerId : String) : Bool × ProcessedEvents :=
  (t.rows.any fun r => OwnedBy key workerId r,
    t.updateWhere (fun r => OwnedBy key workerId r) (finished now) (finished_key now))

/-- The row after its lease was given up. -/
def givenUp (error : String) (r : ProcessedRow) : ProcessedRow :=
  { r with lease := .free, lastError := some error }

/-- Giving up keeps the key of the row. -/
theorem givenUp_key (error : String) (r : ProcessedRow) : (givenUp error r).key = r.key := rfl

/-- Release a failed handler lease. -/
def releaseEventProcessing (t : ProcessedEvents) (key : ProcessingKey) (workerId error : String) :
    Bool × ProcessedEvents :=
  (t.rows.any fun r => OwnedBy key workerId r,
    t.updateWhere (fun r => OwnedBy key workerId r) (givenUp error) (givenUp_key error))

variable {t : ProcessedEvents} {now : DateTime} {r : ProcessedRow} {workerId : String}

/-- Only the row of its key can be owned, and only by the owner of its lease. -/
theorem not_ownedBy (hr : r ∈ t.rows) (hne : r.lease.owner ≠ some workerId) :
    ∀ x ∈ t.rows, ¬ OwnedBy r.key workerId x := by
  rintro x hx ⟨hkey, hown, -⟩
  rw [t.eq_of_key_eq hx hr hkey] at hown
  exact hne hown

/-- A completion or a release by another worker than the owner changes nothing. -/
theorem completeEventProcessing_of_not_owner (hr : r ∈ t.rows)
    (hne : r.lease.owner ≠ some workerId) :
    t.completeEventProcessing now r.key workerId = (false, t) := by
  have hnone : ∀ x ∈ t.rows, decide (OwnedBy r.key workerId x) = false :=
    fun x hx => decide_eq_false (not_ownedBy hr hne x hx)
  unfold completeEventProcessing
  rw [Table.updateWhere_of_none hnone, List.any_eq_false.mpr (by simpa using not_ownedBy hr hne)]

/-- Only the owner of the lease releases a row. -/
theorem releaseEventProcessing_of_not_owner {error : String} (hr : r ∈ t.rows)
    (hne : r.lease.owner ≠ some workerId) :
    t.releaseEventProcessing r.key workerId error = (false, t) := by
  have hnone : ∀ x ∈ t.rows, decide (OwnedBy r.key workerId x) = false :=
    fun x hx => decide_eq_false (not_ownedBy hr hne x hx)
  unfold releaseEventProcessing
  rw [Table.updateWhere_of_none hnone, List.any_eq_false.mpr (by simpa using not_ownedBy hr hne)]

end ProcessedEvents

end MemoryPlane
