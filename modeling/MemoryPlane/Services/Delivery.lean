import MemoryPlane.Adapters.Delivery
import MemoryPlane.Lib.Proc

/-!
# Delivery workers

The outbox relay moves claimed events to a transport and acknowledges confirmed sends; the
idempotent consumer runs a handler under a lease of its own. Both are programs of atomic
statements. The transport and the handlers are given: each has a state that its own calls change.
-/

namespace MemoryPlane

/-- A durable transport. A failed send raises; the text names the class and the error. -/
structure EventSink (τ : Type) where
  send : τ → IntegrationEvent → Except String Unit × τ

/-- What relays share: the clock, the outbox and the transport. -/
structure RelayWorld (τ : Type) where
  clock : DateTime
  outbox : OutboxEvents
  transport : τ
  /-- The events of which a send has succeeded. -/
  sent : List UUID

/-- Inspectable outcome of one bounded polling cycle. -/
structure RelayResult where
  claimed : ℕ
  published : ℕ
  failed : ℕ
  deriving DecidableEq

/-- A configured relay. -/
structure OutboxRelay where
  tenantId : UUID
  workerId : String
  batchSize : ℕ
  leaseSeconds : ℕ
  maxAttempts : ℕ
  retryBaseSeconds : ℕ
  retryMaxSeconds : ℕ
  worker_named : Text.isBlank workerId = false
  batch_bounded : 1 ≤ batchSize ∧ batchSize ≤ 1000
  lease_pos : 1 ≤ leaseSeconds
  attempts_pos : 1 ≤ maxAttempts
  base_pos : 1 ≤ retryBaseSeconds
  base_le_max : retryBaseSeconds ≤ retryMaxSeconds

namespace OutboxRelay

/-- The constructor, with its checks and defaults. -/
def create (tenantId : UUID) (workerId : String) (batchSize : ℕ := 50) (leaseSeconds : ℕ := 30)
    (maxAttempts : ℕ := 8) (retryBaseSeconds : ℕ := 5) (retryMaxSeconds : ℕ := 300) :
    Except Exn OutboxRelay :=
  if hw : Text.isBlank workerId = true then
    .error (.valueError "worker_id must not be empty")
  else if hb : 1 ≤ batchSize ∧ batchSize ≤ 1000 then
    if hl : leaseSeconds < 1 then .error (.valueError "lease_seconds must be positive")
    else if ha : maxAttempts < 1 then .error (.valueError "max_attempts must be positive")
    else if hr : retryBaseSeconds < 1 then
      .error (.valueError "retry_base_seconds must be positive")
    else if hm : retryMaxSeconds < retryBaseSeconds then
      .error (.valueError "retry_max_seconds must be >= retry_base_seconds")
    else
      .ok ⟨tenantId, workerId, batchSize, leaseSeconds, maxAttempts, retryBaseSeconds,
        retryMaxSeconds, Text.isBlank_eq_false hw, hb, Nat.le_of_not_lt hl, Nat.le_of_not_lt ha,
        Nat.le_of_not_lt hr, Nat.le_of_not_lt hm⟩
  else .error (.valueError "batch_size must be between 1 and 1000")

variable {τ : Type} (relay : OutboxRelay) (sink : EventSink τ)

/-- Capped exponential delay after the claimed delivery attempt. -/
def retryDelay (attempts : ℕ) : ℕ :=
  min relay.retryMaxSeconds (relay.retryBaseSeconds * 2 ^ (attempts - 1))

/-- `claim_outbox` in the world. -/
def claim (s : RelayWorld τ) : List ClaimedEvent × RelayWorld τ :=
  let r := s.outbox.claimOutbox s.clock relay.tenantId relay.workerId relay.batchSize
    relay.leaseSeconds
  (r.1, { s with outbox := r.2 })

/-- `mark_outbox_published` in the world. -/
def mark (event : IntegrationEvent) (s : RelayWorld τ) : Bool × RelayWorld τ :=
  let r := s.outbox.markOutboxPublished s.clock relay.tenantId event.id relay.workerId
  (r.1, { s with outbox := r.2 })

/-- `release_outbox` in the world. -/
def release (row : ClaimedEvent) (error : String) (s : RelayWorld τ) : Bool × RelayWorld τ :=
  let r := s.outbox.releaseOutbox s.clock relay.tenantId row.event.id relay.workerId
    (Text.take 2000 error) relay.maxAttempts (relay.retryDelay row.attempts)
  (r.1, { s with outbox := r.2 })

/-- One send in the world. -/
def send (event : IntegrationEvent) (s : RelayWorld τ) : Except String Unit × RelayWorld τ :=
  match sink.send s.transport event with
  | (.ok _, t) => (.ok (), { s with transport := t, sent := event.id :: s.sent })
  | (.error e, t) => (.error e, { s with transport := t })

/-- The loop over the claimed events. -/
def deliver : List ClaimedEvent → RelayResult → Proc (RelayWorld τ) Exn RelayResult
  | [], result => .done result
  | row :: rest, result => do
    match ← Proc.effect (send sink row.event) with
    | .error e => do
      let _ ← Proc.effect (release relay row e)
      deliver rest { result with failed := result.failed + 1 }
    | .ok _ => do
      let acknowledged ← Proc.effect (mark relay row.event)
      deliver rest { result with published := result.published + acknowledged.toNat }

/-- Claim a batch, publish each event and acknowledge only confirmed sends. -/
def runOnce : Proc (RelayWorld τ) Exn RelayResult := do
  let claimed ← Proc.effect (claim relay)
  deliver relay sink claimed ⟨claimed.length, 0, 0⟩

end OutboxRelay

/-- A handler raises or returns. -/
structure EventHandler (τ : Type) where
  handle : τ → IntegrationEvent → Except String Unit × τ

/-- What one run of a handler has done, in the words of its program. -/
inductive RunStage where
  | acquired | started | failed | completed
  deriving DecidableEq

/-- What consumers share: the clock, the processed events, what the handlers work on, and a
journal of the runs. -/
structure ConsumerWorld (ι τ : Type) where
  clock : DateTime
  processed : ProcessedEvents
  domain : τ
  journal : List (ι × RunStage)

/-- Outcome used by transports to acknowledge, reject or ignore a delivery. -/
structure ConsumerResult where
  processed : Bool
  duplicate : Bool := false
  busy : Bool := false
  deriving DecidableEq

/-- A configured consumer worker. -/
structure IdempotentEventConsumer where
  consumer : String
  workerId : String
  leaseSeconds : ℕ
  consumer_named : Text.isBlank consumer = false
  worker_named : Text.isBlank workerId = false
  lease_pos : 1 ≤ leaseSeconds

namespace IdempotentEventConsumer

/-- The constructor, with its checks and defaults. -/
def create (consumer workerId : String) (leaseSeconds : ℕ := 60) :
    Except Exn IdempotentEventConsumer :=
  if hn : Text.isBlank consumer = true ∨ Text.isBlank workerId = true then
    .error (.valueError "consumer and worker_id must not be empty")
  else if hl : leaseSeconds < 1 then .error (.valueError "lease_seconds must be positive")
  else
    .ok ⟨consumer, workerId, leaseSeconds, Text.isBlank_eq_false_left hn,
      Text.isBlank_eq_false_right hn, Nat.le_of_not_lt hl⟩

variable {ι τ : Type} (worker : IdempotentEventConsumer) (handler : EventHandler τ)
  (event : IntegrationEvent) (run : ι)

/-- The row that a delivery of an event is about. -/
def key : ProcessingKey := ⟨event.tenantId, event.id, worker.consumer⟩

/-- A note in the journal, if something was done. -/
def noted (journal : List (ι × RunStage)) (run : ι) (stage : RunStage) (did : Bool) :
    List (ι × RunStage) :=
  if did then (run, stage) :: journal else journal

/-- The insert of a claim. -/
def insert (s : ConsumerWorld ι τ) : Bool × ConsumerWorld ι τ :=
  let r := s.processed.insertProcessing s.clock (worker.key event) worker.workerId
    worker.leaseSeconds
  (r.1, { s with processed := r.2, journal := noted s.journal run .acquired r.1 })

/-- The conditional update of a claim. -/
def take (s : ConsumerWorld ι τ) : Bool × ConsumerWorld ι τ :=
  let r := s.processed.takeProcessing s.clock (worker.key event) worker.workerId
    worker.leaseSeconds
  (r.1, { s with processed := r.2, journal := noted s.journal run .acquired r.1 })

/-- The rest of a claim when the row exists already. -/
def reclaim : Proc (ConsumerWorld ι τ) String ConsumerClaim := do
  if ← Proc.read fun s => s.processed.isProcessed (worker.key event) then
    return .completed
  else if ← Proc.effect (worker.take event run) then
    return .acquired
  else return .busy

/-- Acquire a per-consumer event lease. The three statements of the transaction may be separated
by statements of others. -/
def claimEventProcessing : Proc (ConsumerWorld ι τ) String ConsumerClaim := do
  if ← Proc.effect (worker.insert event run) then
    return .acquired
  else worker.reclaim event run

/-- The handler is called. -/
def start (s : ConsumerWorld ι τ) : Unit × ConsumerWorld ι τ :=
  ((), { s with journal := noted s.journal run .started true })

/-- The handler returns or raises. -/
def finish (s : ConsumerWorld ι τ) : Except String Unit × ConsumerWorld ι τ :=
  let r := handler.handle s.domain event
  (r.1, { s with domain := r.2, journal := noted s.journal run .failed (!r.1.isOk) })

/-- `complete_event_processing` in the world. -/
def complete (s : ConsumerWorld ι τ) : Bool × ConsumerWorld ι τ :=
  let r := s.processed.completeEventProcessing s.clock (worker.key event) worker.workerId
  (r.1, { s with processed := r.2, journal := noted s.journal run .completed r.1 })

/-- `release_event_processing` in the world. -/
def release (error : String) (s : ConsumerWorld ι τ) : Bool × ConsumerWorld ι τ :=
  let r := s.processed.releaseEventProcessing (worker.key event) worker.workerId
    (Text.take 2000 error)
  (r.1, { s with processed := r.2 })

/-- What follows a handler. -/
def settle : Except String Unit → Proc (ConsumerWorld ι τ) String ConsumerResult
  | .error e => do
    let _ ← Proc.effect (worker.release event e)
    .raise e
  | .ok _ => do
    let completed ← Proc.effect (worker.complete event run)
    return { processed := completed }

/-- What follows a claim. -/
def serve : ConsumerClaim → Proc (ConsumerWorld ι τ) String ConsumerResult
  | .completed => return { processed := false, duplicate := true }
  | .busy => return { processed := false, busy := true }
  | .acquired => do
    let _ ← Proc.effect (start run)
    worker.settle event run (← Proc.effect (finish handler event run))

/-- Run one handler after acquiring its durable deduplication lease. -/
def handle : Proc (ConsumerWorld ι τ) String ConsumerResult := do
  worker.serve handler event run (← worker.claimEventProcessing event run)

end IdempotentEventConsumer

end MemoryPlane
