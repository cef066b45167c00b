import MemoryPlane.Workers.NatsConsumer

/-!
# Acknowledgement of deliveries

What the pull worker tells the broker about each delivery of a batch, whatever the messages, the
consumer and the broker do. Every round of its loop makes a few calls: one that fails in the middle
is answered by a second attempt, and an attempt that fails again ends the batch.
-/

namespace MemoryPlane

namespace WorkerCall

/-- The call tells the broker what becomes of the delivery. -/
def settles : WorkerCall → Bool
  | .ack _ | .nak .. | .term _ => true
  | _ => false

/-- The call did not fail, if it settles the delivery. -/
def succeeds : WorkerCall → Bool
  | .ack ok | .nak _ ok | .term ok => ok
  | _ => true

end WorkerCall

/-- A successful acknowledgement. -/
def WorkerCall.acks : WorkerCall → Bool
  | .ack ok => ok
  | _ => false

/-- The consumer is done with the event. -/
def ConsumerResult.accepted (result : ConsumerResult) : Prop :=
  result.busy = false ∧ (result.processed = true ∨ result.duplicate = true)

/-- The consumer accepted the event of the delivery. -/
def Accepted (calls : List WorkerCall) : Prop :=
  ∃ result, .consumed (.ok result) ∈ calls ∧ result.accepted

/-- A dead letter of the delivery was published. -/
def Published (calls : List WorkerCall) : Prop := ∃ letter, .publish letter true ∈ calls

/-- The calls of one delivery are safe: it is acknowledged only if the consumer processed the event
or knew it, terminated only behind a published dead letter, and its dead letters hold its bytes. -/
structure SafeCalls (message : BrokerMessage) (calls : List WorkerCall) : Prop where
  acked : ∀ ok, .ack ok ∈ calls →
    ∃ result, .consumed (.ok result) ∈ calls ∧ (result.processed = true ∨ result.duplicate = true)
  terminated : ∀ (i : ℕ) (ok : Bool), calls[i]? = some (.term ok) →
    ∃ j < i, ∃ letter, calls[j]? = some (.publish letter true)
  letters : ∀ letter ok, .publish letter ok ∈ calls →
    ∃ text, JsonObject.get letter.body "event_base64" = some (.str text) ∧
      b64decode text = some message.data

/-- The delivery was settled once: acknowledged if the consumer accepted its event, terminated if
a dead letter was published, and negatively acknowledged otherwise. -/
def SettledOnce (calls : List WorkerCall) : Prop :=
  (Accepted calls ∧ calls.filter WorkerCall.settles = [.ack true]) ∨
    (¬ Accepted calls ∧ Published calls ∧ calls.filter WorkerCall.settles = [.term true]) ∨
    (¬ Accepted calls ∧ ¬ Published calls ∧
      ∃ delay, calls.filter WorkerCall.settles = [.nak delay true])

section Calls

variable {message : BrokerMessage} {a b : List WorkerCall}

theorem SafeCalls.nil : SafeCalls message [] := by
  constructor <;> simp

/-- Safe calls after safe calls are safe. -/
theorem SafeCalls.append (ha : SafeCalls message a) (hb : SafeCalls message b) :
    SafeCalls message (a ++ b) := by
  constructor
  · intro ok hmem
    obtain hmem | hmem := List.mem_append.mp hmem
    · obtain ⟨result, hconsumed, hdone⟩ := ha.acked ok hmem
      exact ⟨result, List.mem_append_left _ hconsumed, hdone⟩
    · obtain ⟨result, hconsumed, hdone⟩ := hb.acked ok hmem
      exact ⟨result, List.mem_append_right _ hconsumed, hdone⟩
  · intro i ok hget
    by_cases hi : i < a.length
    · rw [List.getElem?_append_left hi] at hget
      obtain ⟨j, hj, letter, hletter⟩ := ha.terminated i ok hget
      exact ⟨j, hj, letter, by rw [List.getElem?_append_left (by omega), hletter]⟩
    · rw [List.getElem?_append_right (by omega)] at hget
      obtain ⟨j, hj, letter, hletter⟩ := hb.terminated _ ok hget
      refine ⟨a.length + j, by omega, letter, ?_⟩
      rw [List.getElem?_append_right (by omega), Nat.add_sub_cancel_left, hletter]
  · intro letter ok hmem
    obtain hmem | hmem := List.mem_append.mp hmem
    · exact ha.letters letter ok hmem
    · exact hb.letters letter ok hmem

theorem SafeCalls.consumed (result : Except String ConsumerResult) :
    SafeCalls message [.consumed result] := by
  constructor
  · simp
  · intro i ok hget
    cases i <;> simp at hget
  · simp

theorem SafeCalls.nak (delay : ℕ) (ok : Bool) : SafeCalls message [.nak delay ok] := by
  constructor
  · simp
  · intro i ok hget
    cases i <;> simp at hget
  · simp

end Calls

namespace NatsPullWorker

variable {κ τ : Type} {worker : NatsPullWorker} {sha256Hex : List UInt8 → String}
  {reader : EnvelopeReader} {consumer : EventConsumer κ} {broker : JetStream τ}
  {message : BrokerMessage} {w : WorkerWorld κ τ}

variable (worker sha256Hex message) in
/-- Every dead letter of a message holds its bytes. -/
theorem deadLetter_bytes (attempts : ℕ) (error : String) :
    ∃ text, JsonObject.get (worker.deadLetter sha256Hex message attempts error).body
        "event_base64" = some (.str text) ∧ b64decode text = some message.data :=
  ⟨b64encode message.data, rfl, b64decode_b64encode message.data⟩

/-- What an attempt to recover a delivery does. -/
inductive Recovery (message : BrokerMessage) : List WorkerCall → Except String Unit → Prop
  | retried (delay : ℕ) (r : Except String Unit) : Recovery message [.nak delay r.isOk] r
  /-- The dead letter could not be published. -/
  | kept (letter : DeadLetter) (delay : ℕ) (r : Except String Unit)
      (bytes : ∃ text, JsonObject.get letter.body "event_base64" = some (.str text) ∧
        b64decode text = some message.data) :
      Recovery message [.publish letter false, .nak delay r.isOk] r
  | buried (letter : DeadLetter) (r : Except String Unit)
      (bytes : ∃ text, JsonObject.get letter.body "event_base64" = some (.str text) ∧
        b64decode text = some message.data) :
      Recovery message [.publish letter true, .term r.isOk] r

theorem retryOrDeadLetter_recovery (error : String) :
    let recovered := worker.retryOrDeadLetter sha256Hex broker message error w
    Recovery message recovered.calls recovered.result := by
  intro recovered
  have hbytes := deadLetter_bytes worker sha256Hex message (deliveryAttempts message) error
  unfold recovered retryOrDeadLetter
  dsimp only
  split
  · cases hpublished : (worker.publishDeadLetter sha256Hex broker message
      (deliveryAttempts message) error w).result with
    | error e =>
      have hcalls : (worker.publishDeadLetter sha256Hex broker message (deliveryAttempts message)
          error w).calls = [.publish (worker.deadLetter sha256Hex message
            (deliveryAttempts message) error) false] := by
        simp only [publishDeadLetter, invoke] at hpublished ⊢
        rw [hpublished]
        rfl
      rw [hcalls]
      exact .kept _ _ _ hbytes
    | ok u =>
      have hcalls : (worker.publishDeadLetter sha256Hex broker message (deliveryAttempts message)
          error w).calls = [.publish (worker.deadLetter sha256Hex message
            (deliveryAttempts message) error) true] := by
        simp only [publishDeadLetter, invoke] at hpublished ⊢
        rw [hpublished]
        rfl
      rw [hcalls]
      exact .buried _ _ hbytes
  · exact .retried _ _

/-- What the body of the `try` statement does. -/
inductive Attempt (message : BrokerMessage) : List WorkerCall → Except String Bool → Prop
  | undecoded (e : String) : Attempt message [] (.error e)
  | refused (e : String) : Attempt message [.consumed (.error e)] (.error e)
  | acked (result : ConsumerResult) (r : Except String Unit) (accepted : result.accepted) :
      Attempt message [.consumed (.ok result), .ack r.isOk] (r.map fun _ => true)
  | retried (result : ConsumerResult) (calls : List WorkerCall) (r : Except String Unit)
      (refused : ¬ result.accepted) (recovery : Recovery message calls r) :
      Attempt message (.consumed (.ok result) :: calls) (r.map fun _ => false)

variable (worker sha256Hex reader consumer broker message w) in
theorem serve_attempt :
    let served := worker.serve sha256Hex reader consumer broker message w
    Attempt message served.calls served.result := by
  intro served
  unfold served serve
  split
  · exact .undecoded _
  · split
    · exact .refused _
    · rename_i result c _
      have haccepted : (result.busy || (!result.processed && !result.duplicate)) = true ↔
          ¬ result.accepted := by
        unfold ConsumerResult.accepted
        cases result.busy <;> cases result.processed <;> cases result.duplicate <;> simp
      dsimp only
      split
      · rename_i hbusy
        exact .retried _ _ _ (haccepted.mp hbusy) (retryOrDeadLetter_recovery _)
      · rename_i hbusy
        exact .acked _ _ (not_not.mp (haccepted.not.mp hbusy))

/-- What one round of the loop does. -/
inductive Delivery (message : BrokerMessage) : List WorkerCall → Except String Bool → Prop
  | served (calls : List WorkerCall) (acked : Bool) (attempt : Attempt message calls (.ok acked)) :
      Delivery message calls (.ok acked)
  | recovered (calls more : List WorkerCall) (e : String) (r : Except String Unit)
      (attempt : Attempt message calls (.error e)) (recovery : Recovery message more r) :
      Delivery message (calls ++ more) (r.map fun _ => false)

variable (worker sha256Hex reader consumer broker message w) in
theorem deliver_delivery :
    let served := worker.deliver sha256Hex reader consumer broker message w
    Delivery message served.calls served.result := by
  intro served
  have hattempt := serve_attempt worker sha256Hex reader consumer broker message w
  unfold served deliver
  dsimp only at hattempt ⊢
  split
  · rename_i acked hresult
    rw [hresult] at hattempt ⊢
    exact .served _ _ hattempt
  · rename_i e hresult
    rw [hresult] at hattempt
    exact .recovered _ _ e _ hattempt (retryOrDeadLetter_recovery e)

variable {calls more : List WorkerCall} {acked : Bool} {e : String} {r : Except String Unit}

theorem Recovery.safe (h : Recovery message calls r) : SafeCalls message calls := by
  cases h with
  | retried delay r => exact .nak delay _
  | kept letter delay r bytes =>
    refine .append (a := [.publish letter false]) ⟨by simp, ?_, by simpa using bytes⟩ (.nak delay _)
    intro i ok hget
    cases i <;> simp at hget
  | buried letter r bytes =>
    refine ⟨by simp, fun i ok hget => ?_, by simpa using bytes⟩
    match i with
    | 0 => simp at hget
    | 1 => exact ⟨0, by decide, letter, rfl⟩
    | i + 2 => simp at hget

theorem Attempt.safe {result : Except String Bool} (h : Attempt message calls result) :
    SafeCalls message calls := by
  cases h with
  | undecoded e => exact .nil
  | refused e => exact .consumed _
  | acked result r accepted =>
    refine ⟨fun ok _ => ⟨result, by simp, accepted.2⟩, fun i ok hget => ?_, by simp⟩
    match i with
    | 0 => simp at hget
    | 1 => simp at hget
    | i + 2 => simp at hget
  | retried result calls r refused recovery =>
    exact .append (.consumed (.ok result)) recovery.safe

/-- The calls of a delivery are safe, whatever fails. -/
theorem Delivery.safe {result : Except String Bool} (h : Delivery message calls result) :
    SafeCalls message calls := by
  cases h with
  | served calls acked attempt => exact attempt.safe
  | recovered calls more e r attempt recovery => exact attempt.safe.append recovery.safe

/-- A call that succeeded returned nothing else. -/
theorem eq_ok_of_isOk (h : r.isOk = true) : r = .ok () := by
  cases r with
  | error e => cases h
  | ok u => rfl

/-- An attempt to recover whose calls succeed settles the delivery once. -/
theorem Recovery.settled (h : Recovery message calls r)
    (hok : ∀ c ∈ calls, WorkerCall.succeeds c = true) :
    r = .ok () ∧ ¬ Accepted calls ∧ calls.countP WorkerCall.acks = 0 ∧
      (Published calls ∧ calls.filter WorkerCall.settles = [.term true] ∨
        ¬ Published calls ∧ ∃ delay, calls.filter WorkerCall.settles = [.nak delay true]) := by
  cases h with
  | retried delay r =>
    have hr : r.isOk = true := hok _ (List.mem_singleton.mpr rfl)
    refine ⟨eq_ok_of_isOk hr, by simp [Accepted], rfl, .inr ⟨by simp [Published], delay, ?_⟩⟩
    rw [hr]
    rfl
  | kept letter delay r bytes =>
    have hr : r.isOk = true := hok (.nak delay r.isOk) (by simp)
    refine ⟨eq_ok_of_isOk hr, by simp [Accepted], rfl, .inr ⟨by simp [Published], delay, ?_⟩⟩
    rw [hr]
    rfl
  | buried letter r bytes =>
    have hr : r.isOk = true := hok (.term r.isOk) (by simp)
    refine ⟨eq_ok_of_isOk hr, by simp [Accepted], rfl, .inl ⟨⟨letter, by simp⟩, ?_⟩⟩
    rw [hr]
    rfl

/-- Calls that do not settle the delivery can be put before those that do. -/
theorem Recovery.settledOnce (h : Recovery message more r)
    (hok : ∀ c ∈ more, WorkerCall.succeeds c = true) (haccepted : ¬ Accepted calls)
    (hpublished : ¬ Published calls) (hsettles : calls.filter WorkerCall.settles = []) :
    SettledOnce (calls ++ more) := by
  obtain ⟨-, hrefused, -, hsettled⟩ := h.settled hok
  have hnot : ¬ Accepted (calls ++ more) := by
    rintro ⟨result, hmem, hdone⟩
    obtain hmem | hmem := List.mem_append.mp hmem
    · exact haccepted ⟨result, hmem, hdone⟩
    · exact hrefused ⟨result, hmem, hdone⟩
  obtain ⟨⟨letter, hletter⟩, hfilter⟩ | ⟨hnone, delay, hfilter⟩ := hsettled
  · refine .inr (.inl ⟨hnot, ⟨letter, List.mem_append_right _ hletter⟩, ?_⟩)
    rw [List.filter_append, hsettles, hfilter, List.nil_append]
  · refine .inr (.inr ⟨hnot, ?_, delay, ?_⟩)
    · rintro ⟨letter, hmem⟩
      obtain hmem | hmem := List.mem_append.mp hmem
      · exact hpublished ⟨letter, hmem⟩
      · exact hnone ⟨letter, hmem⟩
    · rw [List.filter_append, hsettles, hfilter, List.nil_append]

/-- An attempt that raised although its calls succeeded made none that settles the delivery. -/
theorem Attempt.of_error (h : Attempt message calls (.error e))
    (hok : ∀ c ∈ calls, WorkerCall.succeeds c = true) :
    ¬ Accepted calls ∧ ¬ Published calls ∧ calls.filter WorkerCall.settles = [] ∧
      calls.countP WorkerCall.acks = 0 := by
  generalize houtcome : (Except.error e : Except String Bool) = result at h
  cases h with
  | undecoded e => simp [Accepted, Published]
  | refused e => simp [Accepted, Published, WorkerCall.settles, WorkerCall.acks]
  | acked result r accepted =>
    have hr : r.isOk = true := hok (.ack r.isOk) (by simp)
    rw [eq_ok_of_isOk hr] at houtcome
    cases houtcome
  | retried result calls r refused recovery =>
    obtain ⟨hr, -⟩ := recovery.settled fun c hc => hok c (List.mem_cons_of_mem _ hc)
    rw [hr] at houtcome
    cases houtcome

/-- An attempt that returned and whose calls succeed settles the delivery once. -/
theorem Attempt.of_ok (h : Attempt message calls (.ok acked))
    (hok : ∀ c ∈ calls, WorkerCall.succeeds c = true) :
    SettledOnce calls ∧ calls.countP WorkerCall.acks = acked.toNat := by
  generalize houtcome : (Except.ok acked : Except String Bool) = result at h
  cases h with
  | undecoded | refused => cases houtcome
  | acked result r accepted =>
    have hr : r.isOk = true := hok (.ack r.isOk) (by simp)
    rw [eq_ok_of_isOk hr] at houtcome ⊢
    cases houtcome
    exact ⟨.inl ⟨⟨result, by simp, accepted⟩, rfl⟩, rfl⟩
  | retried result calls r refused recovery =>
    have hlater : ∀ c ∈ calls, WorkerCall.succeeds c = true :=
      fun c hc => hok c (List.mem_cons_of_mem _ hc)
    obtain ⟨hr, -, hcount, -⟩ := recovery.settled hlater
    rw [hr] at houtcome
    cases houtcome
    have haccepted : ¬ Accepted [.consumed (.ok result)] := by
      rintro ⟨other, hmem, hdone⟩
      obtain rfl : other = result := by simpa using hmem
      exact refused hdone
    constructor
    · exact recovery.settledOnce hlater haccepted (by simp [Published]) rfl
    · rw [List.countP_cons_of_neg Bool.false_ne_true, hcount]
      rfl

/-- A delivery whose calls succeed is settled once, and acknowledged if it says so. -/
theorem Delivery.settled {result : Except String Bool} (h : Delivery message calls result)
    (hok : ∀ c ∈ calls, WorkerCall.succeeds c = true) :
    SettledOnce calls ∧ ∃ acked : Bool, result = .ok acked ∧
      calls.countP WorkerCall.acks = acked.toNat := by
  cases h with
  | served calls acked attempt =>
    obtain ⟨hsettled, hcount⟩ := attempt.of_ok hok
    exact ⟨hsettled, acked, rfl, hcount⟩
  | recovered calls more e r attempt recovery =>
    have hmore : ∀ c ∈ more, WorkerCall.succeeds c = true :=
      fun c hc => hok c (List.mem_append_right _ hc)
    obtain ⟨hr, -, hcount, -⟩ := recovery.settled hmore
    obtain ⟨haccepted, hpublished, hsettles, hnone⟩ :=
      attempt.of_error fun c hc => hok c (List.mem_append_left _ hc)
    refine ⟨recovery.settledOnce hmore haccepted hpublished hsettles, false, by rw [hr]; rfl, ?_⟩
    rw [List.countP_append, hnone, hcount]
    rfl

variable (worker sha256Hex reader consumer broker) in
/-- The loop makes the calls of one delivery after the other; it stops early only if a call of the
broker fails. -/
theorem deliverAll_settled (messages : List BrokerMessage) (acknowledged : ℕ)
    (w : WorkerWorld κ τ) :
    let served := worker.deliverAll sha256Hex reader consumer broker messages acknowledged w
    served.calls.length ≤ messages.length ∧
      List.Forall₂ (fun message calls => SafeCalls message calls ∧
          ((∀ c ∈ calls, WorkerCall.succeeds c = true) → SettledOnce calls))
        (messages.take served.calls.length) served.calls ∧
      ((∀ calls ∈ served.calls, ∀ c ∈ calls, WorkerCall.succeeds c = true) →
        served.calls.length = messages.length ∧
          served.result = .ok (acknowledged + served.calls.flatten.countP WorkerCall.acks)) := by
  induction messages generalizing acknowledged w with
  | nil => simp [deliverAll]
  | cons message rest ih =>
    have hdelivery := deliver_delivery worker sha256Hex reader consumer broker message w
    have hsafe := hdelivery.safe
    have hsettled := hdelivery.settled
    intro served
    unfold served deliverAll
    dsimp only
    cases hresult : (worker.deliver sha256Hex reader consumer broker message w).result with
    | error e =>
      refine ⟨by simp, by simpa using ⟨hsafe, fun hok => (hsettled hok).1⟩, fun hok => ?_⟩
      obtain ⟨-, acked, hacked, -⟩ := hsettled (hok _ (List.mem_singleton.mpr rfl))
      rw [hresult] at hacked
      cases hacked
    | ok acked =>
      obtain ⟨hlength, hall, hlast⟩ := ih (acknowledged + acked.toNat)
        (worker.deliver sha256Hex reader consumer broker message w).world
      dsimp only
      refine ⟨by simpa using hlength, ?_, fun hok => ?_⟩
      · rw [List.length_cons, List.take_succ_cons]
        exact .cons ⟨hsafe, fun hok => (hsettled hok).1⟩ hall
      · obtain ⟨-, acked', hacked, hcount⟩ := hsettled (hok _ (List.mem_cons_self ..))
        rw [hresult] at hacked
        cases hacked
        obtain ⟨hsame, hresults⟩ := hlast fun calls hc => hok calls (List.mem_cons_of_mem _ hc)
        refine ⟨by simp [hsame], ?_⟩
        rw [hresults, List.flatten_cons, List.countP_append, hcount, Nat.add_assoc]

end NatsPullWorker

/-- For every batch of messages, every consumer and every broker: each delivery that the worker
comes to makes safe calls and, if none of those that settle it fails, is settled once; and if none
fails in the batch, the worker comes to every delivery and returns how many it acknowledged. -/
theorem deliveries_settle_safely {κ τ : Type} (worker : NatsPullWorker)
    (sha256Hex : List UInt8 → String) (reader : EnvelopeReader) (consumer : EventConsumer κ)
    (broker : JetStream τ) (messages : List BrokerMessage) (w : WorkerWorld κ τ) :
    let served := worker.runOnce sha256Hex reader consumer broker (some (.messages messages)) w
    served.calls.length ≤ messages.length ∧
      List.Forall₂ (fun message calls => SafeCalls message calls ∧
          ((∀ c ∈ calls, WorkerCall.succeeds c = true) → SettledOnce calls))
        (messages.take served.calls.length) served.calls ∧
      ((∀ calls ∈ served.calls, ∀ c ∈ calls, WorkerCall.succeeds c = true) →
        served.calls.length = messages.length ∧
          served.result = .ok (served.calls.flatten.countP WorkerCall.acks)) := by
  have hall :=
    NatsPullWorker.deliverAll_settled worker sha256Hex reader consumer broker messages 0 w
  simp only [Nat.zero_add] at hall
  exact hall

end MemoryPlane
