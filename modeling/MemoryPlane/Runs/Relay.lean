import MemoryPlane.Services.Delivery

/-!
# Relays in every interleaving

Any number of relays share an outbox with publishers and a clock, and their statements interleave
in any order. A relay may stop after any statement. Each statement treats a row in one of four
ways, and from these follow the safety of publication and dead-lettering and that no event is
lost.
-/

namespace MemoryPlane

open OutboxEvents OutboxRelay

/-- Who acts on the outbox: one polling cycle of a relay, a writer of an event, or time. -/
inductive RelayClient where
  | relay (relay : OutboxRelay)
  | publish (event : IntegrationEvent)
  | pass (moment : DateTime)

variable {τ : Type}

/-- The writer of an event in the world. -/
def publishEvent (event : IntegrationEvent) (s : RelayWorld τ) : RelayResult × RelayWorld τ :=
  (⟨0, 0, 0⟩, { s with outbox := s.outbox.insert event s.clock })

/-- Time passes, until a moment if that is still to come. -/
def passTime (moment : DateTime) (s : RelayWorld τ) : RelayResult × RelayWorld τ :=
  (⟨0, 0, 0⟩, { s with clock := max s.clock moment })

/-- The program of a client. -/
def RelayClient.program (sink : EventSink τ) :
    RelayClient → Proc (RelayWorld τ) Exn RelayResult
  | .relay worker => worker.runOnce sink
  | .publish event => .effect (publishEvent event)
  | .pass moment => .effect (passTime moment)

/-- What one statement of a client does to a row. A publication needs a send that succeeded. -/
inductive RowStep (client : RelayClient) (now : DateTime) (sent : List UUID) :
    OutboxRow → OutboxRow → Prop
  | stays (r : OutboxRow) : RowStep client now sent r r
  | leased (r : OutboxRow) (relay : OutboxRelay) (actor : client = .relay relay)
      (due : r.Due relay.tenantId now) :
      RowStep client now sent r (leased now relay.workerId relay.leaseSeconds r)
  | published (r : OutboxRow) (relay : OutboxRelay) (actor : client = .relay relay)
      (own : r.OwnedBy relay.tenantId r.event.id relay.workerId)
      (confirmed : r.event.id ∈ sent) : RowStep client now sent r (published now r)
  | released (r : OutboxRow) (relay : OutboxRelay) (error : String) (delay : ℕ)
      (actor : client = .relay relay)
      (own : r.OwnedBy relay.tenantId r.event.id relay.workerId) :
      RowStep client now sent r (released now error relay.maxAttempts delay r)

/-- What one statement of a client does to the world. -/
structure RelayStatement (client : RelayClient) (s s' : RelayWorld τ) : Prop where
  clock : s.clock ≤ s'.clock
  sent : s.sent ⊆ s'.sent
  /-- Every row is still there, treated in one of the four ways. -/
  forward : ∀ r ∈ s.outbox.rows, ∃ r' ∈ s'.outbox.rows, RowStep client s.clock s.sent r r'
  /-- Every row was there before or is new. -/
  backward : ∀ r' ∈ s'.outbox.rows,
    (∃ r ∈ s.outbox.rows, RowStep client s.clock s.sent r r') ∨
      ∃ event, r' = .fresh event s.clock

section Statements

variable {s : RelayWorld τ} {client : RelayClient} {relay : OutboxRelay}

/-- A statement that updates the rows meeting a condition. -/
theorem RelayStatement.of_update {p : OutboxRow → Bool} {f : OutboxRow → OutboxRow}
    (hf : ∀ r, (f r).event.id = r.event.id)
    (h : ∀ r ∈ s.outbox.rows, p r = true → RowStep client s.clock s.sent r (f r)) :
    RelayStatement client s { s with outbox := s.outbox.updateWhere p f hf } := by
  have hrow : ∀ r ∈ s.outbox.rows, RowStep client s.clock s.sent r (if p r then f r else r) := by
    intro r hr
    split
    · rename_i hp
      exact h r hr hp
    · exact .stays r
  refine ⟨le_rfl, List.Subset.refl _, fun r hr => ?_, fun r' hr' => .inl ?_⟩
  · exact ⟨_, (Table.mem_updateWhere (h := hf)).mpr ⟨r, hr, rfl⟩, hrow r hr⟩
  · obtain ⟨r, hr, rfl⟩ := (Table.mem_updateWhere (h := hf)).mp hr'
    exact ⟨r, hr, hrow r hr⟩

/-- A statement that leaves the rows alone. -/
theorem RelayStatement.of_rows {s' : RelayWorld τ} (hclock : s.clock ≤ s'.clock)
    (hsent : s.sent ⊆ s'.sent) (hrows : s'.outbox = s.outbox) : RelayStatement client s s' := by
  refine ⟨hclock, hsent, fun r hr => ?_, fun r hr => .inl ?_⟩
  · exact ⟨r, hrows ▸ hr, .stays r⟩
  · exact ⟨r, hrows ▸ hr, .stays r⟩

/-- Claiming moves only rows that are due and free. -/
theorem RelayStatement.claim : RelayStatement (.relay relay) s (relay.claim s).2 := by
  refine .of_update (leased_id s.clock relay.workerId relay.leaseSeconds)
    fun r _ hp => .leased r relay rfl ?_
  exact (due_of_mem_due (of_decide_eq_true hp)).2

/-- Marking settles the row of an event that was sent. -/
theorem RelayStatement.mark {event : IntegrationEvent} (h : event.id ∈ s.sent) :
    RelayStatement (.relay relay) s (relay.mark event s).2 := by
  refine .of_update (published_id s.clock) fun r _ hp => ?_
  obtain ⟨ht, hid, hrest⟩ := of_decide_eq_true hp
  exact .published r relay rfl ⟨ht, rfl, hrest⟩ (hid ▸ h)

/-- Releasing frees the row or gives it up. -/
theorem RelayStatement.release {row : ClaimedEvent} {error : String} :
    RelayStatement (.relay relay) s (relay.release row error s).2 := by
  refine .of_update (released_id s.clock (Text.take 2000 error) relay.maxAttempts
    (relay.retryDelay row.attempts)) fun r _ hp => ?_
  obtain ⟨ht, -, hrest⟩ := of_decide_eq_true hp
  exact .released r relay _ _ rfl ⟨ht, rfl, hrest⟩

/-- Sending forgets nothing that was sent. -/
theorem sent_send {sink : EventSink τ} {event : IntegrationEvent} :
    s.sent ⊆ (send sink event s).2.sent := by
  unfold send
  split
  · exact List.subset_cons_self ..
  · exact List.Subset.refl _

/-- Sending touches no row. -/
theorem RelayStatement.send {sink : EventSink τ} {event : IntegrationEvent} :
    RelayStatement (.relay relay) s (OutboxRelay.send sink event s).2 := by
  refine .of_rows ?_ sent_send ?_
  · unfold OutboxRelay.send
    split <;> exact le_rfl
  · unfold OutboxRelay.send
    split <;> rfl

/-- Publishing adds at most one fresh row. -/
theorem RelayStatement.publish {event : IntegrationEvent} :
    RelayStatement (.publish event) s (publishEvent event s).2 := by
  refine ⟨le_rfl, List.Subset.refl _, fun r hr => ?_, fun r hr => ?_⟩
  · exact ⟨r, Table.mem_setDefault.mpr (.inl hr), .stays r⟩
  · rcases Table.mem_setDefault.mp hr with hr | ⟨rfl, -⟩
    · exact .inl ⟨r, hr, .stays r⟩
    · exact .inr ⟨event, rfl⟩

/-- The passing of time touches no row. -/
theorem RelayStatement.pass {moment : DateTime} :
    RelayStatement (.pass moment) s (passTime moment s).2 :=
  .of_rows (le_max_left ..) (List.Subset.refl _) rfl

end Statements

/-- What is left of a client's program. An acknowledgement is left only after its send
succeeded. -/
inductive Relaying (sink : EventSink τ) :
    RelayClient → List UUID → Proc (RelayWorld τ) Exn RelayResult → Prop
  | idle (client : RelayClient) (sent : List UUID) :
      Relaying sink client sent (client.program sink)
  | delivering (relay : OutboxRelay) (sent : List UUID) (rows : List ClaimedEvent)
      (result : RelayResult) :
      Relaying sink (.relay relay) sent (relay.deliver sink rows result)
  | acknowledging (relay : OutboxRelay) (sent : List UUID) (row : ClaimedEvent)
      (rest : List ClaimedEvent) (result : Bool → RelayResult) (confirmed : row.event.id ∈ sent) :
      Relaying sink (.relay relay) sent
        (Proc.effect (relay.mark row.event) >>= fun acknowledged =>
          relay.deliver sink rest (result acknowledged))
  | releasing (relay : OutboxRelay) (sent : List UUID) (row : ClaimedEvent) (error : String)
      (rest : List ClaimedEvent) (result : RelayResult) :
      Relaying sink (.relay relay) sent
        (Proc.effect (relay.release row error) >>= fun _ => relay.deliver sink rest result)
  | done (client : RelayClient) (sent : List UUID) (result : RelayResult) :
      Relaying sink client sent (.done result)

section Programs

variable {sink : EventSink τ} {client : RelayClient} {s : RelayWorld τ}
  {p : Proc (RelayWorld τ) Exn RelayResult} {act : RelayWorld τ → RelayWorld τ}
  {next : RelayWorld τ → Proc (RelayWorld τ) Exn RelayResult}

/-- A relay in the middle of its work stays so as more is sent. -/
theorem Relaying.mono {sent sent' : List UUID} (h : Relaying sink client sent p)
    (hsub : sent ⊆ sent') : Relaying sink client sent' p := by
  cases h with
  | idle => exact .idle ..
  | delivering => exact .delivering ..
  | acknowledging relay _ row rest result confirmed =>
    exact .acknowledging relay _ row rest result (hsub confirmed)
  | releasing => exact .releasing ..
  | done => exact .done ..

/-- After a send an event is acknowledged if the send succeeded, and released otherwise. -/
theorem relaying_after_send (relay : OutboxRelay) (row : ClaimedEvent) (rest : List ClaimedEvent)
    (result : RelayResult) (hp : relay.deliver sink (row :: rest) result = .call act next) :
    act s = (send sink row.event s).2 ∧ Relaying sink (.relay relay) (act s).sent (next s) := by
  cases hp
  refine ⟨rfl, ?_⟩
  simp only [Proc.bind, send]
  split
  · exact .acknowledging relay _ row rest _ (List.mem_cons_self ..)
  · exact .releasing relay _ row _ rest _

/-- Every call of a client is a statement, and what is left after it is such a rest again. -/
theorem Relaying.call (h : Relaying sink client s.sent p) (hp : p = .call act next) :
    RelayStatement client s (act s) ∧ Relaying sink client (act s).sent (next s) := by
  cases h with
  | idle =>
    cases client with
    | relay worker =>
      cases hp
      exact ⟨RelayStatement.claim, .delivering ..⟩
    | publish event =>
      cases hp
      exact ⟨RelayStatement.publish, .done ..⟩
    | pass moment =>
      cases hp
      exact ⟨RelayStatement.pass, .done ..⟩
  | delivering relay _ rows result =>
    cases rows with
    | nil => cases hp
    | cons row rest =>
      obtain ⟨hact, hnext⟩ := relaying_after_send (s := s) relay row rest result hp
      refine ⟨?_, hnext⟩
      rw [hact]
      exact RelayStatement.send
  | acknowledging relay _ row rest result confirmed =>
    cases hp
    exact ⟨RelayStatement.mark confirmed, .delivering ..⟩
  | releasing relay _ row error rest result =>
    cases hp
    exact ⟨RelayStatement.release, .delivering ..⟩
  | done => cases hp

end Programs

section Rows

variable {client : RelayClient} {now : DateTime} {sent : List UUID} {r r' : OutboxRow}

/-- No step changes the event of a row. -/
theorem RowStep.event (h : RowStep client now sent r r') : r'.event = r.event := by
  cases h <;> rfl

/-- What statements do to a row they do to its lease within the rules of leases. -/
theorem RowStep.lease (h : RowStep client now sent r r') :
    r'.lease = r.lease ∨
      ∃ relay, client = .relay relay ∧ Lease.Step relay.workerId now r.lease r'.lease := by
  cases h with
  | stays => exact .inl rfl
  | leased relay actor due => exact .inr ⟨relay, actor, .taken _ _ due.2.2.2.2⟩
  | published relay actor own => exact .inr ⟨relay, actor, .returned _ own.2.2.1⟩
  | released relay error delay actor own => exact .inr ⟨relay, actor, .returned _ own.2.2.1⟩

/-- What holds of every row: a published event was sent, and publication and dead-lettering
exclude each other because both leave no lease behind. -/
structure OutboxRow.Sound (sent : List UUID) (r : OutboxRow) : Prop where
  sent : r.publishedAt ≠ none → r.event.id ∈ sent
  exclusive : r.publishedAt = none ∨ r.deadLetteredAt = none
  settled : r.publishedAt ≠ none ∨ r.deadLetteredAt ≠ none → r.lease = .free

/-- A fresh row is sound. -/
theorem OutboxRow.sound_fresh (event : IntegrationEvent) :
    (OutboxRow.fresh event now).Sound sent :=
  ⟨fun h => absurd rfl h, .inl rfl, fun _ => rfl⟩

/-- A row stays sound as more is sent. -/
theorem OutboxRow.Sound.mono {sent' : List UUID} (h : r.Sound sent) (hsub : sent ⊆ sent') :
    r.Sound sent' := ⟨fun hp => hsub (h.sent hp), h.exclusive, h.settled⟩

/-- A leased row is neither published nor dead-lettered. -/
theorem OutboxRow.Sound.live {tenantId eventId : UUID} {workerId : String} (h : r.Sound sent)
    (own : r.OwnedBy tenantId eventId workerId) :
    r.publishedAt = none ∧ r.deadLetteredAt = none := by
  refine ⟨own.2.2.2, ?_⟩
  by_contra hdead
  have howner := own.2.2.1
  rw [h.settled (.inr hdead), Lease.owner_free] at howner
  cases howner

/-- A row's step keeps it sound. -/
theorem RowStep.sound (h : RowStep client now sent r r') (hr : r.Sound sent) : r'.Sound sent := by
  cases h with
  | stays => exact hr
  | leased relay actor due =>
    obtain ⟨-, hpub, hdead, -⟩ := due
    exact ⟨fun h => absurd hpub h, .inl hpub, fun h => (h.elim (· hpub) (· hdead)).elim⟩
  | published relay actor own confirmed =>
    exact ⟨fun _ => confirmed, .inr (hr.live own).2, fun _ => rfl⟩
  | released relay error delay actor own =>
    obtain ⟨hpub, -⟩ := hr.live own
    exact ⟨fun h => absurd hpub h, .inl hpub, fun _ => rfl⟩

end Rows

/-- The event is leased by any claim of its tenant that comes when its delay is over and no lease
on it runs, and that is not too small. -/
def RelayWorld.ClaimableOnceDue (s : RelayWorld τ) (r : OutboxRow) : Prop :=
  ∀ later, s.clock ≤ later → r.availableAt ≤ later → r.lease.Available later →
    ∀ workerId limit leaseSeconds, s.outbox.rows.length ≤ limit →
      ∃ claimed ∈ (s.outbox.claimOutbox later r.event.tenantId workerId limit leaseSeconds).1,
        claimed.event = r.event

/-- What holds in every reached state. -/
structure OutboxSafe (s : RelayWorld τ) : Prop where
  published : ∀ r ∈ s.outbox.rows, r.publishedAt ≠ none → r.event.id ∈ s.sent
  exclusive : ∀ r ∈ s.outbox.rows, ¬ (r.publishedAt ≠ none ∧ r.deadLetteredAt ≠ none)
  /-- No event is lost: one under a lease becomes claimable when the lease expires. -/
  live : ∀ r ∈ s.outbox.rows, r.publishedAt ≠ none ∨ r.deadLetteredAt ≠ none ∨
    s.ClaimableOnceDue r
  /-- An acknowledgement changes an event only at the hands of its lease owner. -/
  marks : ∀ tenantId eventId workerId, ∀ r ∈ s.outbox.rows,
    r ∉ (s.outbox.markOutboxPublished s.clock tenantId eventId workerId).2.rows →
      r.lease.owner = some workerId
  /-- So does a release. -/
  releases : ∀ tenantId eventId workerId error maxAttempts delay, ∀ r ∈ s.outbox.rows,
    r ∉ (s.outbox.releaseOutbox s.clock tenantId eventId workerId error maxAttempts
        delay).2.rows →
      r.lease.owner = some workerId

/-- What holds of every statement. -/
structure RelayStepSafe (client : RelayClient) (s s' : RelayWorld τ) : Prop where
  /-- An event becomes published after a send of it succeeded. -/
  publishes : ∀ r' ∈ s'.outbox.rows, r'.publishedAt ≠ none →
    (∃ r ∈ s.outbox.rows, r.event = r'.event ∧ r.publishedAt ≠ none) ∨ r'.event.id ∈ s.sent
  /-- It becomes dead-lettered when its attempts reached the relay's maximum. -/
  deadLetters : ∀ r' ∈ s'.outbox.rows, r'.deadLetteredAt ≠ none →
    (∃ r ∈ s.outbox.rows, r.event = r'.event ∧ r.deadLetteredAt ≠ none) ∨
      ∃ relay, client = .relay relay ∧ relay.maxAttempts ≤ r'.attempts
  /-- A relay changes the events it leases when they are due, and those it owns. -/
  changes : ∀ r ∈ s.outbox.rows, r ∉ s'.outbox.rows →
    ∃ relay, client = .relay relay ∧
      (r.Due relay.tenantId s.clock ∨ r.lease.owner = some relay.workerId)

section Safety

variable {s s' : RelayWorld τ} {client : RelayClient}

/-- A row neither published nor given up can be claimed once it is due. -/
theorem claimable_of_unsettled {r : OutboxRow} (hr : r ∈ s.outbox.rows)
    (hpub : r.publishedAt = none) (hdead : r.deadLetteredAt = none) : s.ClaimableOnceDue r := by
  intro later _ havail hlease workerId limit leaseSeconds hlimit
  have hdue := mem_due hr ⟨rfl, hpub, hdead, havail, hlease⟩ hlimit
  exact ⟨_, List.mem_map.mpr ⟨r, hdue, rfl⟩, rfl⟩

/-- Sound rows are safe. -/
theorem outboxSafe_of_sound (h : ∀ r ∈ s.outbox.rows, r.Sound s.sent) : OutboxSafe s where
  published r hr := (h r hr).sent
  exclusive r hr := fun ⟨hpub, hdead⟩ => (h r hr).exclusive.elim hpub hdead
  live r hr := by
    by_cases hpub : r.publishedAt = none
    · by_cases hdead : r.deadLetteredAt = none
      · exact .inr (.inr (claimable_of_unsettled hr hpub hdead))
      · exact .inr (.inl hdead)
    · exact .inl hpub
  marks tenantId eventId workerId r hr hne := by
    by_contra hown
    refine hne (Table.mem_updateWhere_of_not (h := published_id s.clock) hr (decide_eq_false ?_))
    exact fun h => hown h.2.2.1
  releases tenantId eventId workerId error maxAttempts delay r hr hne := by
    by_contra hown
    refine hne (Table.mem_updateWhere_of_not (h := released_id s.clock error maxAttempts delay) hr
      (decide_eq_false ?_))
    exact fun h => hown h.2.2.1

/-- Whoever moves, every row of the outbox stays sound. -/
theorem RelayStatement.sound (h : RelayStatement client s s')
    (hs : ∀ r ∈ s.outbox.rows, r.Sound s.sent) : ∀ r ∈ s'.outbox.rows, r.Sound s'.sent := by
  intro r' hr'
  rcases h.backward r' hr' with ⟨r, hr, hstep⟩ | ⟨event, rfl⟩
  · exact (hstep.sound (hs r hr)).mono h.sent
  · exact OutboxRow.sound_fresh event

/-- Every statement is safe. -/
theorem RelayStatement.safe (h : RelayStatement client s s') : RelayStepSafe client s s' where
  publishes r' hr' hpub := by
    rcases h.backward r' hr' with ⟨r, hr, hstep⟩ | ⟨event, rfl⟩
    · cases hstep with
      | published relay actor own confirmed => exact .inr confirmed
      | stays | leased | released => exact .inl ⟨_, hr, rfl, hpub⟩
    · exact absurd rfl hpub
  deadLetters r' hr' hdead := by
    rcases h.backward r' hr' with ⟨r, hr, hstep⟩ | ⟨event, rfl⟩
    · cases hstep with
      | released relay error delay actor own =>
        by_cases hmax : relay.maxAttempts ≤ r.attempts
        · exact .inr ⟨relay, actor, hmax⟩
        · simp only [released, if_neg hmax] at hdead
          exact .inl ⟨r, hr, rfl, hdead⟩
      | stays | leased | published => exact .inl ⟨_, hr, rfl, hdead⟩
    · exact absurd rfl hdead
  changes r hr hne := by
    obtain ⟨r', hr', hstep⟩ := h.forward r hr
    cases hstep with
    | stays => exact absurd hr' hne
    | leased relay actor due => exact ⟨relay, actor, .inl due⟩
    | published relay actor own => exact ⟨relay, actor, .inr own.2.2.1⟩
    | released relay error delay actor own => exact ⟨relay, actor, .inr own.2.2.1⟩

end Safety

/-- Clients that start on an empty outbox. -/
def relayPool {ι : Type} (sink : EventSink τ) (clients : ι → RelayClient) (clock : DateTime)
    (transport : τ) : Pool.Config (RelayWorld τ) Exn RelayResult ι :=
  (⟨clock, Table.empty, transport, []⟩, fun i => (clients i).program sink)

section Pools

variable {ι : Type} [DecidableEq ι] {sink : EventSink τ} {clients : ι → RelayClient}
  {c : Pool.Config (RelayWorld τ) Exn RelayResult ι}

/-- Sound rows, and clients in the middle of their programs. -/
def Relayed (sink : EventSink τ) (clients : ι → RelayClient)
    (c : Pool.Config (RelayWorld τ) Exn RelayResult ι) : Prop :=
  (∀ r ∈ c.1.outbox.rows, r.Sound c.1.sent) ∧ ∀ j, Relaying sink (clients j) c.1.sent (c.2 j)

/-- Whichever client moves, the invariant stays. -/
theorem Relayed.step (h : Relayed sink clients c) (i : ι) :
    Relayed sink clients (Pool.step c i) := by
  refine Pool.step_of_guarantees (J := fun s => ∀ r ∈ s.outbox.rows, r.Sound s.sent)
    (R := fun _ s s' => s.sent ⊆ s'.sent) (Φ := fun j s p => Relaying sink (clients j) s.sent p)
    (fun j p s s' _ hsub hp => hp.mono hsub) (fun act next hcall => ?_) h.1 h.2
  obtain ⟨hstatement, hrest⟩ := (h.2 i).call hcall
  exact ⟨hstatement.sound h.1, hstatement.sent, hrest⟩

/-- A step is a statement of its client, or nothing. -/
theorem Relayed.safe (h : Relayed sink clients c) (i : ι) :
    RelayStepSafe (clients i) c.1 (Pool.step c i).1 := by
  cases hp : c.2 i with
  | call act next =>
    rw [Pool.step_of_call hp]
    exact ((h.2 i).call hp).1.safe
  | done | raise =>
    rw [Pool.step_of_no_call (by simp [hp])]
    exact (RelayStatement.of_rows le_rfl (List.Subset.refl _) rfl).safe

end Pools

/-- For all relays, publishers and transports, and every interleaving of their statements with
expiries and crashes: events are published only after a successful send, dead-lettered only at
the maximum of attempts, never both, changed by their lease owners only, and never lost. -/
theorem relay_safe {ι : Type} [DecidableEq ι] (sink : EventSink τ) (clients : ι → RelayClient)
    (clock : DateTime) (transport : τ) (schedule : List ι) :
    let c := Pool.exec (relayPool sink clients clock transport) schedule
    OutboxSafe c.1 ∧ ∀ i, RelayStepSafe (clients i) c.1 (Pool.step c i).1 := by
  have hstart : Relayed sink clients (relayPool sink clients clock transport) := by
    refine ⟨fun r hr => ?_, fun j => .idle ..⟩
    simp [relayPool] at hr
  have hreached := Pool.exec_induction (I := Relayed sink clients)
    (fun c i h => h.step i) hstart schedule
  exact ⟨outboxSafe_of_sound hreached.1, fun i => hreached.safe i⟩

end MemoryPlane
