import MemoryPlane.Services.Delivery

/-!
# Consumers in every interleaving

Any number of consumer workers handle deliveries of events, duplicates included; the statements of
their claims, their handler runs and their completions and releases interleave in any order with
the passing of time, and a worker may stop anywhere. A processed event stays processed and starts
no further handler run, and an unexpired lease is changed by its own worker only.
-/

namespace MemoryPlane

open ProcessedEvents IdempotentEventConsumer

/-- Who acts on the processed events: one handling of a delivery, or time. -/
inductive ConsumerClient where
  | deliver (worker : IdempotentEventConsumer) (event : IntegrationEvent)
  | pass (moment : DateTime)

variable {ι τ : Type}

/-- Time passes, until a moment if that is still to come. -/
def passConsumerTime (moment : DateTime) (s : ConsumerWorld ι τ) :
    ConsumerResult × ConsumerWorld ι τ :=
  ({ processed := false }, { s with clock := max s.clock moment })

/-- The program of a client. -/
def ConsumerClient.program (handler : EventHandler τ) (run : ι) :
    ConsumerClient → Proc (ConsumerWorld ι τ) String ConsumerResult
  | .deliver worker event => worker.handle handler event run
  | .pass moment => .effect (passConsumerTime moment)

/-- What one statement of a delivery does to a row. -/
inductive ProcessedStep (worker : IdempotentEventConsumer) (key : ProcessingKey) (now : DateTime) :
    ProcessedRow → ProcessedRow → Prop
  | stays (r : ProcessedRow) : ProcessedStep worker key now r r
  | taken (r : ProcessedRow) (takeable : Takeable now key r) :
      ProcessedStep worker key now r (taken now worker.workerId worker.leaseSeconds r)
  | finished (r : ProcessedRow) (own : OwnedBy key worker.workerId r) :
      ProcessedStep worker key now r (finished now r)
  | givenUp (r : ProcessedRow) (error : String) (own : OwnedBy key worker.workerId r) :
      ProcessedStep worker key now r (givenUp error r)

section Rows

variable {worker : IdempotentEventConsumer} {key : ProcessingKey} {now : DateTime}
  {r r' : ProcessedRow}

/-- A processed row is final. -/
theorem ProcessedStep.eq_of_processed (h : ProcessedStep worker key now r r')
    (hr : r.processedAt ≠ none) : r' = r := by
  cases h with
  | stays => rfl
  | taken takeable => exact absurd takeable.2.1 hr
  | finished own => exact absurd own.2.2 hr
  | givenUp error own => exact absurd own.2.2 hr

/-- What a delivery does to a row it does to its lease within the rules of leases. -/
theorem ProcessedStep.lease (h : ProcessedStep worker key now r r') :
    Lease.Step worker.workerId now r.lease r'.lease := by
  cases h with
  | stays => exact .stays _
  | taken takeable => exact .taken _ _ takeable.2.2
  | finished own => exact .returned _ own.2.1
  | givenUp error own => exact .returned _ own.2.1

/-- A delivery changes the row of its key only. -/
theorem ProcessedStep.key_eq (h : ProcessedStep worker key now r r') (hne : r' ≠ r) :
    r.key = key := by
  cases h with
  | stays => exact absurd rfl hne
  | taken takeable => exact takeable.1
  | finished own | givenUp error own => exact own.1

/-- A row under an unexpired lease changes at the hands of its holder only. -/
theorem ProcessedStep.eq_of_heldBy {w : String} (h : ProcessedStep worker key now r r')
    (hw : r.lease.HeldBy w now) (hne : worker.workerId ≠ w) : r' = r := by
  have hlease := h.lease.eq_of_heldBy hw hne
  have howner : r.lease.owner = some w := hw.1
  cases h with
  | stays => rfl
  | taken takeable => exact absurd takeable.2.2 (Lease.unexpired_iff.mp hw.2)
  | finished own | givenUp error own =>
    rw [← hlease] at howner
    cases howner

end Rows

/-- How far a delivery has come. -/
inductive RunPhase where
  | claiming | acquired | handling | failing | succeeding | over
  deriving DecidableEq

/-- What the journal tells of a delivery in a phase. -/
structure RunPhase.Agrees (phase : RunPhase) (run : ι) (journal : List (ι × RunStage)) : Prop where
  claiming : phase = .claiming → ∀ stage, (run, stage) ∉ journal
  acquired : phase ≠ .claiming → phase ≠ .over → (run, .acquired) ∈ journal
  /-- A run that has started was acquired. -/
  started : (run, .started) ∈ journal → (run, .acquired) ∈ journal
  /-- A run completes after it succeeded only. -/
  completed : phase ≠ .over → (run, .completed) ∉ journal
  failed : (run, .failed) ∈ journal → phase = .failing ∨ phase = .over ∧ (run, .completed) ∉ journal

/-- What is left of the program of a delivery in a phase. -/
inductive Consuming (worker : IdempotentEventConsumer) (handler : EventHandler τ)
    (event : IntegrationEvent) (run : ι) :
    RunPhase → Proc (ConsumerWorld ι τ) String ConsumerResult → Prop
  | handle : Consuming worker handler event run .claiming (worker.handle handler event run)
  | reclaim : Consuming worker handler event run .claiming
      (worker.reclaim event run >>= worker.serve handler event run)
  | take : Consuming worker handler event run .claiming
      ((Proc.effect (worker.take event run) >>= fun taken =>
        if taken then pure .acquired else pure .busy) >>= worker.serve handler event run)
  | serve : Consuming worker handler event run .acquired (worker.serve handler event run .acquired)
  | finish : Consuming worker handler event run .handling
      (Proc.effect (finish handler event run) >>= worker.settle event run)
  | release (error : String) : Consuming worker handler event run .failing
      (Proc.effect (worker.release event error) >>= fun _ => .raise error)
  | complete : Consuming worker handler event run .succeeding
      (Proc.effect (worker.complete event run) >>= fun completed =>
        pure { processed := completed })
  | done (result : ConsumerResult) : Consuming worker handler event run .over (.done result)
  | raised (error : String) : Consuming worker handler event run .over (.raise error)

/-- What a claim that succeeds finds and leaves: the event is not processed and nobody holds an
unexpired lease on it, and then the worker holds one. -/
structure Claims (worker : IdempotentEventConsumer) (event : IntegrationEvent)
    (s s' : ConsumerWorld ι τ) : Prop where
  unprocessed : ∀ r ∈ s.processed.rows, r.key = worker.key event → r.processedAt = none
  available : ∀ r ∈ s.processed.rows, r.key = worker.key event → r.lease.Available s.clock
  granted : ∃ r ∈ s'.processed.rows, r.key = worker.key event ∧
    r.lease = .granted worker.workerId (s.clock.plusSeconds worker.leaseSeconds)

/-- What one statement of a delivery does to the world. -/
structure ConsumerStatement (worker : IdempotentEventConsumer) (event : IntegrationEvent) (run : ι)
    (s s' : ConsumerWorld ι τ) : Prop where
  clock : s'.clock = s.clock
  /-- The journal entries of other runs are left alone. -/
  others : ∀ j stage, j ≠ run → ((j, stage) ∈ s'.journal ↔ (j, stage) ∈ s.journal)
  /-- Every row is still there, treated in one of the four ways. -/
  forward : ∀ r ∈ s.processed.rows, ∃ r' ∈ s'.processed.rows,
    ProcessedStep worker (worker.key event) s.clock r r'
  acquires : (run, .acquired) ∈ s'.journal → (run, .acquired) ∉ s.journal →
    Claims worker event s s'
  /-- After the claim, rows change at the hands of their owners. -/
  owned : (run, .acquired) ∈ s.journal → ∀ r ∈ s.processed.rows, r ∉ s'.processed.rows →
    r.lease.owner = some worker.workerId

section Statements

variable {worker : IdempotentEventConsumer} {event : IntegrationEvent} {run : ι}
  {s : ConsumerWorld ι τ}

/-- The journal gains exactly the noted entry, and only if the step was taken. -/
theorem mem_noted {journal : List (ι × RunStage)} {stage : RunStage} {did : Bool}
    {entry : ι × RunStage} :
    entry ∈ noted journal run stage did ↔ did = true ∧ entry = (run, stage) ∨ entry ∈ journal := by
  unfold noted
  cases did <;> simp

/-- The entries of other runs stay as they were. -/
theorem mem_noted_of_ne {journal : List (ι × RunStage)} {stage stage' : RunStage} {did : Bool}
    {j : ι} (hj : j ≠ run) : (j, stage') ∈ noted journal run stage did ↔ (j, stage') ∈ journal := by
  rw [mem_noted]
  simp [hj]

/-- A statement that updates the rows meeting a condition. -/
theorem ConsumerStatement.of_update {s' : ConsumerWorld ι τ} {p : ProcessedRow → Bool}
    {f : ProcessedRow → ProcessedRow} (hf : ∀ r, (f r).key = r.key) (hclock : s'.clock = s.clock)
    (hrows : s'.processed = s.processed.updateWhere p f hf)
    (hothers : ∀ j stage, j ≠ run → ((j, stage) ∈ s'.journal ↔ (j, stage) ∈ s.journal))
    (hstep : ∀ r, p r = true → ProcessedStep worker (worker.key event) s.clock r (f r))
    (hacquires : (run, .acquired) ∈ s'.journal → (run, .acquired) ∉ s.journal →
      Claims worker event s s')
    (howned : (run, .acquired) ∈ s.journal → ∀ r, p r = true →
      r.lease.owner = some worker.workerId) :
    ConsumerStatement worker event run s s' := by
  refine ⟨hclock, hothers, fun r hr => ?_, hacquires, fun hacq r hr hne => ?_⟩
  · rw [hrows]
    refine ⟨_, (Table.mem_updateWhere (h := hf)).mpr ⟨r, hr, rfl⟩, ?_⟩
    split
    · rename_i hp
      exact hstep r hp
    · exact .stays r
  · cases hp : p r with
    | true => exact howned hacq r hp
    | false =>
      rw [hrows] at hne
      exact absurd (Table.mem_updateWhere_of_not hr hp) hne

/-- A statement that leaves the rows alone. -/
theorem ConsumerStatement.of_rows {s' : ConsumerWorld ι τ} (hclock : s'.clock = s.clock)
    (hrows : s'.processed = s.processed)
    (hothers : ∀ j stage, j ≠ run → ((j, stage) ∈ s'.journal ↔ (j, stage) ∈ s.journal))
    (hacquired : (run, .acquired) ∈ s'.journal → (run, .acquired) ∈ s.journal) :
    ConsumerStatement worker event run s s' := by
  refine ⟨hclock, hothers, fun r hr => ⟨r, hrows ▸ hr, .stays r⟩,
    fun h hn => ?_, fun _ r hr hne => ?_⟩
  · exact absurd (hacquired h) hn
  · exact absurd (hrows ▸ hr) hne

/-- Reading changes nothing. -/
theorem ConsumerStatement.read : ConsumerStatement worker event run s s :=
  .of_rows rfl rfl (fun _ _ _ => Iff.rfl) id

/-- An existing row refuses the insertion. -/
theorem insert_of_found {found : ProcessedRow}
    (h : s.processed.find (worker.key event) = some found) :
    worker.insert event run s = (false, s) := by
  simp [IdempotentEventConsumer.insert, insertProcessing, h, noted]

/-- Without a row the insertion adds one owned by the run. -/
theorem insert_of_none (h : s.processed.find (worker.key event) = none) :
    worker.insert event run s = (true,
      { s with
        processed := s.processed.put ⟨worker.key event,
          .granted worker.workerId (s.clock.plusSeconds worker.leaseSeconds), 1, none, none⟩
        journal := (run, .acquired) :: s.journal }) := by
  simp [IdempotentEventConsumer.insert, insertProcessing, h, noted]

/-- The insertion acts on the row of its own key and notes an acquisition of a fresh run. -/
theorem ConsumerStatement.insert (hfresh : (run, .acquired) ∉ s.journal) :
    ConsumerStatement worker event run s (worker.insert event run s).2 := by
  cases hfind : s.processed.find (worker.key event) with
  | some found =>
    rw [insert_of_found hfind]
    exact ConsumerStatement.read
  | none =>
    have hnone := Table.find_eq_none.mp hfind
    rw [insert_of_none hfind]
    refine ⟨rfl, fun j stage hj => by simp [hj], fun r hr => ⟨r, ?_, .stays r⟩,
      fun _ _ => ⟨fun r hr hkey => absurd hkey (hnone r hr),
        fun r hr hkey => absurd hkey (hnone r hr), _, Table.mem_put.mpr (.inl rfl), rfl, rfl⟩,
      fun hacq => absurd hacq hfresh⟩
    exact Table.mem_put.mpr (.inr ⟨hr, hnone r hr⟩)

/-- Taking over acts on the row of its own key and notes an acquisition of a fresh run. -/
theorem ConsumerStatement.take (hfresh : (run, .acquired) ∉ s.journal) :
    ConsumerStatement worker event run s (worker.take event run s).2 := by
  refine .of_update (taken_key s.clock worker.workerId worker.leaseSeconds) rfl rfl
    (fun j stage hj => mem_noted_of_ne hj) (fun r hp => .taken r (of_decide_eq_true hp))
    (fun h _ => ?_) fun hacq => absurd hacq hfresh
  rcases mem_noted.mp h with ⟨hany, -⟩ | hacq
  · obtain ⟨x, hx, htake⟩ := List.any_eq_true.mp hany
    obtain ⟨hxkey, hxnone, hxavailable⟩ := of_decide_eq_true htake
    have hrow : ∀ r ∈ s.processed.rows, r.key = worker.key event → r = x :=
      fun r hr hkey => s.processed.eq_of_key_eq hr hx (hkey.trans hxkey.symm)
    refine ⟨fun r hr hkey => ?_, fun r hr hkey => ?_,
      taken s.clock worker.workerId worker.leaseSeconds x, ?_, hxkey, rfl⟩
    · rw [hrow r hr hkey]
      exact hxnone
    · rw [hrow r hr hkey]
      exact hxavailable
    · refine (Table.mem_updateWhere (h := taken_key s.clock worker.workerId
        worker.leaseSeconds)).mpr ⟨x, hx, ?_⟩
      rw [if_pos htake]
  · exact absurd hacq hfresh

/-- Noting the start of the handler leaves the rows alone. -/
theorem ConsumerStatement.start : ConsumerStatement worker event run s (start run s).2 :=
  .of_rows rfl rfl (fun j stage hj => by
    simp [IdempotentEventConsumer.start, noted, hj])
    (by simp [IdempotentEventConsumer.start, noted])

/-- The handler's outcome is noted without touching the rows. -/
theorem ConsumerStatement.finish {handler : EventHandler τ} :
    ConsumerStatement worker event run s (finish handler event run s).2 := by
  refine .of_rows rfl rfl (fun j stage hj => mem_noted_of_ne hj) fun h => ?_
  rcases mem_noted.mp h with ⟨-, he⟩ | h
  · cases he
  · exact h

/-- Completing acts on the row of its own key only. -/
theorem ConsumerStatement.complete :
    ConsumerStatement worker event run s (worker.complete event run s).2 := by
  refine .of_update (finished_key s.clock) rfl rfl (fun j stage hj => mem_noted_of_ne hj)
    (fun r hp => .finished r (of_decide_eq_true hp)) (fun h hn => ?_)
    fun _ r hp => (of_decide_eq_true hp).2.1
  rcases mem_noted.mp h with ⟨-, he⟩ | h
  · cases he
  · exact absurd h hn

/-- Releasing acts on the row of its own key only. -/
theorem ConsumerStatement.release {error : String} :
    ConsumerStatement worker event run s (worker.release event error s).2 :=
  .of_update (givenUp_key (Text.take 2000 error)) rfl rfl (fun _ _ _ => Iff.rfl)
    (fun r hp => .givenUp r _ (of_decide_eq_true hp)) (fun h hn => absurd h hn)
    fun _ _ hp => (of_decide_eq_true hp).2.1

end Statements

section Programs

variable {worker : IdempotentEventConsumer} {handler : EventHandler τ} {event : IntegrationEvent}
  {run : ι} {s : ConsumerWorld ι τ} {phase : RunPhase}
  {p : Proc (ConsumerWorld ι τ) String ConsumerResult}
  {act : ConsumerWorld ι τ → ConsumerWorld ι τ}
  {next : ConsumerWorld ι τ → Proc (ConsumerWorld ι τ) String ConsumerResult}

/-- A run may end with the journal it has, unless it completed after a failure. -/
theorem RunPhase.Agrees.over {journal : List (ι × RunStage)} (h : phase.Agrees run journal)
    (hn : (run, .failed) ∈ journal → (run, .completed) ∉ journal) :
    RunPhase.over.Agrees run journal :=
  ⟨by simp, by simp, h.started, by simp, fun hf => .inr ⟨rfl, hn hf⟩⟩

/-- A delivery that was not acquired may end. -/
theorem RunPhase.Agrees.unclaimed {journal : List (ι × RunStage)}
    (h : RunPhase.claiming.Agrees run journal) : RunPhase.over.Agrees run journal :=
  h.over fun hf => absurd hf (h.claiming rfl _)

/-- A claim that succeeded is noted. -/
theorem RunPhase.Agrees.acquire {journal : List (ι × RunStage)}
    (h : RunPhase.claiming.Agrees run journal) :
    RunPhase.acquired.Agrees run ((run, .acquired) :: journal) := by
  have hnone := h.claiming rfl
  constructor <;> simp [hnone]

/-- The start of a handler is noted. -/
theorem RunPhase.Agrees.start {journal : List (ι × RunStage)}
    (h : RunPhase.acquired.Agrees run journal) :
    RunPhase.handling.Agrees run ((run, .started) :: journal) := by
  have hacq := h.acquired (by decide) (by decide)
  have hcompleted := h.completed (by decide)
  have hfailed : (run, RunStage.failed) ∉ journal := fun hf => by
    rcases h.failed hf with h | ⟨h, -⟩ <;> cases h
  constructor <;> simp [hacq, hcompleted, hfailed]

/-- A failed handler is noted, a successful one leaves no note. -/
theorem RunPhase.Agrees.fail {journal : List (ι × RunStage)}
    (h : RunPhase.handling.Agrees run journal) :
    RunPhase.failing.Agrees run ((run, .failed) :: journal) := by
  have hacq := h.acquired (by decide) (by decide)
  have hcompleted := h.completed (by decide)
  constructor <;> simp [hacq, hcompleted]

/-- A handler that returned keeps what the journal says of its run. -/
theorem RunPhase.Agrees.succeed {journal : List (ι × RunStage)}
    (h : RunPhase.handling.Agrees run journal) : RunPhase.succeeding.Agrees run journal := by
  have hacq := h.acquired (by decide) (by decide)
  have hcompleted := h.completed (by decide)
  have hfailed : (run, RunStage.failed) ∉ journal := fun hf => by
    rcases h.failed hf with h | ⟨h, -⟩ <;> cases h
  constructor <;> simp [hacq, hcompleted, hfailed]

/-- A completion is noted after a handler that did not fail. -/
theorem RunPhase.Agrees.complete {journal : List (ι × RunStage)} {did : Bool}
    (h : RunPhase.succeeding.Agrees run journal) :
    RunPhase.over.Agrees run (noted journal run .completed did) := by
  have hfailed : (run, RunStage.failed) ∉ journal := fun hf => by
    rcases h.failed hf with h | ⟨h, -⟩ <;> cases h
  have hacq := h.acquired (by decide) (by decide)
  constructor <;> simp [mem_noted, hfailed, hacq]

/-- Every call of a delivery is a statement, and what is left after it is such a rest again, in a
phase that agrees with the journal. -/
theorem Consuming.call (h : Consuming worker handler event run phase p)
    (hj : phase.Agrees run s.journal) (hp : p = .call act next) :
    ConsumerStatement worker event run s (act s) ∧
      ∃ phase', Consuming worker handler event run phase' (next s) ∧
        phase'.Agrees run (act s).journal := by
  cases h with
  | handle =>
    cases hp
    refine ⟨ConsumerStatement.insert (hj.claiming rfl _), ?_⟩
    cases hfind : s.processed.find (worker.key event) with
    | some found =>
      refine ⟨.claiming, ?_, ?_⟩
      · simp only [insert_of_found hfind]
        exact .reclaim
      · simp only [insert_of_found hfind]
        exact hj
    | none =>
      refine ⟨.acquired, ?_, ?_⟩
      · simp only [insert_of_none hfind]
        exact .serve
      · simp only [insert_of_none hfind]
        exact hj.acquire
  | reclaim =>
    cases hp
    refine ⟨.read, ?_⟩
    cases hdone : s.processed.isProcessed (worker.key event) with
    | true =>
      refine ⟨.over, ?_, hj.unclaimed⟩
      simp only [Proc.bind, hdone, if_true]
      exact .done _
    | false =>
      refine ⟨.claiming, ?_, hj⟩
      simp only [Proc.bind, hdone, if_neg Bool.false_ne_true]
      exact .take
  | take =>
    cases hp
    refine ⟨.take (hj.claiming rfl _), ?_⟩
    have hnote : (worker.take event run s).2.journal =
        noted s.journal run .acquired (worker.take event run s).1 := rfl
    simp only [hnote]
    cases (worker.take event run s).1 with
    | true => exact ⟨.acquired, .serve, hj.acquire⟩
    | false => exact ⟨.over, .done _, hj.unclaimed⟩
  | serve =>
    cases hp
    exact ⟨.start, .handling, .finish, hj.start⟩
  | finish =>
    cases hp
    refine ⟨.finish, ?_⟩
    have hnote : (IdempotentEventConsumer.finish handler event run s).2.journal =
        noted s.journal run .failed
          (!(IdempotentEventConsumer.finish handler event run s).1.isOk) := rfl
    simp only [hnote]
    cases (IdempotentEventConsumer.finish handler event run s).1 with
    | error e => exact ⟨.failing, .release e, hj.fail⟩
    | ok u => exact ⟨.succeeding, .complete, hj.succeed⟩
  | release error =>
    cases hp
    exact ⟨.release, .over, .raised error, hj.over fun _ => hj.completed (by decide)⟩
  | complete =>
    cases hp
    exact ⟨.complete, .over, .done _, hj.complete⟩
  | done | raised => cases hp

end Programs

/-- What holds in every reached state. -/
structure ConsumerSafe (s : ConsumerWorld ι τ) : Prop where
  /-- A run whose handler failed has not completed. -/
  failed : ∀ run, (run, .failed) ∈ s.journal → (run, .completed) ∉ s.journal
  /-- A worker that is not the owner completes and releases nothing. -/
  completes : ∀ r ∈ s.processed.rows, ∀ w, r.lease.owner ≠ some w →
    s.processed.completeEventProcessing s.clock r.key w = (false, s.processed)
  releases : ∀ r ∈ s.processed.rows, ∀ w error, r.lease.owner ≠ some w →
    s.processed.releaseEventProcessing r.key w error = (false, s.processed)

/-- What holds of every step of a client. -/
structure ConsumerStepSafe (client : ConsumerClient) (run : ι) (s s' : ConsumerWorld ι τ) :
    Prop where
  /-- An unexpired lease and its row change at the hands of the lease holder only. -/
  held : ∀ r ∈ s.processed.rows, ∀ w, r.lease.HeldBy w s.clock → r ∉ s'.processed.rows →
    ∃ worker event, client = .deliver worker event ∧ worker.workerId = w ∧
      worker.key event = r.key
  /-- A claim succeeds on an event that is neither processed nor under an unexpired lease. -/
  claimed : (run, .acquired) ∈ s'.journal → (run, .acquired) ∉ s.journal →
    ∃ worker event, client = .deliver worker event ∧ Claims worker event s s'
  /-- A worker past its claim changes only rows that it owns. -/
  owned : (run, .acquired) ∈ s.journal → ∀ r ∈ s.processed.rows, r ∉ s'.processed.rows →
    ∃ worker event, client = .deliver worker event ∧ r.lease.owner = some worker.workerId

/-- From one state to a later one: processed rows are final, and a delivery of a processed event
that was not acquired yet does not start its handler. -/
structure ProcessedForGood (clients : ι → ConsumerClient) (s s' : ConsumerWorld ι τ) : Prop where
  kept : ∀ r ∈ s.processed.rows, r.processedAt ≠ none → r ∈ s'.processed.rows
  skipped : ∀ r ∈ s.processed.rows, r.processedAt ≠ none → ∀ run worker event,
    clients run = .deliver worker event → worker.key event = r.key →
      (run, .acquired) ∉ s.journal → (run, .started) ∉ s'.journal

/-- A delivery of the worker that holds a row gives the row up in the course of a schedule. -/
def GivesUp [DecidableEq ι] (clients : ι → ConsumerClient)
    (c : Pool.Config (ConsumerWorld ι τ) String ConsumerResult ι) (later : List ι) (holder : String)
    (r : ProcessedRow) : Prop :=
  ∃ pre k post worker event, later = pre ++ k :: post ∧ clients k = .deliver worker event ∧
    worker.workerId = holder ∧ worker.key event = r.key ∧ r ∈ (Pool.exec c pre).1.processed.rows ∧
    r ∉ (Pool.exec c (pre ++ [k])).1.processed.rows

/-- A claim that succeeds excludes all others on its event: as long as its term lasts, its worker
has given the row up, or holds it still and no further claim has succeeded. -/
def ClaimExcludes [DecidableEq ι] (clients : ι → ConsumerClient)
    (c : Pool.Config (ConsumerWorld ι τ) String ConsumerResult ι) (run : ι) (later : List ι) :
    Prop :=
  ∀ worker event, clients run = .deliver worker event → (run, .acquired) ∉ c.1.journal →
    (run, .acquired) ∈ (Pool.step c run).1.journal →
    (Pool.exec c (run :: later)).1.clock ≤ c.1.clock.plusSeconds worker.leaseSeconds →
    ∃ r ∈ (Pool.step c run).1.processed.rows, r.key = worker.key event ∧
      r.lease = .granted worker.workerId (c.1.clock.plusSeconds worker.leaseSeconds) ∧
      (GivesUp clients (Pool.step c run) later worker.workerId r ∨
        r ∈ (Pool.exec c (run :: later)).1.processed.rows ∧
          ∀ j other delivery, clients j = .deliver other delivery →
            other.key delivery = worker.key event → j ≠ run →
            (j, .acquired) ∈ (Pool.exec c (run :: later)).1.journal →
            (j, .acquired) ∈ c.1.journal)

/-- Clients that start without processed events. -/
def consumerPool (handler : EventHandler τ) (clients : ι → ConsumerClient) (clock : DateTime)
    (domain : τ) : Pool.Config (ConsumerWorld ι τ) String ConsumerResult ι :=
  (⟨clock, Table.empty, domain, []⟩, fun i => (clients i).program handler i)

/-- A client is in the middle of its program. -/
def ConsumerClient.Underway (handler : EventHandler τ) (client : ConsumerClient) (run : ι)
    (journal : List (ι × RunStage)) (p : Proc (ConsumerWorld ι τ) String ConsumerResult) : Prop :=
  match client with
  | .deliver worker event =>
    ∃ phase, Consuming worker handler event run phase p ∧ phase.Agrees run journal
  | .pass moment =>
    (∀ stage, (run, stage) ∉ journal) ∧
      (p = .effect (passConsumerTime moment) ∨ ∃ result, p = .done result)

/-- What one call of a client does to the world. -/
structure ConsumerCall (client : ConsumerClient) (run : ι) (s s' : ConsumerWorld ι τ) :
    Prop where
  clock : s.clock ≤ s'.clock
  safe : ConsumerStepSafe client run s s'
  others : ∀ j stage, j ≠ run → ((j, stage) ∈ s'.journal ↔ (j, stage) ∈ s.journal)
  kept : ∀ r ∈ s.processed.rows, r.processedAt ≠ none → r ∈ s'.processed.rows

section Clients

variable {handler : EventHandler τ} {client : ConsumerClient} {run : ι} {s : ConsumerWorld ι τ}
  {p : Proc (ConsumerWorld ι τ) String ConsumerResult}
  {act : ConsumerWorld ι τ → ConsumerWorld ι τ}
  {next : ConsumerWorld ι τ → Proc (ConsumerWorld ι τ) String ConsumerResult}

/-- A statement of one delivery is a step of the call it belongs to. -/
theorem ConsumerStatement.call {worker : IdempotentEventConsumer} {event : IntegrationEvent}
    {s' : ConsumerWorld ι τ} (h : ConsumerStatement worker event run s s') :
    ConsumerCall (.deliver worker event) run s s' where
  clock := h.clock.ge
  safe := by
    refine ⟨fun r hr w hw hne => ⟨worker, event, rfl, ?_⟩,
      fun hacq hn => ⟨worker, event, rfl, h.acquires hacq hn⟩, fun hacq r hr hne => ?_⟩
    · obtain ⟨r', hr', hstep⟩ := h.forward r hr
      have hchanged : r' ≠ r := by
        rintro rfl
        exact hne hr'
      refine ⟨?_, (hstep.key_eq hchanged).symm⟩
      by_contra hworker
      exact hchanged (hstep.eq_of_heldBy hw hworker)
    · exact ⟨worker, event, rfl, h.owned hacq r hr hne⟩
  others := h.others
  kept r hr hdone := by
    obtain ⟨r', hr', hstep⟩ := h.forward r hr
    rwa [hstep.eq_of_processed hdone] at hr'

/-- A call that only lets time pass. -/
theorem ConsumerCall.of_same {s' : ConsumerWorld ι τ} (hclock : s.clock ≤ s'.clock)
    (hrows : s'.processed = s.processed) (hjournal : s'.journal = s.journal) :
    ConsumerCall client run s s' where
  clock := hclock
  safe := ⟨fun r hr w _ hne => absurd (hrows ▸ hr) hne, fun h hn => absurd (hjournal ▸ h) hn,
    fun _ r hr hne => absurd (hrows ▸ hr) hne⟩
  others j stage _ := by rw [hjournal]
  kept r hr _ := hrows ▸ hr

/-- A client's call, and what is left of the client after it. -/
theorem ConsumerClient.Underway.call (h : client.Underway handler run s.journal p)
    (hp : p = .call act next) :
    ConsumerCall client run s (act s) ∧ client.Underway handler run (act s).journal (next s) := by
  cases client with
  | deliver worker event =>
    obtain ⟨phase, hrest, hagrees⟩ := h
    obtain ⟨hstatement, hrest'⟩ := hrest.call hagrees hp
    exact ⟨hstatement.call, hrest'⟩
  | pass moment =>
    obtain ⟨hnone, rfl | ⟨result, rfl⟩⟩ := h
    · cases hp
      exact ⟨.of_same (le_max_left _ _) rfl rfl, hnone, .inr ⟨_, rfl⟩⟩
    · cases hp

/-- Agreement depends only on the run's own journal entries. -/
theorem RunPhase.Agrees.of_iff {phase : RunPhase} {journal journal' : List (ι × RunStage)}
    (h : phase.Agrees run journal)
    (hiff : ∀ stage, (run, stage) ∈ journal' ↔ (run, stage) ∈ journal) :
    phase.Agrees run journal' := by
  refine ⟨fun hc stage => ?_, fun hc ho => ?_, fun hs => ?_, fun ho => ?_, fun hf => ?_⟩
  · rw [hiff]
    exact h.claiming hc stage
  · rw [hiff]
    exact h.acquired hc ho
  · rw [hiff] at hs ⊢
    exact h.started hs
  · rw [hiff]
    exact h.completed ho
  · rw [hiff] at hf ⊢
    exact h.failed hf

/-- What a client knows of the journal survives the entries of others. -/
theorem ConsumerClient.Underway.of_iff {journal journal' : List (ι × RunStage)}
    (h : client.Underway handler run journal p)
    (hiff : ∀ stage, (run, stage) ∈ journal' ↔ (run, stage) ∈ journal) :
    client.Underway handler run journal' p := by
  cases client with
  | deliver worker event =>
    obtain ⟨phase, hrest, hagrees⟩ := h
    exact ⟨phase, hrest, hagrees.of_iff hiff⟩
  | pass moment => exact ⟨fun stage => by rw [hiff]; exact h.1 stage, h.2⟩

/-- What the journal says of a client in the middle of its program. -/
theorem ConsumerClient.Underway.journal {journal : List (ι × RunStage)}
    (h : client.Underway handler run journal p) :
    ((run, .started) ∈ journal → (run, .acquired) ∈ journal) ∧
      ((run, .failed) ∈ journal → (run, .completed) ∉ journal) := by
  cases client with
  | deliver worker event =>
    obtain ⟨phase, -, hagrees⟩ := h
    refine ⟨hagrees.started, fun hf => ?_⟩
    rcases hagrees.failed hf with hphase | ⟨-, hn⟩
    · exact hagrees.completed (by rw [hphase]; decide)
    · exact hn
  | pass moment => exact ⟨fun hs => absurd hs (h.1 _), fun hf => absurd hf (h.1 _)⟩

end Clients

section Pools

variable [DecidableEq ι] {handler : EventHandler τ} {clients : ι → ConsumerClient}
  {c : Pool.Config (ConsumerWorld ι τ) String ConsumerResult ι}

/-- Every client is in the middle of its program. -/
def Consumed (handler : EventHandler τ) (clients : ι → ConsumerClient)
    (c : Pool.Config (ConsumerWorld ι τ) String ConsumerResult ι) : Prop :=
  ∀ j, (clients j).Underway handler j c.1.journal (c.2 j)

/-- Whichever client moves, the invariant stays. -/
theorem Consumed.step (h : Consumed handler clients c) (i : ι) :
    Consumed handler clients (Pool.step c i) := by
  refine (Pool.step_of_guarantees (J := fun _ => True)
    (R := fun i s s' => ∀ j stage, j ≠ i → ((j, stage) ∈ s'.journal ↔ (j, stage) ∈ s.journal))
    (Φ := fun j (s : ConsumerWorld ι τ) p => (clients j).Underway handler j s.journal p)
    (fun j p s s' hj hR hp => hp.of_iff fun stage => hR j stage hj) (fun act next hcall => ?_)
    trivial h).2
  obtain ⟨hc, hrest⟩ := (h i).call hcall
  exact ⟨trivial, hc.others, hrest⟩

/-- A step is a call of its client, or nothing. -/
theorem Consumed.call (h : Consumed handler clients c) (i : ι) :
    ConsumerCall (clients i) i c.1 (Pool.step c i).1 := by
  cases hp : c.2 i with
  | call act next =>
    rw [Pool.step_of_call hp]
    exact ((h i).call hp).1
  | done | raise =>
    rw [Pool.step_of_no_call (by simp [hp])]
    exact .of_same le_rfl rfl rfl

omit [DecidableEq ι] in
/-- The invariant contains the safety of the reached state. -/
theorem Consumed.safe (h : Consumed handler clients c) : ConsumerSafe c.1 where
  failed run := (h run).journal.2
  completes _ hr _ hne := completeEventProcessing_of_not_owner hr hne
  releases _ hr _ _ hne := releaseEventProcessing_of_not_owner hr hne

/-- A processed row stays, and no delivery of its event is acquired any more. -/
theorem Consumed.final (h : Consumed handler clients c) {r : ProcessedRow}
    (hr : r ∈ c.1.processed.rows) (hdone : r.processedAt ≠ none) {run : ι}
    {worker : IdempotentEventConsumer} {event : IntegrationEvent}
    (hclient : clients run = .deliver worker event) (hkey : worker.key event = r.key)
    (hn : (run, .acquired) ∉ c.1.journal) (schedule : List ι) :
    Consumed handler clients (Pool.exec c schedule) ∧
      (run, .acquired) ∉ (Pool.exec c schedule).1.journal := by
  refine (Pool.exec_induction (I := fun c => (Consumed handler clients c ∧
    (run, .acquired) ∉ c.1.journal) ∧ r ∈ c.1.processed.rows) (fun c i hI => ?_)
    ⟨⟨h, hn⟩, hr⟩ schedule).1
  obtain ⟨⟨hc, hn⟩, hr⟩ := hI
  have hcall := hc.call i
  refine ⟨⟨hc.step i, fun hacq => ?_⟩, hcall.kept r hr hdone⟩
  by_cases hi : run = i
  · subst hi
    obtain ⟨worker', event', hclient', hclaims⟩ := hcall.safe.claimed hacq hn
    rw [hclient] at hclient'
    cases hclient'
    exact hdone (hclaims.unprocessed r hr hkey.symm)
  · exact hn ((hcall.others run _ hi).mp hacq)

/-- A processed row survives every later schedule unchanged. -/
theorem Consumed.kept (h : Consumed handler clients c) {r : ProcessedRow}
    (hr : r ∈ c.1.processed.rows) (hdone : r.processedAt ≠ none) (schedule : List ι) :
    r ∈ (Pool.exec c schedule).1.processed.rows :=
  (Pool.exec_induction (I := fun c => Consumed handler clients c ∧ r ∈ c.1.processed.rows)
    (fun _ i hI => ⟨hI.1.step i, (hI.1.call i).kept r hI.2 hdone⟩) ⟨h, hr⟩ schedule).2

/-- From a reached state on, no processed event is handled again. -/
theorem Consumed.processedForGood (h : Consumed handler clients c) (schedule : List ι) :
    ProcessedForGood clients c.1 (Pool.exec c schedule).1 where
  kept _ hr hdone := h.kept hr hdone schedule
  skipped r hr hdone run worker event hclient hkey hn hstarted := by
    obtain ⟨hlater, hacq⟩ := h.final hr hdone hclient hkey hn schedule
    exact hacq ((hlater run).journal.1 hstarted)

/-- The clock does not go back. -/
theorem Consumed.clock_le (h : Consumed handler clients c) (later : List ι) :
    c.1.clock ≤ (Pool.exec c later).1.clock :=
  (Pool.exec_induction (I := fun d => Consumed handler clients d ∧ c.1.clock ≤ d.1.clock)
    (fun _ i hI => ⟨hI.1.step i, hI.2.trans (hI.1.call i).clock⟩) ⟨h, le_rfl⟩ later).2

/-- As long as the term of a held row lasts, its holder gives it up, or it stays and no claim on its
event succeeds. -/
theorem Consumed.excludes (h : Consumed handler clients c) {r : ProcessedRow}
    (hr : r ∈ c.1.processed.rows) {holder : String} {term : DateTime}
    (hlease : r.lease = .granted holder term) {later : List ι}
    (hclock : (Pool.exec c later).1.clock ≤ term) :
    GivesUp clients c later holder r ∨ r ∈ (Pool.exec c later).1.processed.rows ∧
      ∀ j worker event, clients j = .deliver worker event → worker.key event = r.key →
        (j, .acquired) ∈ (Pool.exec c later).1.journal → (j, .acquired) ∈ c.1.journal := by
  induction later generalizing c with
  | nil => exact .inr ⟨hr, fun _ _ _ _ _ hacq => hacq⟩
  | cons k rest ih =>
    have hcall := h.call k
    have hheld : r.lease.HeldBy holder c.1.clock := by
      rw [hlease]
      exact ⟨rfl, term, rfl, (h.clock_le (k :: rest)).trans hclock⟩
    by_cases hstays : r ∈ (Pool.step c k).1.processed.rows
    · rcases ih (h.step k) hstays hclock with
        ⟨pre, j, post, worker, event, hrest, hclient, hworker, hkey, hbefore, hafter⟩ |
        ⟨hlast, hnone⟩
      · exact .inl ⟨k :: pre, j, post, worker, event, by rw [hrest, List.cons_append], hclient,
          hworker, hkey, hbefore, hafter⟩
      · refine .inr ⟨hlast, fun j worker event hclient hkey hacq => ?_⟩
        have hnext := hnone j worker event hclient hkey hacq
        by_cases hj : j = k
        · subst hj
          by_contra hn
          -- a claim succeeds on an available row only
          obtain ⟨worker', event', hclient', hclaims⟩ := hcall.safe.claimed hnext hn
          rw [hclient] at hclient'
          cases hclient'
          exact Lease.unexpired_iff.mp hheld.2 (hclaims.available r hr hkey.symm)
        · exact (hcall.others j _ hj).mp hnext
    · obtain ⟨worker, event, hclient, hworker, hkey⟩ := hcall.safe.held r hr holder hheld hstays
      exact .inl ⟨[], k, rest, worker, event, rfl, hclient, hworker, hkey, hr, hstays⟩

/-- A claim that succeeds excludes all others. -/
theorem Consumed.claimExcludes (h : Consumed handler clients c) (run : ι) (later : List ι) :
    ClaimExcludes clients c run later := by
  intro worker event hclient hn hacq hclock
  have hcall := h.call run
  obtain ⟨worker', event', hclient', hclaims⟩ := hcall.safe.claimed hacq hn
  rw [hclient] at hclient'
  cases hclient'
  obtain ⟨r, hr, hkey, hlease⟩ := hclaims.granted
  refine ⟨r, hr, hkey, hlease, ?_⟩
  rcases (h.step run).excludes hr hlease hclock with hgiven | ⟨hlast, hnone⟩
  · exact .inl hgiven
  · refine .inr ⟨hlast, fun j other delivery hother hsame hj hlater => ?_⟩
    have hnext := hnone j other delivery hother (hsame.trans hkey.symm) hlater
    exact (hcall.others j _ hj).mp hnext

end Pools

/-- For all workers, handlers and deliveries, and every interleaving of their statements with
expiries and crashes: processed events stay processed and start no later run, a claim that succeeds
excludes all others while its term lasts and its worker does not give the event up, failed runs do
not complete, and a worker whose lease was taken over changes nothing. -/
theorem consumer_safe [DecidableEq ι] (handler : EventHandler τ) (clients : ι → ConsumerClient)
    (clock : DateTime) (domain : τ) (schedule later : List ι) :
    let c := Pool.exec (consumerPool handler clients clock domain) schedule
    ConsumerSafe c.1 ∧ (∀ i, ConsumerStepSafe (clients i) i c.1 (Pool.step c i).1) ∧
      (∀ i, ClaimExcludes clients c i later) ∧
      ProcessedForGood clients c.1 (Pool.exec c later).1 := by
  have hstart : Consumed handler clients (consumerPool handler clients clock domain) := by
    intro j
    change (clients j).Underway handler j [] ((clients j).program handler j)
    cases clients j with
    | deliver worker event =>
      refine ⟨.claiming, .handle, ?_⟩
      constructor <;> simp
    | pass moment => exact ⟨by simp, .inl rfl⟩
  have hreached := Pool.exec_induction (I := Consumed handler clients)
    (fun c i h => h.step i) hstart schedule
  exact ⟨hreached.safe, fun i => (hreached.call i).safe, fun i => hreached.claimExcludes i later,
    hreached.processedForGood later⟩

end MemoryPlane
