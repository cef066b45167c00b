import Mathlib.Tactic.NormNum
import MemoryPlane.Adapters.InMemory
import MemoryPlane.Lib.Proc
import MemoryPlane.Services.Privacy

/-!
# Retention service

The transactional write path. A command is checked by the privacy guard and by the
constructor of the item; the store is then called once to append it, or read once and called
once to replace a current head.
-/

namespace MemoryPlane

/-- The work that a stored item queues. -/
def retentionJobs : Json := .arr [.str "embed", .str "reflect"]

/-- The ledger calls that the service makes, over any ledger state. -/
structure RetentionStore (σ : Type) where
  get : σ → UUID → UUID → Option MemoryItem
  retain : MemoryItem → IntegrationEvent → Option String → Option AuditEvent → σ →
    Except Exn (MemoryItem × Bool) × σ
  supersedeIfCurrent : MemoryItem → IntegrationEvent → ℕ → Option String → Option AuditEvent →
    σ → Except Exn (MemoryItem × Bool) × σ

/-- The in-memory store as a retention store. -/
def inMemoryRetention : RetentionStore InMemoryMemoryStore where
  get s := s.get
  retain item event key audit s := s.retain item event key audit
  supersedeIfCurrent item event expected key audit s :=
    s.supersedeIfCurrent item event expected key audit

namespace RetentionService

variable {σ : Type} (store : RetentionStore σ) (privacy : PrivacyGuard)

/-- Build one sanitized canonical item and its outbox event without storing them. -/
def prepare (command : RetainCommand) (d : Draws) : Except Exn (MemoryItem × IntegrationEvent) := do
  let decision ← privacy.apply command.text
  let item ← MemoryItem.new
    { tenantId := command.tenantId
      workspaceId := command.workspaceId
      layer := command.layer
      scope := command.scope
      kind := command.kind
      text := decision.text
      provenance := command.provenance
      id := d.uuid4 0
      agentId := command.agentId
      threadId := command.threadId
      labels := command.labels
      metadata := command.metadata.merge decision.metadata
      status := command.status
      importance := command.importance
      salience := 1 / 2
      confidence := command.confidence
      observedAt := d.now 0
      validFrom := none
      validTo := none
      createdAt := d.now 1
      revision := 1
      supersedesId := none }
  let event := retainedEvent item
    [("memory_id", .str item.id.str), ("layer", .str item.layer.value), ("jobs", retentionJobs)]
    (d.uuid4 1) (d.now 2)
  return (item, event)

/-- Validate, append and emit one event. -/
def retain (command : RetainCommand) (audit : Option AuditEvent) (d : Draws) :
    Proc σ Exn RetainResult := do
  let (item, event) ← Proc.ofExcept (prepare privacy command d)
  let audit := audit.map fun a => a.replaceResource item.id.str
  let (stored, created) ← Proc.invoke (store.retain item event command.idempotencyKey audit)
  return ⟨stored, created, if created then [event.id] else []⟩

/-- The payload of the event that announces a replacement. -/
def supersedePayload (replacement current : MemoryItem) : JsonObject :=
  [("memory_id", .str replacement.id.str), ("supersedes_id", .str current.id.str),
    ("revision", .int replacement.revision), ("layer", .str replacement.layer.value),
    ("jobs", retentionJobs)]

/-- The replacement of a current head and the event that announces it. -/
def prepareReplacement (command : SupersedeMemoryCommand) (current : MemoryItem) (d : Draws) :
    Except Exn (MemoryItem × IntegrationEvent) := do
  let decision ← privacy.apply command.replacementText
  let replacement ← current.supersede decision.text command.confidence command.status
    (d.uuid4 0) (d.now 0)
  let replacement := replacement.replaceMetadata (replacement.metadata.merge decision.metadata)
  return (replacement, retainedEvent replacement (supersedePayload replacement current)
    (d.uuid4 1) (d.now 1))

/-- Append a replacement item only if the caller observed the current head. -/
def supersede (command : SupersedeMemoryCommand) (audit : Option AuditEvent) (d : Draws) :
    Proc σ Exn RetainResult := do
  match ← Proc.read fun s => store.get s command.tenantId command.itemId with
  | none => .raise (.keyError "memory item not found")
  | some current =>
    let (replacement, event) ← Proc.ofExcept (prepareReplacement privacy command current d)
    let audit := audit.map fun a => a.replaceScope replacement.workspaceId replacement.id.str
    let (stored, created) ← Proc.invoke <|
      store.supersedeIfCurrent replacement event command.expectedRevision command.idempotencyKey
        audit
    return ⟨stored, created, if created then [event.id] else []⟩

variable {privacy}

/-- A prepared item starts a chain under the drawn identifier, and its event announces it. -/
theorem prepare_eq_ok {command : RetainCommand} {d : Draws} {item : MemoryItem}
    {event : IntegrationEvent} (h : prepare privacy command d = .ok (item, event)) :
    item.id = d.uuid4 0 ∧ event.id = d.uuid4 1 ∧ item.supersedesId = none ∧ item.revision = 1 ∧
      item.tenantId = command.tenantId ∧ item.workspaceId = command.workspaceId ∧
        item.provenance = command.provenance ∧ event.Announces item := by
  unfold prepare at h
  obtain ⟨decision, -, h⟩ := Except.bind_eq_ok.mp h
  obtain ⟨i, hn, h⟩ := Except.bind_eq_ok.mp h
  cases h
  have hf := MemoryItem.new_eq_ok.mp hn
  refine ⟨?_, rfl, ?_, ?_, ?_, ?_, ?_, retainedEvent_announces ..⟩ <;> rw [hf]

/-- Whether an ordinary item can be prepared depends on its text alone. -/
theorem exists_prepare {command : RetainCommand} {decision : PrivacyDecision} (d : Draws)
    (hp : privacy.apply command.text = .ok decision) (htext : Text.isBlank decision.text = false)
    (himportance : 0 ≤ command.importance ∧ command.importance ≤ 1)
    (hconfidence : 0 ≤ command.confidence ∧ command.confidence ≤ 1)
    (hthread : command.scope = .thread → command.threadId ≠ none)
    (hprivate : command.scope = .private → command.agentId ≠ none)
    (hpinned : command.status = .pinned → command.layer = .core) :
    ∃ r, prepare privacy command d = .ok r := by
  unfold prepare
  rw [hp, Except.ok_bind]
  refine ⟨(⟨_, MemoryFields.postInit_eq_ok.mpr ?_⟩, _),
    Except.bind_eq_ok.mpr ⟨_, MemoryItem.new_eq_ok.mpr rfl, rfl⟩⟩
  exact ⟨htext, himportance, by norm_num, hconfidence, by simp, hthread, hprivate, hpinned⟩

/-- The text of a prepared item is what the guard made of the command's text. -/
theorem prepare_text {command : RetainCommand} {d : Draws} {item : MemoryItem}
    {event : IntegrationEvent} (h : prepare privacy command d = .ok (item, event)) :
    ∃ decision, privacy.apply command.text = .ok decision ∧
      Text.isBlank decision.text = false := by
  unfold prepare at h
  obtain ⟨decision, hd, h⟩ := Except.bind_eq_ok.mp h
  obtain ⟨i, hn, -⟩ := Except.bind_eq_ok.mp h
  have hf := MemoryItem.new_eq_ok.mp hn
  have hv := (MemoryFields.postInit_eq_ok.mp i.valid).text
  rw [hf] at hv
  exact ⟨decision, hd, hv⟩

/-- A prepared item has the scope and thread of the command, and the guarded text. -/
theorem prepare_asked {command : RetainCommand} {d : Draws} {item : MemoryItem}
    {event : IntegrationEvent} (h : prepare privacy command d = .ok (item, event)) :
    item.scope = command.scope ∧ item.threadId = command.threadId ∧
      (privacy.apply command.text).map PrivacyDecision.text = .ok item.text := by
  unfold prepare at h
  obtain ⟨decision, hd, h⟩ := Except.bind_eq_ok.mp h
  obtain ⟨i, hn, h⟩ := Except.bind_eq_ok.mp h
  cases h
  have hf := MemoryItem.new_eq_ok.mp hn
  refine ⟨by rw [hf], by rw [hf], ?_⟩
  rw [hd, hf]
  rfl

/-- A prepared replacement revises the current item in place, under the drawn identifier. -/
theorem prepareReplacement_eq_ok {command : SupersedeMemoryCommand} {current item : MemoryItem}
    {d : Draws} {event : IntegrationEvent}
    (h : prepareReplacement privacy command current d = .ok (item, event)) :
    item.id = d.uuid4 0 ∧ event.id = d.uuid4 1 ∧ item.supersedesId = some current.id ∧
      item.revision = current.revision + 1 ∧ item.tenantId = current.tenantId ∧
        item.workspaceId = current.workspaceId ∧ item.layer = current.layer ∧
          item.scope = current.scope ∧ item.provenance = current.provenance ∧
            event.Announces item := by
  unfold prepareReplacement at h
  obtain ⟨decision, -, h⟩ := Except.bind_eq_ok.mp h
  obtain ⟨i, hn, h⟩ := Except.bind_eq_ok.mp h
  cases h
  have hf := MemoryItem.supersede_eq_ok.mp hn
  refine ⟨?_, rfl, ?_, ?_, ?_, ?_, ?_, ?_, ?_, retainedEvent_announces ..⟩ <;>
    simp [MemoryItem.replaceMetadata, hf]

/-- The text of a prepared replacement is what the guard made of the command's text. -/
theorem prepareReplacement_text {command : SupersedeMemoryCommand} {current item : MemoryItem}
    {d : Draws} {event : IntegrationEvent}
    (h : prepareReplacement privacy command current d = .ok (item, event)) :
    (privacy.apply command.replacementText).map PrivacyDecision.text = .ok item.text := by
  unfold prepareReplacement at h
  obtain ⟨decision, hd, h⟩ := Except.bind_eq_ok.mp h
  obtain ⟨i, hn, h⟩ := Except.bind_eq_ok.mp h
  cases h
  have hf := MemoryItem.supersede_eq_ok.mp hn
  rw [hd]
  simp [Except.map, MemoryItem.replaceMetadata, hf]

variable {store : RetentionStore σ} {d : Draws} {x : σ}

/-- The result that a service makes of a store call. -/
def resultOf (event : IntegrationEvent) (r : MemoryItem × Bool) : RetainResult :=
  ⟨r.1, r.2, if r.2 then [event.id] else []⟩

variable (store privacy d x) in
/-- `retain` raises while preparing, or makes one store call with what it prepared. -/
theorem run_retain (command : RetainCommand) (audit : Option AuditEvent) :
    (∃ e, prepare privacy command d = .error e ∧
      (retain store privacy command audit d).run x = (.error e, x)) ∨
    ∃ item event, prepare privacy command d = .ok (item, event) ∧ ∃ a,
      (retain store privacy command audit d).run x =
        ((store.retain item event command.idempotencyKey a x).1.map (resultOf event),
          (store.retain item event command.idempotencyKey a x).2) := by
  unfold retain
  rw [Proc.run_bind, Proc.run_ofExcept]
  cases hp : prepare privacy command d with
  | error e => exact .inl ⟨e, rfl, rfl⟩
  | ok r =>
    obtain ⟨item, event⟩ := r
    refine .inr ⟨item, event, rfl, audit.map fun a => a.replaceResource item.id.str, ?_⟩
    simp only [Proc.run_bind, Proc.run_invoke]
    rcases hc : store.retain item event command.idempotencyKey _ x with ⟨r, t⟩
    cases r <;> rfl

variable (store) in
/-- `supersede` of a stored item whose replacement was prepared makes the store call. -/
theorem run_supersede_of_prepared {command : SupersedeMemoryCommand}
    (audit : Option AuditEvent) {current item : MemoryItem} {event : IntegrationEvent}
    (hg : store.get x command.tenantId command.itemId = some current)
    (hp : prepareReplacement privacy command current d = .ok (item, event)) :
    ∃ a, (supersede store privacy command audit d).run x =
      ((store.supersedeIfCurrent item event command.expectedRevision command.idempotencyKey a
          x).1.map (resultOf event),
        (store.supersedeIfCurrent item event command.expectedRevision command.idempotencyKey a
          x).2) := by
  refine ⟨audit.map fun a => a.replaceScope item.workspaceId item.id.str, ?_⟩
  unfold supersede
  rw [Proc.run_bind, Proc.run_read]
  simp only [hg, Proc.run_bind, Proc.run_ofExcept, hp, Proc.run_invoke]
  rcases hc : store.supersedeIfCurrent item event command.expectedRevision
    command.idempotencyKey _ x with ⟨r, t⟩
  cases r <;> rfl

variable (store) in
/-- The same without an audit event. -/
theorem run_supersede_plain {command : SupersedeMemoryCommand} {current item : MemoryItem}
    {event : IntegrationEvent} (hg : store.get x command.tenantId command.itemId = some current)
    (hp : prepareReplacement privacy command current d = .ok (item, event)) :
    (supersede store privacy command none d).run x =
      ((store.supersedeIfCurrent item event command.expectedRevision command.idempotencyKey none
          x).1.map (resultOf event),
        (store.supersedeIfCurrent item event command.expectedRevision command.idempotencyKey none
          x).2) := by
  unfold supersede
  rw [Proc.run_bind, Proc.run_read]
  simp only [hg, Proc.run_bind, Proc.run_ofExcept, hp, Proc.run_invoke, Option.map_none]
  rcases hc : store.supersedeIfCurrent item event command.expectedRevision
    command.idempotencyKey none x with ⟨r, t⟩
  cases r <;> rfl

variable (store privacy d x) in
/-- `supersede` whose item is not stored, or whose replacement cannot be prepared, raises. -/
theorem run_supersede_of_error (command : SupersedeMemoryCommand) (audit : Option AuditEvent) :
    (store.get x command.tenantId command.itemId = none →
      (supersede store privacy command audit d).run x =
        (.error (.keyError "memory item not found"), x)) ∧
    ∀ current e, store.get x command.tenantId command.itemId = some current →
      prepareReplacement privacy command current d = .error e →
      (supersede store privacy command audit d).run x = (.error e, x) := by
  unfold supersede
  rw [Proc.run_bind, Proc.run_read]
  constructor
  · intro hg
    simp [hg]
  · intro current e hg hp
    simp [hg, Proc.run_bind, hp]

variable (store privacy d x) in
/-- `supersede` raises before its store call, or makes it with what it prepared from the
item it read. -/
theorem run_supersede (command : SupersedeMemoryCommand) (audit : Option AuditEvent) :
    (∃ e, (supersede store privacy command audit d).run x = (.error e, x)) ∨
    ∃ current item event, store.get x command.tenantId command.itemId = some current ∧
      prepareReplacement privacy command current d = .ok (item, event) ∧ ∃ a,
        (supersede store privacy command audit d).run x =
          ((store.supersedeIfCurrent item event command.expectedRevision command.idempotencyKey a
              x).1.map (resultOf event),
            (store.supersedeIfCurrent item event command.expectedRevision command.idempotencyKey a
              x).2) := by
  obtain ⟨hmissing, hfailed⟩ := run_supersede_of_error privacy store d x command audit
  cases hg : store.get x command.tenantId command.itemId with
  | none => exact .inl ⟨_, hmissing hg⟩
  | some current =>
    cases hp : prepareReplacement privacy command current d with
    | error e => exact .inl ⟨e, hfailed current e hg hp⟩
    | ok r =>
      obtain ⟨item, event⟩ := r
      exact .inr ⟨current, item, event, rfl, hp, run_supersede_of_prepared store audit hg hp⟩

end RetentionService

end MemoryPlane
