import MemoryPlane.Runs.VaultImports

/-!
# Replacements

What one call of the retention service does with a command that replaces an item: it raises, it
replays a stored key, or it appends the replacement of a current item.
-/

namespace MemoryPlane

open InMemoryMemoryStore

section Replacements

variable (privacy : PrivacyGuard) (s : InMemoryMemoryStore) (d : Draws)
  (command : SupersedeMemoryCommand)

/-- The item that a command names, its replacement and the event. -/
structure Replaceable (current item : MemoryItem) (event : IntegrationEvent) : Prop where
  found : s.get command.tenantId command.itemId = some current
  prepared : RetentionService.prepareReplacement privacy command current d = .ok (item, event)

/-- The call appends a replacement: its key is unused and its item is current. -/
def Appends : Prop :=
  ∃ current item event, Replaceable privacy s d command current item event ∧
    s.replayed item.tenantId (replacementKey command item) = none ∧
      IsCurrent s.toLedger current command.expectedRevision

/-- What the call does. -/
inductive SupersedeOutcome : Except Exn RetainResult → InMemoryMemoryStore → Prop
  | raised (e : Exn) (refused : ¬ Appends privacy s d command) : SupersedeOutcome (.error e) s
  /-- The key was used before and its item is returned. -/
  | replayed (current item : MemoryItem) (event : IntegrationEvent) (e : IdempotencyEntry)
      (i : MemoryItem) (ready : Replaceable privacy s d command current item event)
      (entry : s.replayed item.tenantId (replacementKey command item) = some e)
      (stored : s.items.find e.itemId = some i) : SupersedeOutcome (.ok ⟨i, false, []⟩) s
  | committed (current item : MemoryItem) (event : IntegrationEvent) (t : InMemoryMemoryStore)
      (ready : Replaceable privacy s d command current item event)
      (unused : s.replayed item.tenantId (replacementKey command item) = none)
      (current_eq : IsCurrent s.toLedger current command.expectedRevision)
      (appended : t = (s.putItem item (replacementKey command item)).publish event) :
      SupersedeOutcome (.ok ⟨item, true, [event.id]⟩) t

variable {privacy s d command}

theorem Replaceable.unique {current current' item item' : MemoryItem}
    {event event' : IntegrationEvent}
    (h : Replaceable privacy s d command current item event)
    (h' : Replaceable privacy s d command current' item' event') :
    current = current' ∧ item = item' ∧ event = event' := by
  obtain ⟨hfound, hprepared⟩ := h
  obtain ⟨hfound', hprepared'⟩ := h'
  rw [hfound, Option.some.injEq] at hfound'
  subst hfound'
  rw [hprepared, Except.ok.injEq, Prod.mk.injEq] at hprepared'
  exact ⟨rfl, hprepared'.1, hprepared'.2⟩

theorem Replaceable.appends_iff {current item : MemoryItem} {event : IntegrationEvent}
    (h : Replaceable privacy s d command current item event) :
    Appends privacy s d command ↔
      s.replayed item.tenantId (replacementKey command item) = none ∧
        IsCurrent s.toLedger current command.expectedRevision := by
  constructor
  · rintro ⟨_, _, _, h', hrest⟩
    obtain ⟨rfl, rfl, rfl⟩ := h'.unique h
    exact hrest
  · exact fun hrest => ⟨_, _, _, h, hrest⟩

/-- A replaceable item whose key was used before is not replaced again. -/
theorem Replaceable.run_replayed {current item : MemoryItem} {event : IntegrationEvent}
    (h : Replaceable privacy s d command current item event) {e : IdempotencyEntry}
    (hentry : s.replayed item.tenantId (replacementKey command item) = some e) :
    (RetentionService.supersede inMemoryRetention privacy command none d).run s =
      ((s.itemAt e.itemId).map fun i => ⟨i, false, []⟩, s) := by
  obtain ⟨-, -, hsup, -⟩ := RetentionService.prepareReplacement_eq_ok h.prepared
  have hcall : inMemoryRetention.supersedeIfCurrent item event command.expectedRevision
      command.idempotencyKey none s = ((s.itemAt e.itemId).map fun i => (i, false), s) := by
    rw [replacementKey] at hentry
    simp [inMemoryRetention, supersedeIfCurrent, hsup, hentry]
  rw [RetentionService.run_supersede_plain inMemoryRetention h.found h.prepared, hcall]
  cases s.itemAt e.itemId <;> rfl

/-- A replaceable item leads to one call of the store. -/
theorem Replaceable.outcome {current item : MemoryItem} {event : IntegrationEvent}
    (h : Replaceable privacy s d command current item event) :
    let out := (RetentionService.supersede inMemoryRetention privacy command none d).run s
    SupersedeOutcome privacy s d command out.1 out.2 := by
  obtain ⟨-, -, hsup, -, hit, -⟩ := RetentionService.prepareReplacement_eq_ok h.prepared
  have hparent : s.get item.tenantId current.id = some current := by
    rw [hit]
    exact Ledger.get_self (Ledger.get_eq_some.mp h.found).1
  cases hentry : s.replayed item.tenantId (replacementKey command item) with
  | some e =>
    rw [h.run_replayed hentry]
    cases hfind : s.items.find e.itemId with
    | none =>
      simp only [itemAt, hfind, Except.map]
      refine .raised _ ?_
      rw [h.appends_iff, hentry]
      rintro ⟨hunused, -⟩
      cases hunused
    | some i =>
      simp only [itemAt, hfind, Except.map]
      exact .replayed current item event e i h hentry hfind
  | none =>
    rw [RetentionService.run_supersede_plain inMemoryRetention h.found h.prepared]
    rcases supersedeIfCurrent_of_parent event command.expectedRevision none hsup hparent hentry with
      ⟨hstale, hcall⟩ | ⟨hcurrent, hcall⟩
    · simp only [inMemoryRetention, hcall, Except.map]
      refine .raised _ ?_
      rw [h.appends_iff]
      exact fun hrest => hstale hrest.2
    · simp only [inMemoryRetention, hcall, Except.map]
      exact .committed current item event _ h hentry hcurrent rfl

variable (privacy s d command) in
/-- Every call has one of the outcomes. -/
theorem supersede_outcome :
    let out := (RetentionService.supersede inMemoryRetention privacy command none d).run s
    SupersedeOutcome privacy s d command out.1 out.2 := by
  obtain ⟨hmissing, hfailed⟩ := RetentionService.run_supersede_of_error privacy inMemoryRetention d
    s command none
  cases hget : s.get command.tenantId command.itemId with
  | none =>
    rw [hmissing hget]
    refine .raised _ ?_
    rintro ⟨_, _, _, ready, -⟩
    have hfound := ready.found
    rw [hget] at hfound
    cases hfound
  | some current =>
    cases hprepared : RetentionService.prepareReplacement privacy command current d with
    | error e =>
      rw [hfailed current e hget hprepared]
      refine .raised _ ?_
      rintro ⟨_, _, _, ready, -⟩
      obtain ⟨hfound, hready⟩ := ready
      rw [hget, Option.some.injEq] at hfound
      subst hfound
      rw [hprepared] at hready
      cases hready
    | ok r => exact Replaceable.outcome ⟨hget, hprepared⟩

/-- What a call that returned did: the key of the command leads to the returned item. -/
theorem SupersedeOutcome.keyed {t : InMemoryMemoryStore} {retained : RetainResult} {key : String}
    (h : SupersedeOutcome privacy s d command (.ok retained) t)
    (hkey : command.idempotencyKey = some key) :
    ∃ current item event e, Replaceable privacy s d command current item event ∧
      t.replayed item.tenantId (replacementKey command item) = some e ∧
      t.items.find e.itemId = some retained.item := by
  cases h with
  | replayed current item event e i ready entry stored =>
    exact ⟨current, item, event, e, ready, entry, stored⟩
  | committed current item event _ ready unused current_eq appended =>
    obtain ⟨hitems, hkeys, -⟩ :=
      publish_putItem_writes (s := s) item (replacementKey command item) event
    obtain ⟨k, hscoped⟩ : ∃ k, replacementKey command item = some k := by
      rw [replacementKey, hkey]
      exact ⟨_, rfl⟩
    rw [hscoped] at hkeys hitems appended
    refine ⟨current, item, event, ⟨item.tenantId, k, item.id⟩, ready, ?_, ?_⟩
    · rw [appended, hscoped]
      exact (congrArg (fun table => table.find (item.tenantId, k)) hkeys).trans
        (Table.find_put_self ..)
    · rw [appended]
      exact (congrArg (fun table => table.find item.id) hitems).trans (Table.find_put_self ..)

/-- Whether a replacement can be prepared does not depend on the draws, and neither does its
boundary. -/
theorem prepareReplacement_redrawn {current item : MemoryItem} {event : IntegrationEvent}
    (h : RetentionService.prepareReplacement privacy command current d = .ok (item, event))
    (d' : Draws) :
    ∃ item' event', RetentionService.prepareReplacement privacy command current d' =
        .ok (item', event') ∧
      item'.tenantId = item.tenantId ∧ item'.workspaceId = item.workspaceId := by
  obtain ⟨-, -, -, -, htenant, hworkspace, -⟩ := RetentionService.prepareReplacement_eq_ok h
  have hagain : ∃ r, RetentionService.prepareReplacement privacy command current d' = .ok r := by
    unfold RetentionService.prepareReplacement at h ⊢
    obtain ⟨decision, hdecision, h⟩ := Except.bind_eq_ok.mp h
    obtain ⟨i, hi, -⟩ := Except.bind_eq_ok.mp h
    have hfields := MemoryItem.supersede_eq_ok.mp hi
    have hvalid := MemoryFields.postInit_eq_ok.mp i.valid
    rw [hfields] at hvalid
    obtain ⟨i', hi'⟩ := current.exists_supersede (d'.uuid4 0) (d'.now 0) hvalid.text
      hvalid.confidence hvalid.pinned
    rw [hdecision, Except.ok_bind, hi']
    exact ⟨_, rfl⟩
  obtain ⟨⟨item', event'⟩, hready⟩ := hagain
  obtain ⟨-, -, -, -, htenant', hworkspace', -⟩ :=
    RetentionService.prepareReplacement_eq_ok hready
  exact ⟨item', event', hready, htenant'.trans htenant.symm, hworkspace'.trans hworkspace.symm⟩

end Replacements

end MemoryPlane
