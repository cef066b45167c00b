import MemoryPlane.Runs.Writes
import MemoryPlane.Services.VaultImport

/-!
# Vault imports

What an import reports and what it leaves behind. Every round of its loop replays a stored key,
meets a conflict, raises, or appends the guarded body of the first file with the path of the
planned change; a round that appends is not undone when a later one raises.
-/

namespace MemoryPlane

open VaultExporter InMemoryMemoryStore

section Rounds

variable (rt : NoteRuntime) (tenantId : UUID) (privacy : PrivacyGuard)
  (files : List VaultImportSource)

/-- A planned replacement whose command is admitted and whose text passes the guard: the command,
the current item, its replacement and the event. -/
structure ReadyChange (s : InMemoryMemoryStore) (d : Draws) (change : VaultImportChange)
    (itemId : UUID) (command : SupersedeMemoryCommand) (current item : MemoryItem)
    (event : IntegrationEvent) : Prop where
  action : change.action = .supersede
  named : change.itemId = some itemId
  built : ∃ expectedRevision, change.expectedRevision = some expectedRevision ∧
    importCommand rt tenantId files change.path itemId expectedRevision = .ok command
  found : s.get tenantId itemId = some current
  prepared : RetentionService.prepareReplacement privacy command current d = .ok (item, event)

/-- The scoped key of a replacement. -/
def replacementKey (command : SupersedeMemoryCommand) (item : MemoryItem) : Option String :=
  scopeIdempotencyKey item.workspaceId command.idempotencyKey

/-- The round appends a revision: its key is unused and its item is current. -/
def Commits (s : InMemoryMemoryStore) (d : Draws) (change : VaultImportChange) : Prop :=
  ∃ itemId command current item event,
    ReadyChange rt tenantId privacy files s d change itemId command current item event ∧
      s.replayed item.tenantId (replacementKey command item) = none ∧
      IsCurrent s.toLedger current command.expectedRevision

/-- The round writes nothing and goes on: no replacement was planned, its key was used before, or
its item is not current. -/
def StaysOut (s : InMemoryMemoryStore) (d : Draws) (change : VaultImportChange) : Prop :=
  (change.action ≠ .supersede ∨ change.itemId = none ∨ change.expectedRevision = none) ∨
  ∃ itemId command current item event,
    ReadyChange rt tenantId privacy files s d change itemId command current item event ∧
      ((∃ e i, s.replayed item.tenantId (replacementKey command item) = some e ∧
          s.items.find e.itemId = some i) ∨
        s.replayed item.tenantId (replacementKey command item) = none ∧
          ¬ IsCurrent s.toLedger current command.expectedRevision)

/-- The first round that does not stay out appends a revision. -/
def WritesFirst (s : InMemoryMemoryStore) (d : ℕ → Draws) (n : ℕ) : List VaultImportChange → Prop
  | [] => False
  | change :: rest =>
    Commits rt tenantId privacy files s (d n) change ∨
      StaysOut rt tenantId privacy files s (d n) change ∧ WritesFirst s d (n + 1) rest

/-- What a round does. -/
inductive RoundOutcome (s : InMemoryMemoryStore) (d : Draws) (change : VaultImportChange) :
    Except Exn VaultImportChange → InMemoryMemoryStore → Prop
  /-- No replacement was planned. -/
  | kept (unplanned : change.action ≠ .supersede ∨ change.itemId = none ∨
      change.expectedRevision = none) : RoundOutcome s d change (.ok change) s
  | raised (e : Exn) (writes : ¬ Commits rt tenantId privacy files s d change)
      (out : ¬ StaysOut rt tenantId privacy files s d change) :
      RoundOutcome s d change (.error e) s
  | conflict (itemId : UUID) (command : SupersedeMemoryCommand) (current item : MemoryItem)
      (event : IntegrationEvent) (c : VaultImportChange)
      (ready : ReadyChange rt tenantId privacy files s d change itemId command current item event)
      (unused : s.replayed item.tenantId (replacementKey command item) = none)
      (stale : ¬ IsCurrent s.toLedger current command.expectedRevision)
      (action : c.action = .conflict) : RoundOutcome s d change (.ok c) s
  /-- The key was used before and its item is reported. -/
  | replayed (itemId : UUID) (command : SupersedeMemoryCommand) (current item : MemoryItem)
      (event : IntegrationEvent) (e : IdempotencyEntry) (i : MemoryItem) (c : VaultImportChange)
      (ready : ReadyChange rt tenantId privacy files s d change itemId command current item event)
      (entry : s.replayed item.tenantId (replacementKey command item) = some e)
      (stored : s.items.find e.itemId = some i)
      (action : c.action = .supersede) (itemId_eq : c.itemId = some itemId)
      (newItem : c.newItemId = some i.id) : RoundOutcome s d change (.ok c) s
  /-- The replacement was appended. -/
  | committed (itemId : UUID) (command : SupersedeMemoryCommand) (current item : MemoryItem)
      (event : IntegrationEvent) (c : VaultImportChange) (t : InMemoryMemoryStore)
      (ready : ReadyChange rt tenantId privacy files s d change itemId command current item event)
      (unused : s.replayed item.tenantId (replacementKey command item) = none)
      (current_eq : IsCurrent s.toLedger current command.expectedRevision)
      (action : c.action = .supersede) (itemId_eq : c.itemId = some itemId)
      (newItem : c.newItemId = some item.id)
      (appended : t = (s.putItem item (replacementKey command item)).publish event) :
      RoundOutcome s d change (.ok c) t

end Rounds

section Outcomes

variable {rt : NoteRuntime} {tenantId : UUID} {privacy : PrivacyGuard}
  {files : List VaultImportSource} {s : InMemoryMemoryStore} {d : Draws}
  {change : VaultImportChange}

/-- The command of a planned change replaces the named item by the body of the first file. -/
theorem importCommand_eq_ok {path : String} {itemId : UUID} {expectedRevision : ℤ}
    {command : SupersedeMemoryCommand}
    (h : importCommand rt tenantId files path itemId expectedRevision = .ok command) :
    command.tenantId = tenantId ∧ command.itemId = itemId ∧
      command.idempotencyKey = some (importKey path expectedRevision) ∧
      ∃ note, noteAt rt files path = .ok note ∧
        command.replacementText = String.ofList note.body := by
  unfold importCommand at h
  obtain ⟨note, hnote, h⟩ := Except.bind_eq_ok.mp h
  obtain ⟨confidence, -, h⟩ := Except.bind_eq_ok.mp h
  obtain ⟨ht, hid, htext, -, -, -, hkey⟩ := SupersedeMemoryCommand.create_eq_ok h
  exact ⟨ht, hid, hkey, note, hnote, htext⟩

theorem postInit_error {m : MemoryFields} {e : Exn} (h : m.postInit = .error e) :
    ∃ message, e = .valueError message := by
  unfold MemoryFields.postInit at h
  repeat' split at h
  all_goals first
    | cases h
      exact ⟨_, rfl⟩
    | cases h

/-- A replacement that cannot be prepared raises a value error. -/
theorem prepareReplacement_error {command : SupersedeMemoryCommand} {current : MemoryItem} {e : Exn}
    (h : RetentionService.prepareReplacement privacy command current d = .error e) :
    ∃ message, e = .valueError message := by
  unfold RetentionService.prepareReplacement at h
  cases hguard : privacy.apply command.replacementText with
  | error e' =>
    rw [hguard, Except.error_bind] at h
    cases h
    exact PrivacyGuard.apply_error hguard
  | ok decision =>
    rw [hguard, Except.ok_bind] at h
    cases hnew : current.supersede decision.text command.confidence command.status (d.uuid4 0)
        (d.now 0) with
    | error e' =>
      rw [hnew, Except.error_bind] at h
      cases h
      exact postInit_error (MemoryItem.new_eq_error.mp hnew)
    | ok i =>
      rw [hnew, Except.ok_bind] at h
      cases h

/-- There is one way to read a round that is ready. -/
theorem ReadyChange.unique {itemId itemId' : UUID} {command command' : SupersedeMemoryCommand}
    {current current' item item' : MemoryItem} {event event' : IntegrationEvent}
    (h : ReadyChange rt tenantId privacy files s d change itemId command current item event)
    (h' : ReadyChange rt tenantId privacy files s d change itemId' command' current' item' event') :
    command = command' ∧ current = current' ∧ item = item' := by
  obtain ⟨-, hid, ⟨r, hr, hc⟩, hfound, hprepared⟩ := h
  obtain ⟨-, hid', ⟨r', hr', hc'⟩, hfound', hprepared'⟩ := h'
  rw [hid, Option.some.injEq] at hid'
  rw [hr, Option.some.injEq] at hr'
  subst hid' hr'
  rw [hc, Except.ok.injEq] at hc'
  rw [hfound, Option.some.injEq] at hfound'
  subst hc' hfound'
  rw [hprepared, Except.ok.injEq, Prod.mk.injEq] at hprepared'
  exact ⟨rfl, rfl, hprepared'.1⟩

theorem ReadyChange.commits_iff {itemId : UUID} {command : SupersedeMemoryCommand}
    {current item : MemoryItem} {event : IntegrationEvent}
    (h : ReadyChange rt tenantId privacy files s d change itemId command current item event) :
    Commits rt tenantId privacy files s d change ↔
      s.replayed item.tenantId (replacementKey command item) = none ∧
        IsCurrent s.toLedger current command.expectedRevision := by
  constructor
  · rintro ⟨_, _, _, _, _, h', hunused, hcurrent⟩
    obtain ⟨rfl, rfl, rfl⟩ := h'.unique h
    exact ⟨hunused, hcurrent⟩
  · rintro ⟨hunused, hcurrent⟩
    exact ⟨_, _, _, _, _, h, hunused, hcurrent⟩

theorem ReadyChange.staysOut_iff {itemId : UUID} {command : SupersedeMemoryCommand}
    {current item : MemoryItem} {event : IntegrationEvent}
    (h : ReadyChange rt tenantId privacy files s d change itemId command current item event) :
    StaysOut rt tenantId privacy files s d change ↔
      (∃ e i, s.replayed item.tenantId (replacementKey command item) = some e ∧
          s.items.find e.itemId = some i) ∨
        s.replayed item.tenantId (replacementKey command item) = none ∧
          ¬ IsCurrent s.toLedger current command.expectedRevision := by
  constructor
  · rintro (hunplanned | ⟨_, _, _, _, _, h', hout⟩)
    · obtain ⟨expectedRevision, hexpected, -⟩ := h.built
      simp [h.action, h.named, hexpected] at hunplanned
    · obtain ⟨rfl, rfl, rfl⟩ := h'.unique h
      exact hout
  · exact fun hout => .inr ⟨_, _, _, _, _, h, hout⟩

/-- A round that does not append and whose command is not ready raises or was not planned. -/
theorem applyChange_of_error {itemId : UUID} {expectedRevision : ℤ} {e : Exn}
    (haction : change.action = .supersede) (hid : change.itemId = some itemId)
    (hexpected : change.expectedRevision = some expectedRevision)
    (hready : ∀ itemId command current item event,
      ¬ ReadyChange rt tenantId privacy files s d change itemId command current item event)
    (h : applyChange rt inMemoryRetention tenantId privacy files d change s = (.error e, s)) :
    RoundOutcome rt tenantId privacy files s d change
      (applyChange rt inMemoryRetention tenantId privacy files d change s).1
      (applyChange rt inMemoryRetention tenantId privacy files d change s).2 := by
  rw [h]
  refine .raised e ?_ ?_
  · rintro ⟨_, _, _, _, _, h, -⟩
    exact hready _ _ _ _ _ h
  · rintro (hunplanned | ⟨_, _, _, _, _, h, -⟩)
    · simp [haction, hid, hexpected] at hunplanned
    · exact hready _ _ _ _ _ h

/-- A ready round makes one call of the store. -/
theorem applyChange_of_ready {itemId : UUID} {command : SupersedeMemoryCommand}
    {current item : MemoryItem} {event : IntegrationEvent}
    (h : ReadyChange rt tenantId privacy files s d change itemId command current item event) :
    RoundOutcome rt tenantId privacy files s d change
      (applyChange rt inMemoryRetention tenantId privacy files d change s).1
      (applyChange rt inMemoryRetention tenantId privacy files d change s).2 := by
  obtain ⟨expectedRevision, hexpected, hcommand⟩ := h.built
  obtain ⟨ht, hid, -, -⟩ := importCommand_eq_ok hcommand
  obtain ⟨-, -, hsup, -, hit, -⟩ := RetentionService.prepareReplacement_eq_ok h.prepared
  have hget : s.get command.tenantId command.itemId = some current := by
    rw [ht, hid]
    exact h.found
  have hparent : s.get item.tenantId current.id = some current := by
    rw [hit]
    exact Ledger.get_self (Ledger.get_eq_some.mp h.found).1
  have hrun := RetentionService.run_supersede_plain inMemoryRetention hget h.prepared
  unfold applyChange
  simp only [h.action, h.named, hexpected, hcommand, hrun]
  cases hentry : s.replayed item.tenantId (replacementKey command item) with
  | some e =>
    have hcall : inMemoryRetention.supersedeIfCurrent item event command.expectedRevision
        command.idempotencyKey none s = ((s.itemAt e.itemId).map fun i => (i, false), s) := by
      rw [replacementKey] at hentry
      simp [inMemoryRetention, supersedeIfCurrent, hsup, hentry]
    cases hfind : s.items.find e.itemId with
    | none =>
      simp only [hcall, itemAt, hfind, Except.map]
      refine .raised _ ?_ ?_
      · rw [h.commits_iff, hentry]
        rintro ⟨hunused, -⟩
        cases hunused
      · rw [h.staysOut_iff, hentry]
        rintro (⟨e', i, he, hi⟩ | ⟨hunused, -⟩)
        · cases he
          rw [hfind] at hi
          cases hi
        · cases hunused
    | some i =>
      simp only [hcall, itemAt, hfind, Except.map]
      exact .replayed itemId command current item event e i _ h hentry hfind rfl rfl rfl
  | none =>
    rcases supersedeIfCurrent_of_parent event command.expectedRevision none hsup hparent hentry with
      ⟨hstale, hcall⟩ | ⟨hcurrent, hcall⟩
    · simp only [inMemoryRetention, hcall, Except.map]
      exact .conflict itemId command current item event _ h hentry hstale rfl
    · simp only [inMemoryRetention, hcall, Except.map]
      exact .committed itemId command current item event _ _ h hentry hcurrent rfl rfl rfl rfl

/-- Every round has one of the outcomes. -/
theorem applyChange_outcome (rt : NoteRuntime) (tenantId : UUID) (privacy : PrivacyGuard)
    (files : List VaultImportSource) (s : InMemoryMemoryStore) (d : Draws)
    (change : VaultImportChange) :
    RoundOutcome rt tenantId privacy files s d change
      (applyChange rt inMemoryRetention tenantId privacy files d change s).1
      (applyChange rt inMemoryRetention tenantId privacy files d change s).2 := by
  by_cases hready : ∃ itemId command current item event,
      ReadyChange rt tenantId privacy files s d change itemId command current item event
  · obtain ⟨_, _, _, _, _, hready⟩ := hready
    exact applyChange_of_ready hready
  · have hnone : ∀ itemId command current item event,
        ¬ ReadyChange rt tenantId privacy files s d change itemId command current item event :=
      fun _ _ _ _ _ h => hready ⟨_, _, _, _, _, h⟩
    by_cases haction : change.action = .supersede
    · cases hid : change.itemId with
      | none =>
        have hkept : applyChange rt inMemoryRetention tenantId privacy files d change s =
            (.ok change, s) := by simp only [applyChange, haction, hid]
        rw [hkept]
        exact .kept (.inr (.inl hid))
      | some itemId =>
        cases hexpected : change.expectedRevision with
        | none =>
          have hkept : applyChange rt inMemoryRetention tenantId privacy files d change s =
              (.ok change, s) := by simp only [applyChange, haction, hid, hexpected]
          rw [hkept]
          exact .kept (.inr (.inr hexpected))
        | some expectedRevision =>
          cases hcommand : importCommand rt tenantId files change.path itemId expectedRevision with
          | error e =>
            refine applyChange_of_error (e := e) haction hid hexpected hnone ?_
            simp only [applyChange, haction, hid, hexpected, hcommand]
          | ok command =>
            obtain ⟨ht, hcid, -⟩ := importCommand_eq_ok hcommand
            obtain ⟨hmissing, hfailed⟩ := RetentionService.run_supersede_of_error privacy
              inMemoryRetention d s command none
            cases hget : s.get command.tenantId command.itemId with
            | none =>
              refine applyChange_of_error (e := .keyError "memory item not found") haction hid
                hexpected hnone ?_
              simp only [applyChange, haction, hid, hexpected, hcommand, hmissing hget]
            | some current =>
              cases hprepared : RetentionService.prepareReplacement privacy command current d with
              | error e =>
                obtain ⟨message, rfl⟩ := prepareReplacement_error hprepared
                refine applyChange_of_error (e := .valueError message) haction hid hexpected
                  hnone ?_
                simp only [applyChange, haction, hid, hexpected, hcommand,
                  hfailed current _ hget hprepared]
              | ok r =>
                rw [ht, hcid] at hget
                exact absurd ⟨haction, hid, ⟨expectedRevision, hexpected, hcommand⟩,
                  hget, hprepared⟩
                  (hnone itemId command current r.1 r.2)
    · have hkept : applyChange rt inMemoryRetention tenantId privacy files d change s =
          (.ok change, s) := by
        unfold applyChange
        split
        · contradiction
        · rfl
      rw [hkept]
      exact .kept (.inl haction)

end Outcomes

section Traces

variable {rt : NoteRuntime} {tenantId workspaceId : UUID} {privacy : PrivacyGuard}
  {files : List VaultImportSource} {s t : InMemoryMemoryStore} {d : ℕ → Draws} {n : ℕ}

/-- A write under a key leaves the key used. -/
theorem replayed_commit {item : MemoryItem} {event : IntegrationEvent} {key : String} :
    (((s.putItem item (some key)).publish event).replayed item.tenantId (some key)).isSome := by
  have hkeys : ((s.putItem item (some key)).publish event).idempotency =
      s.idempotency.put ⟨item.tenantId, key, item.id⟩ := by
    unfold publish
    split <;> rfl
  simp only [replayed, Option.bind_some, hkeys]
  rw [Table.find_put]
  simp

/-- A used key stays used. -/
theorem RoundOutcome.replayed_kept {d : Draws} {change : VaultImportChange}
    {r : Except Exn VaultImportChange}
    (h : RoundOutcome rt tenantId privacy files s d change r t) {u : UUID} {key : String}
    (hused : (s.replayed u (some key)).isSome) : (t.replayed u (some key)).isSome := by
  cases h with
  | kept | raised | conflict | replayed => exact hused
  | committed itemId command current item event c _ _ _ _ _ _ _ appended =>
    subst appended
    have hkeys : ((s.putItem item (replacementKey command item)).publish event).idempotency =
        (s.putItem item (replacementKey command item)).idempotency := by
      unfold publish
      split <;> rfl
    simp only [InMemoryMemoryStore.replayed, Option.bind_some, hkeys] at hused ⊢
    unfold putItem
    cases replacementKey command item with
    | none => exact hused
    | some k =>
      simp only
      rw [Table.find_put]
      split
      · rfl
      · exact hused

variable (rt tenantId privacy files d n) in
theorem applyChanges_replayed_kept {u : UUID} {key : String} (changes : List VaultImportChange)
    (hused : (s.replayed u (some key)).isSome) :
    ((applyChanges rt inMemoryRetention tenantId privacy files d n changes s).2.replayed u
      (some key)).isSome := by
  induction changes generalizing n s with
  | nil => exact hused
  | cons change rest ih =>
    have hround := applyChange_outcome rt tenantId privacy files s (d n) change
    unfold applyChanges
    rcases happly : applyChange rt inMemoryRetention tenantId privacy files (d n) change s with
      ⟨r, y⟩
    rw [happly] at hround
    have hkept := hround.replayed_kept hused
    cases r with
    | error e => exact hkept
    | ok applied =>
      simp only
      have hrest := ih (n + 1) hkept
      rcases hothers : applyChanges rt inMemoryRetention tenantId privacy files d (n + 1)
          rest y with
        ⟨r, z⟩
      rw [hothers] at hrest
      cases r <;> exact hrest

/-- A round that goes on stays out, or appends under a key that was unused. -/
theorem RoundOutcome.ok_cases {d : Draws} {change c : VaultImportChange}
    (h : RoundOutcome rt tenantId privacy files s d change (.ok c) t) :
    (t = s ∧ StaysOut rt tenantId privacy files s d change ∧
        ¬ Commits rt tenantId privacy files s d change) ∨
      Commits rt tenantId privacy files s d change ∧
        ∃ u key, s.replayed u (some key) = none ∧ (t.replayed u (some key)).isSome := by
  cases h with
  | kept unplanned =>
    refine .inl ⟨rfl, .inl unplanned, ?_⟩
    rintro ⟨itemId, command, current, item, event, hready, -⟩
    obtain ⟨expectedRevision, hexpected, -⟩ := hready.built
    simp [hready.action, hready.named, hexpected] at unplanned
  | conflict itemId command current item event c ready unused stale action =>
    refine .inl ⟨rfl, ready.staysOut_iff.mpr (.inr ⟨unused, stale⟩), ?_⟩
    rw [ready.commits_iff]
    exact fun hcommits => stale hcommits.2
  | replayed itemId command current item event e i c ready entry stored =>
    refine .inl ⟨rfl, ready.staysOut_iff.mpr (.inl ⟨e, i, entry, stored⟩), ?_⟩
    rw [ready.commits_iff, entry]
    rintro ⟨hunused, -⟩
    cases hunused
  | committed itemId command current item event c _ ready unused current_eq _ _ _ appended =>
    subst appended
    refine .inr ⟨ready.commits_iff.mpr ⟨unused, current_eq⟩, item.tenantId, ?_⟩
    obtain ⟨expectedRevision, -, hcommand⟩ := ready.built
    obtain ⟨-, -, hkey, -⟩ := importCommand_eq_ok hcommand
    simp only [replacementKey, hkey, scopeIdempotencyKey, Option.map_some] at unused ⊢
    exact ⟨_, unused, replayed_commit⟩

/-- An import that raises leaves the ledger as it was exactly when the first round that does not
stay out is not one that appends. -/
theorem applyChanges_trace (changes : List VaultImportChange) {e : Exn}
    (h : applyChanges rt inMemoryRetention tenantId privacy files d n changes s = (.error e, t)) :
    t.toLedger = s.toLedger ↔ ¬ WritesFirst rt tenantId privacy files s d n changes := by
  induction changes generalizing n with
  | nil => cases h
  | cons change rest ih =>
    have hround := applyChange_outcome rt tenantId privacy files s (d n) change
    unfold applyChanges at h
    rcases happly : applyChange rt inMemoryRetention tenantId privacy files (d n) change s with
      ⟨r, y⟩
    rw [happly] at hround h
    cases r with
    | error e' =>
      cases h
      cases hround with
      | raised _ hwrites hout =>
        simp only [true_iff, WritesFirst, not_or, not_and]
        exact ⟨hwrites, fun hstays => absurd hstays hout⟩
    | ok applied =>
      simp only at h
      rcases hothers : applyChanges rt inMemoryRetention tenantId privacy files d (n + 1)
          rest y with
        ⟨r', z⟩
      rw [hothers] at h
      cases r' with
      | ok others => cases h
      | error e' =>
        cases h
        rcases hround.ok_cases with ⟨rfl, hstays, hwrites⟩ | ⟨hcommits, u, key, hunused, hused⟩
        · rw [ih hothers]
          simp only [WritesFirst, hwrites, hstays, false_or, true_and]
        · have hkept := applyChanges_replayed_kept rt tenantId privacy files d (n + 1) rest hused
          rw [hothers] at hkept
          constructor
          · intro hledger
            have hsame : t.replayed u (some key) = s.replayed u (some key) := by
              simp only [replayed, hledger]
            rw [hsame, hunused] at hkept
            cases hkept
          · exact fun hfirst => absurd (.inl hcommits) hfirst

/-- For every store and every batch of files: an import that raises leaves items, idempotency
entries and events as they were exactly when, among its planned replacements, the first that is
neither a replay nor a conflict is not one that can be appended. -/
theorem failed_import_trace_iff (rt : NoteRuntime) (tenantId workspaceId : UUID)
    (retention : Option PrivacyGuard) (files : List VaultImportSource) (d : ℕ → Draws)
    (s : InMemoryMemoryStore) (e : Exn)
    (h : (applyImport rt inMemoryRetention tenantId workspaceId retention files d s).1 = .error e) :
    (applyImport rt inMemoryRetention tenantId workspaceId retention files d s).2.toLedger =
        s.toLedger ↔
      ∀ privacy, retention = some privacy → ¬ WritesFirst rt tenantId privacy files s d 0
        (planImport rt inMemoryRetention tenantId workspaceId s files).changes := by
  cases retention with
  | none => simp [applyImport]
  | some privacy =>
    simp only [applyImport, Option.some.injEq, forall_eq'] at h ⊢
    rcases happly : applyChanges rt inMemoryRetention tenantId privacy files d 0
      (planImport rt inMemoryRetention tenantId workspaceId s files).changes s with ⟨r, t⟩
    rw [happly] at h
    cases r with
    | ok applied => cases h
    | error e' => exact applyChanges_trace _ happly

/-- A note of memory 10 of tenant 1, workspace 2, with a line of frontmatter and a body. -/
def noteOf (path further body : String) : VaultImportSource :=
  ⟨path, Text.joinLines (["---", "id: mem-0000000000000000000000000000000a", "type: memory",
    "revision: 1", "tenant_id: \"00000000000000000000000000000001\"",
    "workspace_id: \"00000000000000000000000000000002\"", further, "---", body].map String.toList)⟩

/-- A store with memory 10. -/
def storeOfTen : InMemoryMemoryStore :=
  ((Operation.retain (plainRetain "a" .workspace none) none).run (plainDeployment (UUID.ofNat 0))
    (drawsFrom 10) .empty).2

/-- The draws of the rounds. -/
def roundDraws (n : ℕ) : Draws := drawsFrom (20 + 2 * n)

/-- A good note and one whose confidence is out of range. -/
def mixedBatch : List VaultImportSource := [noteOf "p" "" "b", noteOf "q" "confidence: 2" "c"]

/-- The import of the mixed batch into the store with memory 10. -/
def mixedImport : Except Exn VaultImportResult × InMemoryMemoryStore :=
  applyImport asciiNotes inMemoryRetention (UUID.ofNat 1) (UUID.ofNat 2) (some {}) mixedBatch
    roundDraws storeOfTen

theorem mixedImport_run :
    mixedImport.1 = .error (.valueError "confidence must be between 0 and 1") ∧
      mixedImport.2.toLedger ≠ storeOfTen.toLedger := by decide +kernel

/-- The first note is stored before the second one raises, and stays. -/
theorem failed_import_leaves_trace :
    ¬ ((∃ e, mixedImport.1 = .error e) → mixedImport.2.toLedger = storeOfTen.toLedger) :=
  fun h => mixedImport_run.2 (h ⟨_, mixedImport_run.1⟩)

/-- A note that is no memory, one whose confidence is out of range, and a good one. -/
def brokenBatch : List VaultImportSource :=
  [noteOf "n" "type: plan" "a", noteOf "q" "confidence: 2" "c", noteOf "p" "" "b"]

/-- The import of the broken batch into the store with memory 10. -/
def brokenImport : Except Exn VaultImportResult × InMemoryMemoryStore :=
  applyImport asciiNotes inMemoryRetention (UUID.ofNat 1) (UUID.ofNat 2) (some {}) brokenBatch
    roundDraws storeOfTen

/-- The import raises; its first note is no memory, and the command of the second cannot be
built. -/
theorem brokenImport_run :
    brokenImport.1 = .error (.valueError "confidence must be between 0 and 1") ∧
      (planImport asciiNotes inMemoryRetention (UUID.ofNat 1) (UUID.ofNat 2) storeOfTen
        brokenBatch).changes =
        [⟨"n", .skip, none, none, none, "only memory notes are imported"⟩,
          ⟨"q", .supersede, some (UUID.ofNat 10), some 1, none, "memory text changed"⟩,
          ⟨"p", .supersede, some (UUID.ofNat 10), some 1, none, "memory text changed"⟩] ∧
      (importCommand asciiNotes (UUID.ofNat 1) brokenBatch "q" (UUID.ofNat 10) 1).isOk = false := by
  decide +kernel

/-- The first round stays out and the second cannot be appended, so nothing is written. -/
theorem failed_import_trace_at_broken :
    brokenImport.1 = .error (.valueError "confidence must be between 0 and 1") ∧
      brokenImport.2.toLedger = storeOfTen.toLedger := by
  obtain ⟨hrun, hplan, hcommand⟩ := brokenImport_run
  refine ⟨hrun, (failed_import_trace_iff asciiNotes (UUID.ofNat 1) (UUID.ofNat 2) (some {})
    brokenBatch roundDraws storeOfTen _ hrun).mpr ?_⟩
  rintro privacy ⟨⟩ hfirst
  -- the command of the second round cannot be built
  have hnot : ∀ itemId command current item event, ¬ ReadyChange asciiNotes (UUID.ofNat 1) {}
      brokenBatch storeOfTen (roundDraws 1)
      ⟨"q", .supersede, some (UUID.ofNat 10), some 1, none, "memory text changed"⟩ itemId command
      current item event := by
    rintro itemId command current item event ⟨-, hid, ⟨revision, hrevision, hbuilt⟩, -⟩
    cases hid
    cases hrevision
    rw [hbuilt] at hcommand
    cases hcommand
  rw [hplan] at hfirst
  rcases hfirst with ⟨_, _, _, _, _, hready, -⟩ | ⟨-, hfirst⟩
  · cases hready.action
  rcases hfirst with ⟨_, _, _, _, _, hready, -⟩ | ⟨hstays, -⟩
  · exact hnot _ _ _ _ _ hready
  rcases hstays with hunplanned | ⟨_, _, _, _, _, hready, -⟩
  · simp at hunplanned
  · exact hnot _ _ _ _ _ hready

end Traces

section Reports

variable (rt : NoteRuntime) (env : Deployment) (tenantId workspaceId : UUID)
  (files : List VaultImportSource) (d : ℕ → Draws)

/-- The text that the guard makes of the body of a file. -/
def guardedBody (file : VaultImportSource) : Except Exn String := do
  let note ← VaultNotes.parseMarkdownNote rt file.content
  (env.privacy.apply (String.ofList note.body)).map PrivacyDecision.text

/-- The store before a round. -/
def storeBefore (s : InMemoryMemoryStore) (k : ℕ) : InMemoryMemoryStore :=
  (applyChanges rt inMemoryRetention tenantId env.privacy files d 0
    ((planImport rt inMemoryRetention tenantId workspaceId s files).changes.take k) s).2

/-- Every round, from the round `n` on, draws new identifiers. -/
def FreshRounds (n : ℕ) : List VaultImportChange → InMemoryMemoryStore → Prop
  | [], _ => True
  | change :: rest, x =>
    (d n).Fresh 2 x.usedIds ∧ FreshRounds (n + 1) rest
      (applyChange rt inMemoryRetention tenantId env.privacy files (d n) change x).2

instance decidableFreshRounds (n : ℕ) (changes : List VaultImportChange)
    (x : InMemoryMemoryStore) : Decidable (FreshRounds rt env tenantId files d n changes x) :=
  match changes with
  | [] => inferInstanceAs (Decidable True)
  | change :: rest =>
    have := decidableFreshRounds (n + 1) rest
      (applyChange rt inMemoryRetention tenantId env.privacy files (d n) change x).2
    inferInstanceAs (Decidable (_ ∧ _))

/-- The reported revision was appended by the call, as the child of the reported item, with the
guarded body of the file. -/
def TruthfulReport (s t : InMemoryMemoryStore) (file : VaultImportSource)
    (change : VaultImportChange) : Prop :=
  ∃ i ∈ t.items.rows, change.newItemId = some i.id ∧ guardedBody rt env file = .ok i.text ∧
    (∀ x ∈ s.items.rows, x.id ≠ i.id) ∧ i.supersedesId = change.itemId

/-- A planned replacement names a stored item at its own revision. -/
structure PlannedFrom (s : InMemoryMemoryStore) (change : VaultImportChange) (itemId : UUID)
    (expectedRevision : ℤ) (current : MemoryItem) : Prop where
  named : change.itemId = some itemId
  expected : change.expectedRevision = some expectedRevision
  found : s.get tenantId itemId = some current
  revision : (current.revision : ℤ) = expectedRevision

/-- The key under which the replacement of a planned change is stored, in the workspace of its
item. -/
def roundKey (s : InMemoryMemoryStore) (planned : VaultImportChange) : Option String := do
  let itemId ← planned.itemId
  let expectedRevision ← planned.expectedRevision
  let current ← s.get tenantId itemId
  scopeIdempotencyKey current.workspaceId (some (importKey planned.path expectedRevision))

/-- The first file with the path of the planned change has the same guarded body as the file that
the change stands for, its key was not in use before the call, and no earlier round that appends a
revision under that key replaces another item. -/
structure HonestRound (s : InMemoryMemoryStore) (k : ℕ) (file : VaultImportSource)
    (planned : VaultImportChange) : Prop where
  sameBody : ∀ first, (files.find? fun f => f.path = planned.path) = some first →
    guardedBody rt env first = guardedBody rt env file
  newKey : s.replayed tenantId (roundKey tenantId s planned) = none
  sameItem : ∀ j < k, ∀ earlier,
    (planImport rt inMemoryRetention tenantId workspaceId s files).changes[j]? = some earlier →
    roundKey tenantId s earlier = roundKey tenantId s planned →
    Commits rt tenantId env.privacy files (storeBefore rt env tenantId workspaceId files d s j)
      (d j)
      earlier →
    earlier.itemId = planned.itemId

/-- The first file with the path of the planned change has the same guarded body as the file that
the change stands for, and what the round finds under its key is new and replaces its item. -/
structure KeyedRound (s x : InMemoryMemoryStore) (file : VaultImportSource)
    (planned : VaultImportChange) : Prop where
  sameBody : ∀ first, (files.find? fun f => f.path = planned.path) = some first →
    guardedBody rt env first = guardedBody rt env file
  newKey : ∀ itemId expectedRevision current e, planned.itemId = some itemId →
    planned.expectedRevision = some expectedRevision → x.get tenantId itemId = some current →
    x.replayed tenantId (scopeIdempotencyKey current.workspaceId
      (some (importKey planned.path expectedRevision))) = some e →
    (∀ y ∈ s.items.rows, y.id ≠ e.itemId) ∧
      ∃ i ∈ x.items.rows, i.id = e.itemId ∧ i.supersedesId = some itemId

/-- The entry is that of the revision that the round of a planned change appended. -/
structure StoredBy (s x : InMemoryMemoryStore) (planned : VaultImportChange)
    (e : IdempotencyEntry) : Prop where
  tenant : e.tenantId = tenantId
  key : some e.key = roundKey tenantId s planned
  item : ∃ i ∈ x.items.rows, i.id = e.itemId ∧ i.supersedesId = planned.itemId
  new : ∀ y ∈ s.items.rows, y.id ≠ e.itemId

/-- The entries before a round are those of before the call and one for each earlier round that
appended. -/
structure Recorded (s : InMemoryMemoryStore) (k : ℕ) : Prop where
  kept : ∀ e ∈ s.idempotency.rows,
    e ∈ (storeBefore rt env tenantId workspaceId files d s k).idempotency.rows
  stored : ∀ j < k, ∀ earlier,
    (planImport rt inMemoryRetention tenantId workspaceId s files).changes[j]? = some earlier →
    Commits rt tenantId env.privacy files (storeBefore rt env tenantId workspaceId files d s j)
      (d j)
      earlier →
    ∃ e ∈ (storeBefore rt env tenantId workspaceId files d s k).idempotency.rows,
      StoredBy tenantId s (storeBefore rt env tenantId workspaceId files d s k) earlier e
  origin : ∀ e ∈ (storeBefore rt env tenantId workspaceId files d s k).idempotency.rows,
    e ∈ s.idempotency.rows ∨ ∃ j < k, ∃ earlier,
      (planImport rt inMemoryRetention tenantId workspaceId s files).changes[j]? = some earlier ∧
      StoredBy tenantId s (storeBefore rt env tenantId workspaceId files d s k) earlier e ∧
      Commits rt tenantId env.privacy files (storeBefore rt env tenantId workspaceId files d s j)
        (d j) earlier

/-- What holds of the store during an import that started from `s`: a key that the import has
used leads to the guarded body of the first file with its path. -/
structure Importing (s x : InMemoryMemoryStore) : Prop where
  reachable : Reachable env x
  kept : ∀ i ∈ s.items.rows, i ∈ x.items.rows
  imported : ∀ e ∈ x.idempotency.rows, e ∈ s.idempotency.rows ∨
    ∃ path expectedRevision workspace first i,
      some e.key = scopeIdempotencyKey workspace (some (importKey path expectedRevision)) ∧
      (files.find? fun f => f.path = path) = some first ∧ i ∈ x.items.rows ∧ i.id = e.itemId ∧
      guardedBody rt env first = .ok i.text

/-- A round of an import that returns, and the stores around it. -/
structure RoundAt (s t : InMemoryMemoryStore) (as : List VaultImportChange) (k : ℕ)
    (planned : VaultImportChange) : Prop where
  before : Importing rt env files s (storeBefore rt env tenantId workspaceId files d s k)
  fresh : (d k).Fresh 2 (storeBefore rt env tenantId workspaceId files d s k).usedIds
  round : ∃ a, as[k]? = some a ∧
    applyChange rt inMemoryRetention tenantId env.privacy files (d k) planned
        (storeBefore rt env tenantId workspaceId files d s k) =
      (.ok a, storeBefore rt env tenantId workspaceId files d s (k + 1))
  kept : ∀ i ∈ (storeBefore rt env tenantId workspaceId files d s (k + 1)).items.rows,
    i ∈ t.items.rows

end Reports

section Truth

variable {rt : NoteRuntime} {env : Deployment} {tenantId workspaceId : UUID}
  {files : List VaultImportSource} {s x y : InMemoryMemoryStore} {change : VaultImportChange}

variable (rt env tenantId files) in
/-- A round leaves the store or makes it by one replacement. -/
theorem applyChange_store (d : Draws) (change : VaultImportChange) (x : InMemoryMemoryStore) :
    (applyChange rt inMemoryRetention tenantId env.privacy files d change x).2 = x ∨
      ∃ command, (applyChange rt inMemoryRetention tenantId env.privacy files d change x).2 =
        ((Operation.supersede command none).run env d x).2 := by
  unfold applyChange
  split
  · split
    · exact .inl rfl
    · rename_i command _
      refine .inr ⟨command, ?_⟩
      have hop : ((Operation.supersede command none).run env d x).2 =
          ((RetentionService.supersede inMemoryRetention env.privacy command none d).run x).2 := by
        simp only [Operation.run, Operation.program, MemoryOperation.program, inMemoryStores,
          Proc.run_wrap]
      rw [hop]
      rcases (RetentionService.supersede inMemoryRetention env.privacy command none d).run x with
        ⟨r, z⟩
      cases r with
      | ok result => rfl
      | error e => cases e <;> rfl
  · exact .inl rfl

variable (rt tenantId files) in
/-- A round with new identifiers keeps the store reachable and every item. -/
theorem applyChange_reachable (hx : Reachable env x) {d : Draws} (hd : d.Fresh 2 x.usedIds)
    (change : VaultImportChange) :
    let z := (applyChange rt inMemoryRetention tenantId env.privacy files d change x).2
    Reachable env z ∧ ∀ i ∈ x.items.rows, i ∈ z.items.rows := by
  intro z
  rcases applyChange_store rt env tenantId files d change x with hsame | ⟨command, hop⟩
  · have hz : z = x := hsame
    rw [hz]
    exact ⟨hx, fun _ hi => hi⟩
  · have hz : z = ((Operation.supersede command none).run env d x).2 := hop
    rw [hz]
    exact ⟨.step _ d hx hd, Operation.keeps_items _ env hx.consistent.chained hd⟩

/-- The command of a planned change carries the guarded body of the first file. -/
theorem ReadyChange.guardedBody {d : Draws} {itemId : UUID} {command : SupersedeMemoryCommand}
    {current item : MemoryItem} {event : IntegrationEvent}
    (h : ReadyChange rt tenantId env.privacy files x d change itemId command current item event) :
    ∃ first, (files.find? fun f => f.path = change.path) = some first ∧
      guardedBody rt env first = .ok item.text := by
  obtain ⟨expectedRevision, -, hcommand⟩ := h.built
  obtain ⟨-, -, -, note, hnote, htext⟩ := importCommand_eq_ok hcommand
  have hguard := RetentionService.prepareReplacement_text h.prepared
  unfold noteAt at hnote
  cases hfirst : files.find? fun f => f.path = change.path with
  | none =>
    rw [hfirst] at hnote
    cases hnote
  | some first =>
    rw [hfirst] at hnote
    refine ⟨first, rfl, ?_⟩
    simp only at hnote
    rw [MemoryPlane.guardedBody, hnote, Except.ok_bind, ← htext, hguard]

/-- The key of a planned change. -/
theorem ReadyChange.key_eq {d : Draws} {itemId : UUID} {command : SupersedeMemoryCommand}
    {current item : MemoryItem} {event : IntegrationEvent}
    (h : ReadyChange rt tenantId env.privacy files x d change itemId command current item event) :
    ∃ expectedRevision, change.expectedRevision = some expectedRevision ∧
      item.tenantId = tenantId ∧ replacementKey command item =
        scopeIdempotencyKey current.workspaceId
          (some (importKey change.path expectedRevision)) := by
  obtain ⟨expectedRevision, hexpected, hcommand⟩ := h.built
  obtain ⟨-, -, hkey, -⟩ := importCommand_eq_ok hcommand
  obtain ⟨-, -, -, -, ht, hw, -⟩ := RetentionService.prepareReplacement_eq_ok h.prepared
  have htenant := (Ledger.get_eq_some.mp h.found).2.2
  exact ⟨expectedRevision, hexpected, ht.trans htenant, by rw [replacementKey, hw, hkey]⟩

/-- A round appends the guarded body of the first file under its key. -/
theorem Importing.round (h : Importing rt env files s x) {d : Draws} (hd : d.Fresh 2 x.usedIds)
    {r : Except Exn VaultImportChange} {z : InMemoryMemoryStore}
    (happly : applyChange rt inMemoryRetention tenantId env.privacy files d change x = (r, z)) :
    Importing rt env files s z := by
  obtain ⟨hreachable, hkept⟩ := applyChange_reachable rt tenantId files h.reachable hd change
  have hround := applyChange_outcome rt tenantId env.privacy files x d change
  rw [happly] at hreachable hkept hround
  refine ⟨hreachable, fun i hi => hkept i (h.kept i hi), ?_⟩
  -- an entry of before keeps its item, and the only new one is that of the round
  have hold : ∀ e ∈ x.idempotency.rows, e ∈ s.idempotency.rows ∨
      ∃ path expectedRevision workspace first i,
        some e.key = scopeIdempotencyKey workspace (some (importKey path expectedRevision)) ∧
        (files.find? fun f => f.path = path) = some first ∧ i ∈ z.items.rows ∧ i.id = e.itemId ∧
        guardedBody rt env first = .ok i.text := by
    intro e he
    rcases h.imported e he with hs | ⟨path, expectedRevision, workspace, first, i, hkey, hfirst, hi,
      hid, htext⟩
    · exact .inl hs
    · exact .inr ⟨path, expectedRevision, workspace, first, i, hkey, hfirst, hkept i hi, hid, htext⟩
  cases hround with
  | kept | raised | conflict | replayed => exact hold
  | committed itemId command current item event c _ ready _ _ _ _ _ appended =>
    intro e he
    have hwrites := publish_putItem_writes (s := x) item (replacementKey command item) event
    rw [← appended] at hwrites
    have hkeys : z.idempotency = _ := hwrites.idempotency
    have hitems : z.items = _ := hwrites.items
    obtain ⟨expectedRevision, -, -, hkey⟩ := ready.key_eq
    rw [hkeys, Ledger.commit, hkey] at he
    simp only [scopeIdempotencyKey, Option.map_some] at he
    rcases Table.mem_put.mp he with rfl | ⟨he, -⟩
    · obtain ⟨first, hfirst, htext⟩ := ready.guardedBody
      refine .inr ⟨change.path, expectedRevision, current.workspaceId, first, item, rfl, hfirst, ?_,
        rfl, htext⟩
      rw [hitems]
      exact Table.mem_put.mpr (.inl rfl)
    · exact hold e he

/-- A loop that returns makes its first round and then the others. -/
theorem applyChanges_cons_ok {privacy : PrivacyGuard} {d : ℕ → Draws} {n : ℕ}
    {rest rs : List VaultImportChange} {z : InMemoryMemoryStore}
    (h : applyChanges rt inMemoryRetention tenantId privacy files d n (change :: rest) x =
      (.ok rs, z)) :
    ∃ a y bs, applyChange rt inMemoryRetention tenantId privacy files (d n) change x = (.ok a, y) ∧
      applyChanges rt inMemoryRetention tenantId privacy files d (n + 1) rest y = (.ok bs, z) ∧
      rs = a :: bs := by
  unfold applyChanges at h
  rcases happly : applyChange rt inMemoryRetention tenantId privacy files (d n) change x with ⟨r, y⟩
  rw [happly] at h
  cases r with
  | error e => cases h
  | ok applied =>
    simp only at h
    rcases hothers : applyChanges rt inMemoryRetention tenantId privacy files d (n + 1) rest y with
      ⟨r, w⟩
    rw [hothers] at h
    cases r with
    | error e => cases h
    | ok others =>
      cases h
      exact ⟨applied, y, others, rfl, hothers, rfl⟩

/-- A loop that returns runs its first rounds and then the others. -/
theorem applyChanges_append_ok {privacy : PrivacyGuard} {d : ℕ → Draws} {n : ℕ}
    {pre rest rs : List VaultImportChange} {z : InMemoryMemoryStore}
    (h : applyChanges rt inMemoryRetention tenantId privacy files d n (pre ++ rest) x =
      (.ok rs, z)) :
    ∃ as y bs, applyChanges rt inMemoryRetention tenantId privacy files d n pre x = (.ok as, y) ∧
      as.length = pre.length ∧ applyChanges rt inMemoryRetention tenantId privacy files d
        (n + pre.length) rest y = (.ok bs, z) ∧ rs = as ++ bs := by
  induction pre generalizing n x rs with
  | nil => exact ⟨[], x, rs, rfl, rfl, h, rfl⟩
  | cons change pre ih =>
    obtain ⟨a, y, others, happly, hothers, rfl⟩ := applyChanges_cons_ok h
    obtain ⟨as, w, bs, has, hlength, hbs, rfl⟩ := ih hothers
    refine ⟨a :: as, w, bs, ?_, ?_, ?_, rfl⟩
    · simp only [applyChanges, happly, has]
    · rw [List.length_cons, List.length_cons, hlength]
    · rw [List.length_cons, show n + (pre.length + 1) = n + 1 + pre.length by omega]
      exact hbs

/-- An import keeps its invariant as far as it runs. -/
theorem Importing.run {d : ℕ → Draws} {n : ℕ} {changes as : List VaultImportChange}
    {z : InMemoryMemoryStore} (h : Importing rt env files s x)
    (hd : FreshRounds rt env tenantId files d n changes x)
    (happly : applyChanges rt inMemoryRetention tenantId env.privacy files d n changes x =
      (.ok as, z)) : Importing rt env files s z := by
  induction changes generalizing n x as with
  | nil =>
    cases happly
    exact h
  | cons change rest ih =>
    obtain ⟨a, y, others, hround, hothers, -⟩ := applyChanges_cons_ok happly
    obtain ⟨hfresh, hrest⟩ := hd
    rw [hround] at hrest
    exact ih (h.round hfresh hround) hrest hothers

/-- The first rounds and the others draw new identifiers when all rounds do. -/
theorem FreshRounds.append {d : ℕ → Draws} {n : ℕ} {pre rest as : List VaultImportChange}
    (h : FreshRounds rt env tenantId files d n (pre ++ rest) x)
    (happly : applyChanges rt inMemoryRetention tenantId env.privacy files d n pre x =
      (.ok as, y)) :
    FreshRounds rt env tenantId files d n pre x ∧
      FreshRounds rt env tenantId files d (n + pre.length) rest y := by
  induction pre generalizing n x as with
  | nil =>
    cases happly
    exact ⟨trivial, h⟩
  | cons change pre ih =>
    obtain ⟨a, w, others, hround, hothers, -⟩ := applyChanges_cons_ok happly
    obtain ⟨hfresh, hrest⟩ := h
    rw [hround] at hrest
    obtain ⟨hpre, hpost⟩ := ih hrest hothers
    refine ⟨⟨hfresh, by rw [hround]; exact hpre⟩, ?_⟩
    rw [List.length_cons, show n + (pre.length + 1) = n + 1 + pre.length by omega]
    exact hpost

/-- A replacement is planned for a stored item at its own revision. -/
theorem planFileImport_planned {file : VaultImportSource} {c : VaultImportChange}
    (hc : planFileImport rt inMemoryRetention tenantId workspaceId s file = c)
    (h : c.action = .supersede) :
    ∃ itemId expectedRevision current,
      PlannedFrom tenantId s c itemId expectedRevision current := by
  unfold planFileImport at hc
  repeat' split at hc
  all_goals
    subst hc
    first
      | cases h
        done
      | rename_i current hget hrevision _
        exact ⟨_, _, current, rfl, rfl, hget, not_not.mp hrevision⟩

/-- The entry of a key that the import has used leads to the guarded body of the first file, and
an entry of before to an item of before. -/
theorem Importing.entry (hx : Importing rt env files s x) (hs : Reachable env s) {u w : UUID}
    {path : String} {expectedRevision : ℤ} {e : IdempotencyEntry} {i : MemoryItem}
    {first : VaultImportSource}
    (hentry : x.replayed u (scopeIdempotencyKey w (some (importKey path expectedRevision))) =
      some e)
    (hi : i ∈ x.items.rows) (hid : i.id = e.itemId)
    (hfirst : (files.find? fun f => f.path = path) = some first) :
    (∃ y ∈ s.items.rows, y.id = i.id) ∨ guardedBody rt env first = .ok i.text := by
  simp only [replayed, scopeIdempotencyKey, Option.map_some, Option.bind_some] at hentry
  obtain ⟨he, hkey⟩ := Table.find_eq_some.mp hentry
  rcases hx.imported e he with hold |
    ⟨path', expectedRevision', w', first', i', hkey', hfirst', hi', hid', htext⟩
  · obtain ⟨y, hy, hyid, -⟩ := hs.consistent.keyed e hold
    exact .inl ⟨y, hy, hyid.trans hid.symm⟩
  · have hscoped : scopeIdempotencyKey w (some (importKey path expectedRevision)) =
        scopeIdempotencyKey w' (some (importKey path' expectedRevision')) := by
      rw [← hkey']
      simp only [scopeIdempotencyKey, Option.map_some]
      rw [← (Prod.mk.inj hkey).2]
    obtain rfl := importKey_path (scopeIdempotencyKey_inj hscoped)
    rw [hfirst, Option.some.injEq] at hfirst'
    obtain rfl : i = i' := x.items.eq_of_key_eq hi hi' (hid.trans hid'.symm)
    exact .inr (by rw [hfirst', htext])

/-- For a planned replacement the round is keyed by what it finds under the key of its item. -/
theorem keyedRound_iff_entry {file : VaultImportSource} {itemId : UUID} {expectedRevision : ℤ}
    {current : MemoryItem} (hid : change.itemId = some itemId)
    (hexpected : change.expectedRevision = some expectedRevision)
    (hfound : x.get tenantId itemId = some current) :
    KeyedRound rt env tenantId files s x file change ↔
      (∀ first, (files.find? fun f => f.path = change.path) = some first →
        guardedBody rt env first = guardedBody rt env file) ∧
      ∀ e, x.replayed tenantId (scopeIdempotencyKey current.workspaceId
          (some (importKey change.path expectedRevision))) = some e →
        (∀ y ∈ s.items.rows, y.id ≠ e.itemId) ∧
          ∃ i ∈ x.items.rows, i.id = e.itemId ∧ i.supersedesId = some itemId := by
  constructor
  · rintro ⟨hsame, hkeyed⟩
    exact ⟨hsame, fun e he => hkeyed itemId expectedRevision current e hid hexpected hfound he⟩
  · rintro ⟨hsame, hentry⟩
    refine ⟨hsame, ?_⟩
    intro itemId' expectedRevision' current' e hid' hexpected' hfound' he
    rw [hid, Option.some.injEq] at hid'
    rw [hexpected, Option.some.injEq] at hexpected'
    subst hid' hexpected'
    rw [hfound, Option.some.injEq] at hfound'
    subst hfound'
    exact hentry e he

/-- A round that finds its key used reports what is stored there. -/
theorem replayed_truthful_iff {d : Draws} {c : VaultImportChange}
    {t : InMemoryMemoryStore} {file : VaultImportSource} {itemId : UUID}
    {command : SupersedeMemoryCommand} {current item i : MemoryItem} {event : IntegrationEvent}
    {e : IdempotencyEntry}
    (h : ReadyChange rt tenantId env.privacy files x d change itemId command current item event)
    (entry : x.replayed item.tenantId (replacementKey command item) = some e)
    (stored : x.items.find e.itemId = some i) (itemId_eq : c.itemId = some itemId)
    (newItem : c.newItemId = some i.id) (hs : Reachable env s) (hx : Importing rt env files s x)
    (hkept : i ∈ t.items.rows) :
    TruthfulReport rt env s t file c ↔ KeyedRound rt env tenantId files s x file change := by
  obtain ⟨expectedRevision, hexpected, htenant, hkey⟩ := h.key_eq
  obtain ⟨first, hfirst, -⟩ := h.guardedBody
  obtain ⟨hi, hid⟩ := Table.find_eq_some.mp stored
  rw [htenant, hkey] at entry
  have hbody : (∀ y ∈ s.items.rows, y.id ≠ i.id) → guardedBody rt env first = .ok i.text := by
    intro hfresh
    rcases hx.entry hs entry hi hid hfirst with ⟨y, hy, hyid⟩ | hbody
    · exact absurd hyid (hfresh y hy)
    · exact hbody
  rw [keyedRound_iff_entry h.named hexpected h.found]
  constructor
  · rintro ⟨i', hi', hnew, hfile, hfresh, hparent⟩
    rw [newItem, Option.some.injEq] at hnew
    obtain rfl : i = i' := t.items.eq_of_key_eq hkept hi' hnew
    refine ⟨fun first' hfirst' => ?_, fun e' he' => ?_⟩
    · rw [hfirst, Option.some.injEq] at hfirst'
      rw [← hfirst', hbody hfresh, hfile]
    · rw [entry, Option.some.injEq] at he'
      subst he'
      exact ⟨fun y hy => hid ▸ hfresh y hy, i, hi, hid, by rw [hparent, itemId_eq]⟩
  · rintro ⟨hsame, hkeyed⟩
    obtain ⟨hnew, i', hi', hid', hparent⟩ := hkeyed e entry
    obtain rfl : i = i' := x.items.eq_of_key_eq hi hi' (hid.trans hid'.symm)
    have hfresh : ∀ y ∈ s.items.rows, y.id ≠ i.id := fun y hy => hid ▸ hnew y hy
    refine ⟨i, hkept, newItem, ?_, hfresh, ?_⟩
    · rw [← hsame first hfirst, hbody hfresh]
    · rw [hparent, itemId_eq]

/-- A round that appends its replacement reports it truthfully exactly if the first file with its
path has the same guarded body. -/
theorem appended_truthful_iff {d : Draws} {c : VaultImportChange}
    {t : InMemoryMemoryStore} {file : VaultImportSource} {itemId : UUID}
    {command : SupersedeMemoryCommand} {current item : MemoryItem} {event : IntegrationEvent}
    (h : ReadyChange rt tenantId env.privacy files x d change itemId command current item event)
    (unused : x.replayed item.tenantId (replacementKey command item) = none)
    (itemId_eq : c.itemId = some itemId) (newItem : c.newItemId = some item.id)
    (hfresh : ∀ z ∈ s.items.rows, z.id ≠ item.id) (hitem : item ∈ t.items.rows) :
    TruthfulReport rt env s t file c ↔ KeyedRound rt env tenantId files s x file change := by
  obtain ⟨expectedRevision, hexpected, htenant, hkey⟩ := h.key_eq
  obtain ⟨first, hfirst, hbody⟩ := h.guardedBody
  obtain ⟨-, -, hparent, -⟩ := RetentionService.prepareReplacement_eq_ok h.prepared
  have hcurrent : current.id = itemId := (Ledger.get_eq_some.mp h.found).2.1
  rw [htenant, hkey] at unused
  rw [keyedRound_iff_entry h.named hexpected h.found]
  constructor
  · rintro ⟨i, hi, hnew, hfile, -, -⟩
    rw [newItem, Option.some.injEq] at hnew
    obtain rfl : item = i := t.items.eq_of_key_eq hitem hi hnew
    refine ⟨fun first' hfirst' => ?_, fun e he => ?_⟩
    · rw [hfirst, Option.some.injEq] at hfirst'
      rw [← hfirst', hbody, hfile]
    · rw [unused] at he
      cases he
  · rintro ⟨hsame, -⟩
    refine ⟨item, hitem, newItem, ?_, hfresh, ?_⟩
    · rw [← hsame first hfirst, hbody]
    · rw [hparent, itemId_eq, hcurrent]

/-- What a round reports as a replacement is truthful exactly when what it finds under its key is
new and replaces its item, and the first file with its path has the same guarded body. -/
theorem RoundOutcome.truthful_iff {d : Draws} {c : VaultImportChange} {t : InMemoryMemoryStore}
    {file : VaultImportSource} {itemId : UUID} {expectedRevision : ℤ} {current : MemoryItem}
    (h : RoundOutcome rt tenantId env.privacy files x d change (.ok c) y)
    (hplanned : PlannedFrom tenantId s change itemId expectedRevision current)
    (hs : Reachable env s) (hx : Importing rt env files s x) (hd : d.Fresh 2 x.usedIds)
    (hkept : ∀ i ∈ y.items.rows, i ∈ t.items.rows) (hsup : c.action = .supersede) :
    TruthfulReport rt env s t file c ↔ KeyedRound rt env tenantId files s x file change := by
  cases h with
  | kept unplanned => simp [hsup, hplanned.named, hplanned.expected] at unplanned
  | conflict itemId command current item event c ready unused stale action =>
    rw [action] at hsup
    cases hsup
  | replayed itemId command current item event e i c ready entry stored action itemId_eq newItem =>
    exact replayed_truthful_iff ready entry stored itemId_eq newItem hs hx
      (hkept i (Table.find_eq_some.mp stored).1)
  | committed itemId command current item event c _ ready unused _ action itemId_eq
      newItem appended =>
    have hid := (RetentionService.prepareReplacement_eq_ok ready.prepared).1
    refine appended_truthful_iff ready unused itemId_eq newItem ?_ (hkept item ?_)
    · intro z hz he
      exact Table.find_eq_none.mp (hd.item (i := 0) (by omega)) z (hx.kept z hz) (he.trans hid)
    · have hitems : y.items = _ := appended ▸ (publish_putItem_writes (s := x) item
        (replacementKey command item) event).items
      rw [hitems]
      exact Table.mem_put.mpr (.inl rfl)

/-- What is found stays found while items are kept. -/
theorem get_eq_of_kept {u itemId : UUID} {current current' : MemoryItem}
    (hkept : ∀ i ∈ s.items.rows, i ∈ x.items.rows) (h : s.get u itemId = some current)
    (hx : x.get u itemId = some current') : current = current' := by
  obtain ⟨hmem, hid, -⟩ := Ledger.get_eq_some.mp h
  obtain ⟨hmem', hid', -⟩ := Ledger.get_eq_some.mp hx
  exact x.items.eq_of_key_eq (hkept current hmem) hmem' (hid.trans hid'.symm)

/-- The key of a planned replacement. -/
theorem PlannedFrom.roundKey {itemId : UUID} {expectedRevision : ℤ} {current : MemoryItem}
    (h : PlannedFrom tenantId s change itemId expectedRevision current) :
    MemoryPlane.roundKey tenantId s change = scopeIdempotencyKey current.workspaceId
      (some (importKey change.path expectedRevision)) := by
  simp only [MemoryPlane.roundKey, h.named, h.expected, h.found, Option.bind_eq_bind,
    Option.bind_some]

/-- A round that appends records its entry, any other one records none. -/
theorem RoundOutcome.entries {d : Draws} {c : VaultImportChange}
    (h : RoundOutcome rt tenantId env.privacy files x d change (.ok c) y)
    (hkept : ∀ i ∈ s.items.rows, i ∈ x.items.rows) (hd : d.Fresh 2 x.usedIds)
    (hplanned : change.action = .supersede → ∃ itemId expectedRevision current,
      PlannedFrom tenantId s change itemId expectedRevision current) :
    (∀ e ∈ x.idempotency.rows, e ∈ y.idempotency.rows) ∧
      (Commits rt tenantId env.privacy files x d change →
        ∃ e ∈ y.idempotency.rows, StoredBy tenantId s y change e) ∧
      ∀ e ∈ y.idempotency.rows, e ∈ x.idempotency.rows ∨
        StoredBy tenantId s y change e ∧ Commits rt tenantId env.privacy files x d change := by
  rcases h.ok_cases with ⟨rfl, -, hnot⟩ | ⟨hcommits, u, key, hunused, hused⟩
  · exact ⟨fun _ he => he, fun hcommits => absurd hcommits hnot, fun _ he => .inl he⟩
  · cases h with
    | kept | conflict | replayed =>
      rw [hunused] at hused
      cases hused
    | committed itemId command current item event c _ ready unused _ _ _ _ appended =>
      obtain ⟨expectedRevision, hexpected, htenant, hkey⟩ := ready.key_eq
      obtain ⟨itemId', expectedRevision', before, planned⟩ := hplanned ready.action
      obtain rfl : itemId = itemId' := Option.some.inj (ready.named.symm.trans planned.named)
      obtain rfl : expectedRevision = expectedRevision' :=
        Option.some.inj (hexpected.symm.trans planned.expected)
      obtain rfl := get_eq_of_kept hkept planned.found ready.found
      obtain ⟨hid, -, hparent, -⟩ := RetentionService.prepareReplacement_eq_ok ready.prepared
      have hwrites := publish_putItem_writes (s := x) item (replacementKey command item) event
      rw [← appended] at hwrites
      have hkeys : y.idempotency = _ := hwrites.idempotency
      have hitems : y.items = _ := hwrites.items
      rw [hkey, ← planned.roundKey] at unused hkeys
      obtain ⟨k, hk⟩ : ∃ k, roundKey tenantId s change = some k := by
        rw [planned.roundKey]
        exact ⟨_, rfl⟩
      rw [hk, Ledger.commit] at hkeys
      simp only at hkeys
      have hstored : StoredBy tenantId s y change ⟨item.tenantId, k, item.id⟩ := by
        refine ⟨htenant, hk.symm, ⟨item, ?_, rfl, ?_⟩, ?_⟩
        · rw [hitems]
          exact Table.mem_put.mpr (.inl rfl)
        · rw [hparent, ready.named, (Ledger.get_eq_some.mp planned.found).2.1]
        · intro i hi he
          exact Table.find_eq_none.mp (hd.item (i := 0) (by omega)) i (hkept i hi) (he.trans hid)
      refine ⟨?_, fun _ => ⟨_, ?_, hstored⟩, ?_⟩
      · intro e he
        rw [hkeys]
        refine Table.mem_put.mpr (.inr ⟨he, fun hsame => ?_⟩)
        rw [hk] at unused
        exact Table.find_eq_none.mp unused e he hsame
      · rw [hkeys]
        exact Table.mem_put.mpr (.inl rfl)
      · intro e he
        rw [hkeys] at he
        rcases Table.mem_put.mp he with rfl | ⟨he, -⟩
        · exact .inr ⟨hstored, hcommits⟩
        · exact .inl he

/-- An import that returns makes the round of each planned change. -/
theorem roundAt {d : ℕ → Draws} {as : List VaultImportChange} {t : InMemoryMemoryStore} {k : ℕ}
    (hs : Reachable env s)
    (hd : FreshRounds rt env tenantId files d 0
      (planImport rt inMemoryRetention tenantId workspaceId s files).changes s)
    (hloop : applyChanges rt inMemoryRetention tenantId env.privacy files d 0
      (planImport rt inMemoryRetention tenantId workspaceId s files).changes s = (.ok as, t))
    (hk : (planImport rt inMemoryRetention tenantId workspaceId s files).changes[k]? =
      some change) :
    RoundAt rt env tenantId workspaceId files d s t as k change := by
  have hstores : ∀ n, storeBefore rt env tenantId workspaceId files d s n =
      (applyChanges rt inMemoryRetention tenantId env.privacy files d 0
        ((planImport rt inMemoryRetention tenantId workspaceId s files).changes.take n) s).2 :=
    fun _ => rfl
  generalize (planImport rt inMemoryRetention tenantId workspaceId s files).changes = changes
    at hd hloop hk hstores
  obtain ⟨hlt, rfl⟩ := List.getElem?_eq_some_iff.mp hk
  have hlength : (changes.take k).length = k := List.length_take_of_le hlt.le
  -- the rounds before, the round itself, and the rounds behind it
  have hsplit : changes = (changes.take k ++ [changes[k]]) ++ changes.drop (k + 1) := by
    rw [List.append_assoc, List.singleton_append, List.getElem_cons_drop, List.take_append_drop]
  have htake : changes.take k ++ [changes[k]] = changes.take (k + 1) :=
    List.take_append_getElem hlt
  rw [hsplit] at hloop hd
  obtain ⟨bs, y, cs, hfirst, -, hrest, rfl⟩ := applyChanges_append_ok hloop
  obtain ⟨hfreshFirst, hfreshRest⟩ := hd.append hfirst
  obtain ⟨xs, x, ys, hpre, hxs, hlast, rfl⟩ := applyChanges_append_ok hfirst
  obtain ⟨hfreshPre, hfresh, -⟩ := hfreshFirst.append hpre
  obtain ⟨a, y', zs, hround, hnil, rfl⟩ := applyChanges_cons_ok hlast
  cases hnil
  rw [Nat.zero_add, hlength] at hround hfresh
  have hbefore : storeBefore rt env tenantId workspaceId files d s k = x := by
    rw [hstores, hpre]
  have hafter : storeBefore rt env tenantId workspaceId files d s (k + 1) = y := by
    rw [hstores, ← htake, hfirst]
  have hstart : Importing rt env files s s := ⟨hs, fun _ hi => hi, fun _ he => .inl he⟩
  have hx : Importing rt env files s x := hstart.run hfreshPre hpre
  have hy : Importing rt env files s y := hx.round hfresh hround
  have ht : Importing rt env files y t :=
    Importing.run ⟨hy.reachable, fun _ hi => hi, fun _ he => .inl he⟩ hfreshRest hrest
  refine ⟨by rwa [hbefore], by rwa [hbefore], ⟨a, ?_, by rwa [hbefore, hafter]⟩, ?_⟩
  · rw [List.append_assoc, List.getElem?_append_right (by omega), hxs, hlength, Nat.sub_self]
    rfl
  · rw [hafter]
    exact ht.kept

/-- What a round stored stays stored while items are kept. -/
theorem StoredBy.of_kept {earlier : VaultImportChange} {e : IdempotencyEntry}
    (h : StoredBy tenantId s x earlier e) (hkept : ∀ i ∈ x.items.rows, i ∈ y.items.rows) :
    StoredBy tenantId s y earlier e := by
  obtain ⟨i, hi, hid, hparent⟩ := h.item
  exact ⟨h.tenant, h.key, ⟨i, hkept i hi, hid, hparent⟩, h.new⟩

/-- The entries behind a round are those before it and the one it stored, if it appended. -/
theorem Recorded.succ {d : ℕ → Draws} {as : List VaultImportChange} {t : InMemoryMemoryStore}
    {k : ℕ} {planned : VaultImportChange}
    (hrec : Recorded rt env tenantId workspaceId files d s k)
    (hplanned : (planImport rt inMemoryRetention tenantId workspaceId s files).changes[k]? =
      some planned)
    (hat : RoundAt rt env tenantId workspaceId files d s t as k planned) :
    Recorded rt env tenantId workspaceId files d s (k + 1) := by
  obtain ⟨a, -, hround⟩ := hat.round
  have houtcome := applyChange_outcome rt tenantId env.privacy files
    (storeBefore rt env tenantId workspaceId files d s k) (d k) planned
  rw [hround] at houtcome
  have hfrom : planned.action = .supersede → ∃ itemId expectedRevision current,
      PlannedFrom tenantId s planned itemId expectedRevision current := by
    rw [planImport, List.getElem?_map, Option.map_eq_some_iff] at hplanned
    obtain ⟨file, -, hfile⟩ := hplanned
    exact planFileImport_planned hfile
  obtain ⟨hkeep, hstored, horigin⟩ := houtcome.entries hat.before.kept hat.fresh hfrom
  have hitems := (applyChange_reachable rt tenantId files hat.before.reachable hat.fresh planned).2
  rw [hround] at hitems
  refine ⟨fun e he => hkeep e (hrec.kept e he), ?_, ?_⟩
  · intro j hj earlier hearlier hcommits
    rcases Nat.lt_succ_iff_lt_or_eq.mp hj with hlt | rfl
    · obtain ⟨e, he, hby⟩ := hrec.stored j hlt earlier hearlier hcommits
      exact ⟨e, hkeep e he, hby.of_kept hitems⟩
    · rw [hplanned, Option.some.injEq] at hearlier
      subst hearlier
      exact hstored hcommits
  · intro e he
    rcases horigin e he with hold | ⟨hby, hcommits⟩
    · rcases hrec.origin e hold with hfirst | ⟨j, hj, earlier, hearlier, hby, hcommits⟩
      · exact .inl hfirst
      · exact .inr ⟨j, Nat.lt_succ_of_lt hj, earlier, hearlier, hby.of_kept hitems, hcommits⟩
    · exact .inr ⟨k, Nat.lt_succ_self k, planned, hplanned, hby, hcommits⟩

/-- The entries of an import that returns, before each of its rounds. -/
theorem recorded {d : ℕ → Draws} {as : List VaultImportChange} {t : InMemoryMemoryStore}
    (hs : Reachable env s)
    (hd : FreshRounds rt env tenantId files d 0
      (planImport rt inMemoryRetention tenantId workspaceId s files).changes s)
    (hloop : applyChanges rt inMemoryRetention tenantId env.privacy files d 0
      (planImport rt inMemoryRetention tenantId workspaceId s files).changes s = (.ok as, t)) :
    ∀ k ≤ files.length, Recorded rt env tenantId workspaceId files d s k := by
  intro k
  induction k with
  | zero =>
    intro _
    have hnone : storeBefore rt env tenantId workspaceId files d s 0 = s := rfl
    refine ⟨?_, fun j hj => absurd hj (Nat.not_lt_zero j), ?_⟩
    · rw [hnone]
      exact fun _ he => he
    · rw [hnone]
      exact fun _ he => .inl he
  | succ k ih =>
    intro hk
    obtain ⟨planned, hplanned⟩ : ∃ planned,
        (planImport rt inMemoryRetention tenantId workspaceId s files).changes[k]? =
          some planned := by
      refine ⟨_, List.getElem?_eq_getElem ?_⟩
      rw [planImport, List.length_map]
      exact hk
    exact (ih (Nat.le_of_succ_le hk)).succ hplanned (roundAt hs hd hloop hplanned)

/-- An entry is found under its own key. -/
theorem replayed_eq_some {u : UUID} {key : Option String} {e : IdempotencyEntry} :
    x.replayed u key = some e ↔ e ∈ x.idempotency.rows ∧ e.tenantId = u ∧ some e.key = key := by
  cases key with
  | none => simp [replayed]
  | some k => simp [replayed, Table.find_eq_some, Prod.ext_iff]

/-- What a round finds under its key is new and replaces its item exactly when the key was not in
use before the call and earlier rounds appended under it for that item only. -/
theorem keyedRound_iff {d : ℕ → Draws} {k : ℕ} {file : VaultImportSource} {itemId : UUID}
    {expectedRevision : ℤ} {current : MemoryItem} (hs : Reachable env s)
    (hrec : Recorded rt env tenantId workspaceId files d s k)
    (hkept : ∀ i ∈ s.items.rows,
      i ∈ (storeBefore rt env tenantId workspaceId files d s k).items.rows)
    (hplanned : PlannedFrom tenantId s change itemId expectedRevision current) :
    KeyedRound rt env tenantId files s (storeBefore rt env tenantId workspaceId files d s k) file
        change ↔
      HonestRound rt env tenantId workspaceId files d s k file change := by
  have hround := hplanned.roundKey
  obtain ⟨hid, hexpected, hfound, -⟩ := hplanned
  have hstays : (storeBefore rt env tenantId workspaceId files d s k).get tenantId itemId =
      some current := by
    obtain ⟨hmem, hcurrent, htenant⟩ := Ledger.get_eq_some.mp hfound
    exact Ledger.get_eq_some.mpr ⟨hkept current hmem, hcurrent, htenant⟩
  rw [keyedRound_iff_entry hid hexpected hstays]
  constructor
  · rintro ⟨hsame, hkeyed⟩
    refine ⟨hsame, ?_, ?_⟩
    · rw [Option.eq_none_iff_forall_ne_some]
      intro e he
      obtain ⟨hmem, htenant, hkey⟩ := replayed_eq_some.mp he
      obtain ⟨hnew, -⟩ := hkeyed e
        (replayed_eq_some.mpr ⟨hrec.kept e hmem, htenant, hkey.trans hround⟩)
      obtain ⟨i, hi, hitem, -⟩ := hs.consistent.keyed e hmem
      exact hnew i hi hitem
    · intro j hj earlier hearlier hkey hcommits
      obtain ⟨e, hmem, hby⟩ := hrec.stored j hj earlier hearlier hcommits
      obtain ⟨-, i, hi, hitem, hparent⟩ := hkeyed e
        (replayed_eq_some.mpr ⟨hmem, hby.tenant, (hby.key.trans hkey).trans hround⟩)
      obtain ⟨i', hi', hitem', hparent'⟩ := hby.item
      obtain rfl := (storeBefore rt env tenantId workspaceId files d s k).items.eq_of_key_eq hi hi'
        (hitem.trans hitem'.symm)
      rw [← hparent', hparent, hid]
  · rintro ⟨hsame, hnewKey, hitem⟩
    refine ⟨hsame, fun e he => ?_⟩
    rw [← hround] at he
    obtain ⟨hmem, htenant, hkey⟩ := replayed_eq_some.mp he
    rcases hrec.origin e hmem with hold | ⟨j, hj, earlier, hearlier, hby, hcommits⟩
    · rw [replayed_eq_some.mpr ⟨hold, htenant, hkey⟩] at hnewKey
      cases hnewKey
    · have hsameItem := hitem j hj earlier hearlier (hby.key.symm.trans hkey) hcommits
      obtain ⟨i, hi, hiid, hparent⟩ := hby.item
      exact ⟨hby.new, i, hi, hiid, by rw [hparent, hsameItem, hid]⟩

/-- Only a planned replacement is reported as one. -/
theorem RoundOutcome.planned_action {d : Draws} {c : VaultImportChange}
    (h : RoundOutcome rt tenantId env.privacy files x d change (.ok c) y)
    (hsup : c.action = .supersede) : change.action = .supersede := by
  cases h with
  | kept => exact hsup
  | conflict _ _ _ _ _ _ _ _ _ action =>
    rw [action] at hsup
    cases hsup
  | replayed _ _ _ _ _ _ _ _ ready => exact ready.action
  | committed _ _ _ _ _ _ _ ready => exact ready.action

/-- For every reachable store, every batch of files and every file of it whose replacement is
reported: the reported revision has the guarded body of that file and was appended by the
call as a child of the reported item, exactly when the first file with that path has the same
guarded body, the key of the change was not in use before the call, and no earlier file of the batch
under that key led to a revision of another item. -/
theorem import_report_truthful_iff (rt : NoteRuntime) (env : Deployment)
    (tenantId workspaceId : UUID) (files : List VaultImportSource) (d : ℕ → Draws)
    (s t : InMemoryMemoryStore) (result : VaultImportResult) (hs : Reachable env s)
    (hd : FreshRounds rt env tenantId files d 0
      (planImport rt inMemoryRetention tenantId workspaceId s files).changes s)
    (h : applyImport rt inMemoryRetention tenantId workspaceId (some env.privacy) files d s =
      (.ok result, t)) (k : ℕ) (file : VaultImportSource) (change : VaultImportChange)
    (hfile : files[k]? = some file) (hchange : result.changes[k]? = some change)
    (hsup : change.action = .supersede) :
    TruthfulReport rt env s t file change ↔
      HonestRound rt env tenantId workspaceId files d s k file
        (planFileImport rt inMemoryRetention tenantId workspaceId s file) := by
  have hloop : applyChanges rt inMemoryRetention tenantId env.privacy files d 0
      (planImport rt inMemoryRetention tenantId workspaceId s files).changes s =
      (.ok result.changes, t) := by
    simp only [applyImport] at h
    rcases happly : applyChanges rt inMemoryRetention tenantId env.privacy files d 0
      (planImport rt inMemoryRetention tenantId workspaceId s files).changes s with ⟨r, z⟩
    rw [happly] at h
    cases r <;> cases h
    rfl
  have hplanned : (planImport rt inMemoryRetention tenantId workspaceId s files).changes[k]? =
      some (planFileImport rt inMemoryRetention tenantId workspaceId s file) := by
    rw [planImport, List.getElem?_map, hfile]
    rfl
  have hat := roundAt hs hd hloop hplanned
  obtain ⟨a, ha, hround⟩ := hat.round
  rw [hchange, Option.some.injEq] at ha
  subst ha
  have houtcome := applyChange_outcome rt tenantId env.privacy files
    (storeBefore rt env tenantId workspaceId files d s k) (d k)
    (planFileImport rt inMemoryRetention tenantId workspaceId s file)
  rw [hround] at houtcome
  obtain ⟨itemId, expectedRevision, current, hfrom⟩ :=
    planFileImport_planned rfl (houtcome.planned_action hsup)
  have hrec := recorded hs hd hloop k (List.getElem?_eq_some_iff.mp hfile).1.le
  rw [← keyedRound_iff hs hrec hat.before.kept hfrom]
  exact houtcome.truthful_iff hfrom hs hat.before hat.fresh hat.kept hsup

/-- Two notes with one path. -/
def samePathBatch : List VaultImportSource := [noteOf "p" "" "b", noteOf "p" "" "c"]

/-- What the import reports for both notes: the revision with the body of the first. -/
def samePathChange : VaultImportChange :=
  ⟨"p", .supersede, some (UUID.ofNat 10), some 1, some (UUID.ofNat 20),
    "created new memory revision"⟩

theorem storeOfTen_reachable : Reachable (plainDeployment (UUID.ofNat 0)) storeOfTen :=
  .step _ _ .empty (by decide +kernel)

/-- The import of two notes with one path into the store with memory 10. -/
def samePathImport : Except Exn VaultImportResult × InMemoryMemoryStore :=
  applyImport asciiNotes inMemoryRetention (UUID.ofNat 1) (UUID.ofNat 2)
    (some (plainDeployment (UUID.ofNat 0)).privacy) samePathBatch roundDraws storeOfTen

theorem samePathImport_run :
    samePathImport.1 = .ok ⟨UUID.ofNat 1, UUID.ofNat 2, false, [samePathChange, samePathChange]⟩ ∧
      ∀ i ∈ samePathImport.2.items.rows, i.text ≠ "c" := by decide +kernel

/-- The second round looks up the first note, so the report of the second is not truthful. -/
theorem import_reports_other_file :
    Reachable (plainDeployment (UUID.ofNat 0)) storeOfTen ∧
      samePathImport.1 =
        .ok ⟨UUID.ofNat 1, UUID.ofNat 2, false, [samePathChange, samePathChange]⟩ ∧
      ¬ TruthfulReport asciiNotes (plainDeployment (UUID.ofNat 0)) storeOfTen samePathImport.2
        (noteOf "p" "" "c") samePathChange := by
  refine ⟨storeOfTen_reachable, samePathImport_run.1, ?_⟩
  rintro ⟨i, hi, -, hbody, -⟩
  have hfile : guardedBody asciiNotes (plainDeployment (UUID.ofNat 0)) (noteOf "p" "" "c") =
      .ok "c" := by decide +kernel
  rw [hfile, Except.ok.injEq] at hbody
  exact samePathImport_run.2 i hi hbody.symm

/-- The same note twice. -/
def twinBatch : List VaultImportSource := [noteOf "p" "" "b", noteOf "p" "" "b"]

/-- The import of the note and its copy into the store with memory 10. -/
def twinImport : Except Exn VaultImportResult × InMemoryMemoryStore :=
  applyImport asciiNotes inMemoryRetention (UUID.ofNat 1) (UUID.ofNat 2)
    (some (plainDeployment (UUID.ofNat 0)).privacy) twinBatch roundDraws storeOfTen

/-- Both rounds draw new identifiers and report the same revision; the key of the copy was not used
before the import. -/
theorem twinImport_run :
    twinImport.1 = .ok ⟨UUID.ofNat 1, UUID.ofNat 2, false, [samePathChange, samePathChange]⟩ ∧
      FreshRounds asciiNotes (plainDeployment (UUID.ofNat 0)) (UUID.ofNat 1) twinBatch roundDraws 0
        (planImport asciiNotes inMemoryRetention (UUID.ofNat 1) (UUID.ofNat 2) storeOfTen
          twinBatch).changes storeOfTen ∧
      (twinBatch.find? fun f => f.path = (planFileImport asciiNotes inMemoryRetention (UUID.ofNat 1)
        (UUID.ofNat 2) storeOfTen (noteOf "p" "" "b")).path) = some (noteOf "p" "" "b") ∧
      storeOfTen.replayed (UUID.ofNat 1) (roundKey (UUID.ofNat 1) storeOfTen
        (planFileImport asciiNotes inMemoryRetention (UUID.ofNat 1) (UUID.ofNat 2) storeOfTen
          (noteOf "p" "" "b"))) = none := by
  decide +kernel

/-- The round of the copy finds the key of the first round, which replaced the same memory by the
same body, so the report of the copy is truthful. -/
theorem import_report_truthful_at_copy :
    twinImport.1 = .ok ⟨UUID.ofNat 1, UUID.ofNat 2, false, [samePathChange, samePathChange]⟩ ∧
      TruthfulReport asciiNotes (plainDeployment (UUID.ofNat 0)) storeOfTen twinImport.2
        (noteOf "p" "" "b") samePathChange := by
  obtain ⟨hrun, hfresh, hfirst, hunused⟩ := twinImport_run
  refine ⟨hrun, (import_report_truthful_iff asciiNotes (plainDeployment (UUID.ofNat 0))
    (UUID.ofNat 1) (UUID.ofNat 2) twinBatch roundDraws storeOfTen _ _ storeOfTen_reachable hfresh
    (Prod.ext hrun rfl) 1 _ _ rfl rfl rfl).mpr ⟨?_, hunused, ?_⟩⟩
  · intro first hfind
    rw [hfirst, Option.some.injEq] at hfind
    rw [hfind]
  · intro j hj earlier hearlier _ _
    obtain rfl : j = 0 := by omega
    obtain rfl := Option.some.inj hearlier
    rfl

/-- The loop leads to a reachable store, whether it returns or raises. -/
theorem applyChanges_reachable {d : ℕ → Draws} {n : ℕ} (changes : List VaultImportChange)
    (hx : Reachable env x) (hd : FreshRounds rt env tenantId files d n changes x) :
    Reachable env
      (applyChanges rt inMemoryRetention tenantId env.privacy files d n changes x).2 := by
  induction changes generalizing n x with
  | nil => exact hx
  | cons change rest ih =>
    obtain ⟨hfresh, hrest⟩ := hd
    have hround := (applyChange_reachable rt tenantId files hx hfresh change).1
    rcases happly : applyChange rt inMemoryRetention tenantId env.privacy files (d n) change x with
      ⟨r, y⟩
    rw [happly] at hround hrest
    cases r with
    | error e =>
      rw [applyChanges_store_of_error happly]
      exact hround
    | ok applied =>
      rw [applyChanges_store_of_ok happly]
      exact ih hround hrest

/-- So does an import. -/
theorem Reachable.applyImport {d : ℕ → Draws} (hs : Reachable env s)
    (hd : FreshRounds rt env tenantId files d 0
      (planImport rt inMemoryRetention tenantId workspaceId s files).changes s) :
    Reachable env (VaultExporter.applyImport rt inMemoryRetention tenantId workspaceId
      (some env.privacy) files d s).2 := by
  have hreached := applyChanges_reachable _ hs hd
  unfold VaultExporter.applyImport
  simp only
  rcases hloop : applyChanges rt inMemoryRetention tenantId env.privacy files d 0
    (planImport rt inMemoryRetention tenantId workspaceId s files).changes s with ⟨r, z⟩
  rw [hloop] at hreached
  cases r <;> exact hreached

end Truth

end MemoryPlane
