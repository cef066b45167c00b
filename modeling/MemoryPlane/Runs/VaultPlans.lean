import MemoryPlane.Runs.VaultImports

/-!
# Dry runs of vault imports

A dry run reports what each file would do. A planned replacement compares the revision of the note
with the revision of the named item, which never changes; the replacement itself asks whether the
item is the last of its chain. The import does what was planned exactly for the notes of items that
nothing has replaced, and for notes whose key was used before.
-/

namespace MemoryPlane

open VaultExporter InMemoryMemoryStore

section Plans

variable {rt : NoteRuntime} {env : Deployment} {tenantId workspaceId : UUID}
  {files : List VaultImportSource} {s x y : InMemoryMemoryStore} {change : VaultImportChange}

theorem planFileImport_path (file : VaultImportSource) :
    (planFileImport rt inMemoryRetention tenantId workspaceId s file).path = file.path := by
  unfold planFileImport
  repeat' split
  all_goals rfl

/-- The planned replacement of a note is foreseen: nothing has replaced its item yet, or its key
was used before. -/
def Foreseen (tenantId : UUID) (s : InMemoryMemoryStore) (change : VaultImportChange) : Prop :=
  ∀ itemId expectedRevision current, PlannedFrom tenantId s change itemId expectedRevision current →
    s.toLedger.Unreplaced current ∨
      (s.replayed tenantId (scopeIdempotencyKey current.workspaceId
        (some (importKey change.path expectedRevision)))).isSome

/-- The command of a planned change expects the planned revision. -/
theorem importCommand_revision {path : String} {itemId : UUID} {expectedRevision : ℤ}
    {command : SupersedeMemoryCommand}
    (h : importCommand rt tenantId files path itemId expectedRevision = .ok command) :
    (command.expectedRevision : ℤ) = expectedRevision := by
  unfold importCommand at h
  obtain ⟨note, -, h⟩ := Except.bind_eq_ok.mp h
  obtain ⟨confidence, -, h⟩ := Except.bind_eq_ok.mp h
  exact (SupersedeMemoryCommand.create_eq_ok h).2.2.2.1

/-- What rounds for some changes leave of a store: the items that they added revise the items that
the changes name, and the keys that they used belong to the paths of the changes. -/
structure AfterRounds (env : Deployment) (s x : InMemoryMemoryStore)
    (done : List VaultImportChange) : Prop where
  reachable : Reachable env x
  kept : ∀ i ∈ s.items.rows, i ∈ x.items.rows
  revises : ∀ i ∈ x.items.rows, i ∈ s.items.rows ∨
    ∃ c ∈ done, ∃ itemId, c.itemId = some itemId ∧ i.supersedesId = some itemId
  keys : ∀ u key, x.replayed u key = s.replayed u key ∨
    ∃ c ∈ done, ∃ w r, key = scopeIdempotencyKey w (some (importKey c.path r))

theorem AfterRounds.start (hs : Reachable env s) : AfterRounds env s s [] :=
  ⟨hs, fun _ hi => hi, fun _ hi => .inl hi, fun _ _ => .inl rfl⟩

theorem AfterRounds.round {done : List VaultImportChange} (h : AfterRounds env s x done) {d : Draws}
    (hd : d.Fresh 2 x.usedIds) {r : Except Exn VaultImportChange}
    (happly : applyChange rt inMemoryRetention tenantId env.privacy files d change x = (r, y)) :
    AfterRounds env s y (done ++ [change]) := by
  obtain ⟨hreachable, hkept⟩ := applyChange_reachable rt tenantId files h.reachable hd change
  have hround := applyChange_outcome rt tenantId env.privacy files x d change
  rw [happly] at hreachable hkept hround
  dsimp only at hreachable hkept hround
  have hmem : ∀ c ∈ done, c ∈ done ++ [change] := fun c hc => List.mem_append_left _ hc
  have hlast : change ∈ done ++ [change] := List.mem_append_right _ (List.mem_singleton.mpr rfl)
  refine ⟨hreachable, fun i hi => hkept i (h.kept i hi), ?_, ?_⟩
  · have hold : ∀ i ∈ x.items.rows, i ∈ s.items.rows ∨
        ∃ c ∈ done ++ [change], ∃ itemId, c.itemId = some itemId ∧
          i.supersedesId = some itemId := by
      intro i hi
      obtain hs | ⟨c, hc, hrest⟩ := h.revises i hi
      · exact .inl hs
      · exact .inr ⟨c, hmem c hc, hrest⟩
    cases hround with
    | kept | raised | conflict | replayed => exact hold
    | committed itemId command current item event c _ ready _ _ _ _ _ appended =>
      intro i hi
      have hitems : y.items = x.items.put item := appended ▸
        (publish_putItem_writes (s := x) item (replacementKey command item) event).items
      rw [hitems] at hi
      obtain rfl | ⟨hi, -⟩ := Table.mem_put.mp hi
      · obtain ⟨-, -, hparent, -⟩ := RetentionService.prepareReplacement_eq_ok ready.prepared
        rw [(Ledger.get_eq_some.mp ready.found).2.1] at hparent
        exact .inr ⟨change, hlast, itemId, ready.named, hparent⟩
      · exact hold i hi
  · have hold : ∀ u key, x.replayed u key = s.replayed u key ∨
        ∃ c ∈ done ++ [change], ∃ w r, key = scopeIdempotencyKey w (some (importKey c.path r)) := by
      intro u key
      obtain hs | ⟨c, hc, hrest⟩ := h.keys u key
      · exact .inl hs
      · exact .inr ⟨c, hmem c hc, hrest⟩
    cases hround with
    | kept | raised | conflict | replayed => exact hold
    | committed itemId command current item event c _ ready _ _ _ _ _ appended =>
      intro u key
      obtain ⟨expectedRevision, -, -, hkey⟩ := ready.key_eq
      by_cases hsame : key = replacementKey command item
      · exact .inr ⟨change, hlast, _, _, hsame.trans hkey⟩
      · have hunchanged : y.replayed u key = x.replayed u key := by
          have hwrites := publish_putItem_writes (s := x) item (replacementKey command item) event
          rw [← appended] at hwrites
          exact replayed_of_writes hwrites hsame u
        rw [hunchanged]
        exact hold u key

/-- What is found in a store is found there after rounds that kept its items. -/
theorem PlannedFrom.found_after {done : List VaultImportChange} {itemId : UUID}
    {expectedRevision : ℤ} {current : MemoryItem}
    (h : PlannedFrom tenantId s change itemId expectedRevision current)
    (hx : AfterRounds env s x done) : x.get tenantId itemId = some current := by
  obtain ⟨hmem, hid, htenant⟩ := Ledger.get_eq_some.mp h.found
  exact Ledger.get_eq_some.mpr ⟨hx.kept current hmem, hid, htenant⟩

/-- Rounds for other items do not replace this one. -/
theorem AfterRounds.unreplaced_iff {done : List VaultImportChange} (hx : AfterRounds env s x done)
    {current : MemoryItem} (hother : ∀ c ∈ done, c.itemId ≠ some current.id) :
    x.toLedger.Unreplaced current ↔ s.toLedger.Unreplaced current := by
  constructor
  · exact fun h i hi => h i (hx.kept i hi)
  · intro h i hi hparent
    obtain hs | ⟨c, hc, itemId, hnamed, hrevises⟩ := hx.revises i hi
    · exact h i hs hparent
    · apply hother c hc
      rw [hnamed, ← hrevises]
      exact hparent

/-- Rounds for other paths do not use this key. -/
theorem AfterRounds.replayed_eq {done : List VaultImportChange} (hx : AfterRounds env s x done)
    {path : String} (hother : ∀ c ∈ done, c.path ≠ path) (u w : UUID) (expectedRevision : ℤ) :
    x.replayed u (scopeIdempotencyKey w (some (importKey path expectedRevision))) =
      s.replayed u (scopeIdempotencyKey w (some (importKey path expectedRevision))) := by
  obtain hsame | ⟨c, hc, w', r, hkey⟩ := hx.keys u
    (scopeIdempotencyKey w (some (importKey path expectedRevision)))
  · exact hsame
  · exact absurd (importKey_path (scopeIdempotencyKey_inj hkey)).symm (hother c hc)

/-- A round that returns does what was planned exactly if its replacement was foreseen. -/
theorem RoundOutcome.action_iff {done : List VaultImportChange} {d : Draws} {c : VaultImportChange}
    (h : RoundOutcome rt tenantId env.privacy files x d change (.ok c) y)
    (hx : AfterRounds env s x done) (hpath : ∀ c ∈ done, c.path ≠ change.path)
    (hid : ∀ c ∈ done, ∀ itemId, change.itemId = some itemId → c.itemId ≠ some itemId)
    (hplanned : change.action = .supersede → ∃ itemId expectedRevision current,
      PlannedFrom tenantId s change itemId expectedRevision current) :
    c.action = change.action ↔ (change.action = .supersede → Foreseen tenantId s change) := by
  -- a planned replacement is ready for the item and the key that were planned
  have hready : ∀ {itemId command current item event},
      ReadyChange rt tenantId env.privacy files x d change itemId command current item event →
      (Foreseen tenantId s change ↔ IsCurrent x.toLedger current command.expectedRevision ∨
        (x.replayed item.tenantId (replacementKey command item)).isSome) := by
    intro itemId command current item event ready
    obtain ⟨itemId', r, current', planned⟩ := hplanned ready.action
    obtain rfl : itemId' = itemId := by
      have hnamed := planned.named
      rw [ready.named, Option.some.injEq] at hnamed
      exact hnamed.symm
    obtain rfl : current' = current := by
      have hfound := planned.found_after hx
      rw [ready.found, Option.some.injEq] at hfound
      exact hfound.symm
    obtain ⟨r', hexpected, htenant, hkey⟩ := ready.key_eq
    obtain rfl : r' = r := by
      rw [planned.expected, Option.some.injEq] at hexpected
      exact hexpected.symm
    obtain ⟨r'', hexpected', hcommand⟩ := ready.built
    rw [hexpected, Option.some.injEq] at hexpected'
    subst hexpected'
    obtain ⟨hmem, hcurrentId, -⟩ := Ledger.get_eq_some.mp ready.found
    have hrevision := importCommand_revision hcommand
    have hchain := hx.reachable.consistent.chained
    have hunnamed : ∀ c ∈ done, c.itemId ≠ some current'.id :=
      fun c hc => hcurrentId ▸ hid c hc _ planned.named
    rw [hchain.isCurrent_iff hmem, hx.unreplaced_iff hunnamed, htenant, hkey,
      hx.replayed_eq hpath]
    have hsame : current'.revision = command.expectedRevision := by
      have := planned.revision
      omega
    constructor
    · intro hforeseen
      exact (hforeseen itemId' r' current' planned).imp (fun hu => ⟨hu, hsame⟩) id
    · rintro hcases itemId₂ r₂ current₂ planned₂
      have hnamed := planned₂.named
      rw [planned.named, Option.some.injEq] at hnamed
      subst hnamed
      have hfound := planned₂.found
      rw [planned.found, Option.some.injEq] at hfound
      subst hfound
      have hexpected₂ := planned₂.expected
      rw [planned.expected, Option.some.injEq] at hexpected₂
      subst hexpected₂
      exact hcases.imp And.left id
  cases h with
  | kept unplanned =>
    refine iff_of_true rfl fun hsup => ?_
    obtain ⟨itemId, r, current, planned⟩ := hplanned hsup
    rw [hsup, planned.named, planned.expected] at unplanned
    simp at unplanned
  | conflict itemId command current item event c ready unused stale action =>
    rw [action, ready.action]
    refine iff_of_false (by decide) fun hall => ?_
    obtain hcurrent | hused := (hready ready).mp (hall rfl)
    · exact stale hcurrent
    · rw [unused] at hused
      cases hused
  | replayed itemId command current item event e i c ready entry _ action =>
    rw [action, ready.action]
    exact iff_of_true rfl fun _ => (hready ready).mpr (.inr (by rw [entry]; rfl))
  | committed itemId command current item event c _ ready _ current_eq action =>
    rw [action, ready.action]
    exact iff_of_true rfl fun _ => (hready ready).mpr (.inl current_eq)

/-- The same for all rounds, from a store that earlier rounds have left. -/
theorem applyChanges_actions_iff {d : ℕ → Draws} {n : ℕ} {done changes as : List VaultImportChange}
    {z : InMemoryMemoryStore} (hx : AfterRounds env s x done)
    (hd : FreshRounds rt env tenantId files d n changes x)
    (hpaths : ((done ++ changes).map fun c => c.path).Nodup)
    (hids : ((done ++ changes).filterMap fun c => c.itemId).Nodup)
    (hplanned : ∀ c ∈ changes, c.action = .supersede → ∃ itemId expectedRevision current,
      PlannedFrom tenantId s c itemId expectedRevision current)
    (happly : applyChanges rt inMemoryRetention tenantId env.privacy files d n changes x =
      (.ok as, z)) :
    (as.map fun c => c.action) = (changes.map fun c => c.action) ↔
      ∀ c ∈ changes, c.action = .supersede → Foreseen tenantId s c := by
  induction changes generalizing n x as done with
  | nil =>
    cases happly
    simp
  | cons change rest ih =>
    obtain ⟨a, y, others, hround, hothers, rfl⟩ := applyChanges_cons_ok happly
    obtain ⟨hfresh, hrest⟩ := hd
    rw [hround] at hrest
    have hsplit : done ++ change :: rest = (done ++ [change]) ++ rest := by simp
    have hpath : ∀ c ∈ done, c.path ≠ change.path := by
      rw [List.map_append, List.map_cons, List.nodup_append] at hpaths
      intro c hc
      exact hpaths.2.2 _ (List.mem_map.mpr ⟨c, hc, rfl⟩) _ (List.mem_cons_self ..)
    have hid : ∀ c ∈ done, ∀ itemId, change.itemId = some itemId → c.itemId ≠ some itemId := by
      intro c hc itemId hnamed heq
      rw [List.filterMap_append, List.nodup_append] at hids
      exact hids.2.2 itemId (List.mem_filterMap.mpr ⟨c, hc, heq⟩) itemId
        (List.mem_filterMap.mpr ⟨change, List.mem_cons_self .., hnamed⟩) rfl
    have houtcome := applyChange_outcome rt tenantId env.privacy files x (d n) change
    rw [hround] at houtcome
    have hfirst := houtcome.action_iff hx hpath hid (hplanned change (List.mem_cons_self ..))
    have hlater := ih (hx.round hfresh hround) hrest (hsplit ▸ hpaths) (hsplit ▸ hids)
      (fun c hc => hplanned c (List.mem_cons_of_mem _ hc)) hothers
    rw [List.map_cons, List.map_cons, List.cons.injEq, hfirst, hlater, List.forall_mem_cons]

end Plans

/-- An import that returns does what its dry run reported exactly if every planned replacement was
foreseen. -/
theorem dry_run_predicts_iff (rt : NoteRuntime) (env : Deployment) (tenantId workspaceId : UUID)
    (files : List VaultImportSource) (d : ℕ → Draws) (s t : InMemoryMemoryStore)
    (result : VaultImportResult) (hs : Reachable env s)
    (hd : FreshRounds rt env tenantId files d 0
      (planImport rt inMemoryRetention tenantId workspaceId s files).changes s)
    (hpaths : (files.map fun file => file.path).Nodup)
    (hids : ((planImport rt inMemoryRetention tenantId workspaceId s files).changes.filterMap
      fun c => c.itemId).Nodup)
    (h : applyImport rt inMemoryRetention tenantId workspaceId (some env.privacy) files d s =
      (.ok result, t)) :
    (result.changes.map fun c => c.action) =
        ((planImport rt inMemoryRetention tenantId workspaceId s files).changes.map
          fun c => c.action) ↔
      ∀ c ∈ (planImport rt inMemoryRetention tenantId workspaceId s files).changes,
        c.action = .supersede → Foreseen tenantId s c := by
  have hloop : applyChanges rt inMemoryRetention tenantId env.privacy files d 0
      (planImport rt inMemoryRetention tenantId workspaceId s files).changes s =
        (.ok result.changes, t) := by
    simp only [applyImport] at h
    rcases happly : applyChanges rt inMemoryRetention tenantId env.privacy files d 0
      (planImport rt inMemoryRetention tenantId workspaceId s files).changes s with ⟨r, z⟩
    rw [happly] at h
    cases r <;> cases h
    rfl
  refine applyChanges_actions_iff (.start hs) hd ?_ hids ?_ hloop
  · rw [List.nil_append, planImport, List.map_map]
    have hsame : (fun c : VaultImportChange => c.path) ∘
        planFileImport rt inMemoryRetention tenantId workspaceId s = fun file => file.path :=
      funext fun file => planFileImport_path file
    rw [hsame]
    exact hpaths
  · intro c hc hsup
    obtain ⟨file, -, hfile⟩ := List.mem_map.mp hc
    exact planFileImport_planned hfile hsup

/-- The store of memory 10 after an import of another note has replaced it. -/
def storeOfTenReplaced : InMemoryMemoryStore :=
  (applyImport asciiNotes inMemoryRetention (UUID.ofNat 1) (UUID.ofNat 2)
    (some (plainDeployment (UUID.ofNat 0)).privacy) [noteOf "q" "" "c"] roundDraws storeOfTen).2

theorem storeOfTenReplaced_reachable :
    Reachable (plainDeployment (UUID.ofNat 0)) storeOfTenReplaced :=
  storeOfTen_reachable.applyImport ⟨by decide +kernel, trivial⟩

/-- The import of a note of the first revision of memory 10. -/
def staleImport (s : InMemoryMemoryStore) : Except Exn VaultImportResult × InMemoryMemoryStore :=
  applyImport asciiNotes inMemoryRetention (UUID.ofNat 1) (UUID.ofNat 2)
    (some (plainDeployment (UUID.ofNat 0)).privacy) [noteOf "p" "" "b"]
    (fun n => drawsFrom (30 + n)) s

/-- Its dry run. -/
def stalePlan (s : InMemoryMemoryStore) : VaultImportResult :=
  planImport asciiNotes inMemoryRetention (UUID.ofNat 1) (UUID.ofNat 2) s [noteOf "p" "" "b"]

theorem staleImport_run :
    ((staleImport storeOfTenReplaced).1.map fun r => r.changes.map fun c => c.action) =
        .ok [.conflict] ∧
      ((stalePlan storeOfTenReplaced).changes.map fun c => c.action) = [.supersede] := by
  decide +kernel

/-- The note has the revision of the item that it names, so its dry run plans a replacement; the
item has been replaced, so the import reports a conflict. -/
theorem dry_run_misses_conflict :
    Reachable (plainDeployment (UUID.ofNat 0)) storeOfTenReplaced ∧
      ∃ result, (staleImport storeOfTenReplaced).1 = .ok result ∧
        (result.changes.map fun c => c.action) ≠
          (stalePlan storeOfTenReplaced).changes.map fun c => c.action := by
  obtain ⟨hactions, hplanned⟩ := staleImport_run
  refine ⟨storeOfTenReplaced_reachable, ?_⟩
  rw [hplanned]
  cases hresult : (staleImport storeOfTenReplaced).1 with
  | error e =>
    rw [hresult] at hactions
    cases hactions
  | ok result =>
    rw [hresult, Except.map, Except.ok.injEq] at hactions
    refine ⟨result, rfl, ?_⟩
    rw [hactions]
    decide

/-- A note that is no memory, and the note that replaced memory 10. -/
def retriedBatch : List VaultImportSource := [noteOf "n" "type: plan" "a", noteOf "q" "" "c"]

/-- The import of the batch after memory 10 was replaced. -/
def retriedImport : Except Exn VaultImportResult × InMemoryMemoryStore :=
  applyImport asciiNotes inMemoryRetention (UUID.ofNat 1) (UUID.ofNat 2)
    (some (plainDeployment (UUID.ofNat 0)).privacy) retriedBatch (fun n => drawsFrom (30 + 2 * n))
    storeOfTenReplaced

/-- The import returns under fresh draws; its dry run plans one replacement, the key of which was
used before. -/
theorem retriedImport_run :
    (planImport asciiNotes inMemoryRetention (UUID.ofNat 1) (UUID.ofNat 2) storeOfTenReplaced
      retriedBatch).changes =
        [⟨"n", .skip, none, none, none, "only memory notes are imported"⟩,
          ⟨"q", .supersede, some (UUID.ofNat 10), some 1, none, "memory text changed"⟩] ∧
      (∀ current ∈ storeOfTenReplaced.get (UUID.ofNat 1) (UUID.ofNat 10),
        (storeOfTenReplaced.replayed (UUID.ofNat 1) (scopeIdempotencyKey current.workspaceId
          (some (importKey "q" 1)))).isSome = true) ∧
      retriedImport.1.isOk = true ∧
      FreshRounds asciiNotes (plainDeployment (UUID.ofNat 0)) (UUID.ofNat 1) retriedBatch
        (fun n => drawsFrom (30 + 2 * n)) 0
        (planImport asciiNotes inMemoryRetention (UUID.ofNat 1) (UUID.ofNat 2) storeOfTenReplaced
          retriedBatch).changes storeOfTenReplaced := by
  decide +kernel

/-- The replacement is foreseen because its key was used, so the dry run and the import agree. -/
theorem dry_run_predicts_at_retry : ∃ result, retriedImport = (.ok result, retriedImport.2) ∧
    (result.changes.map fun c => c.action) = [.skip, .supersede] ∧
    (result.changes.map fun c => c.action) =
      (planImport asciiNotes inMemoryRetention (UUID.ofNat 1) (UUID.ofNat 2) storeOfTenReplaced
        retriedBatch).changes.map fun c => c.action := by
  obtain ⟨hplan, hkey, hok, hfresh⟩ := retriedImport_run
  cases hresult : retriedImport.1 with
  | error e =>
    rw [hresult] at hok
    cases hok
  | ok result =>
    have hrun : retriedImport = (.ok result, retriedImport.2) := Prod.ext hresult rfl
    have hsame := (dry_run_predicts_iff asciiNotes (plainDeployment (UUID.ofNat 0)) (UUID.ofNat 1)
      (UUID.ofNat 2) retriedBatch (fun n => drawsFrom (30 + 2 * n)) storeOfTenReplaced _ result
      storeOfTenReplaced_reachable hfresh (by decide) (by rw [hplan]; decide) hrun).mpr <| by
        rw [hplan]
        intro c hc hsup itemId expectedRevision current hplanned
        rcases List.mem_cons.mp hc with rfl | hc
        · cases hsup
        · obtain rfl := List.mem_singleton.mp hc
          obtain rfl := Option.some.inj hplanned.named
          obtain rfl := Option.some.inj hplanned.expected
          exact .inr (hkey current hplanned.found)
    refine ⟨result, hrun, ?_, hsame⟩
    rw [hsame, hplan]
    rfl

end MemoryPlane
