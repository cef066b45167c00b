import MemoryPlane.Runs.Replacements
import MemoryPlane.Runs.VaultPlans
import MemoryPlane.Services.VaultArchive

/-!
# Vault writes and workspaces

A note says to which workspace it belongs, and an import or an archive compares that with the
workspace of the call. The item that the note names is loaded by its identifier from the whole
tenant, and its replacement goes to the workspace of that item.
-/

namespace MemoryPlane

open VaultExporter InMemoryMemoryStore

section Scope

variable (tenantId workspaceId : UUID)

/-- The item belongs to the workspace. -/
def InWorkspace (i : MemoryItem) : Prop := i.tenantId = tenantId ∧ i.workspaceId = workspaceId

/-- The call wrote to the workspace only: it kept every item and appended items of the workspace,
no item of another workspace gained a child, and the recallable heads elsewhere are the same. -/
structure StaysIn (s t : InMemoryMemoryStore) : Prop where
  kept : ∀ i ∈ s.items.rows, i ∈ t.items.rows
  appended : ∀ i ∈ t.items.rows, i ∉ s.items.rows → InWorkspace tenantId workspaceId i
  children : ∀ p ∈ t.items.rows, ¬ InWorkspace tenantId workspaceId p →
    ∀ i ∈ t.items.rows, i.supersedesId = some p.id → i ∈ s.items.rows
  heads : ∀ i, ¬ InWorkspace tenantId workspaceId i →
    (i ∈ t.items.rows ∧ t.isRecallableHead i.tenantId i.id = true ↔
      i ∈ s.items.rows ∧ s.isRecallableHead i.tenantId i.id = true)

variable (rt : NoteRuntime) (env : Deployment) (s : InMemoryMemoryStore)

/-- The change names a stored item of another workspace of the tenant. -/
def Foreign (change : VaultImportChange) : Prop :=
  ∃ itemId current, change.itemId = some itemId ∧ s.get tenantId itemId = some current ∧
    current.workspaceId ≠ workspaceId

/-- The round does not raise: no replacement was planned, or it can be prepared. -/
def Admitted (files : List VaultImportSource) (d : Draws) (change : VaultImportChange) : Prop :=
  (change.action ≠ .supersede ∨ change.itemId = none ∨ change.expectedRevision = none) ∨
    ∃ itemId command current item event,
      ReadyChange rt tenantId env.privacy files s d change itemId command current item event

/-- Some round replaces an item of another workspace, and none before it raises. -/
def Leaves (files : List VaultImportSource) (d : ℕ → Draws) (n : ℕ) :
    List VaultImportChange → Prop
  | [] => False
  | change :: rest =>
    Foreign tenantId workspaceId s change ∧
        Commits rt tenantId env.privacy files s (d n) change ∨
      Admitted tenantId rt env s files (d n) change ∧ Leaves files d (n + 1) rest

/-- The note is archived although its item is of another workspace. -/
def LeavesByArchive (file : VaultImportSource) (d : Draws) : Prop :=
  ∃ change itemId expectedRevision command,
    planFileArchive rt inMemoryRetention tenantId workspaceId s file = .ok change ∧
      change.action = .archive ∧ change.itemId = some itemId ∧
      change.expectedRevision = some expectedRevision ∧
      archiveCommand rt tenantId file itemId expectedRevision = .ok command ∧
      Foreign tenantId workspaceId s change ∧ Appends env.privacy s d command

end Scope

section Frame

variable {rt : NoteRuntime} {env : Deployment} {tenantId workspaceId : UUID}
  {files : List VaultImportSource} {s t x y : InMemoryMemoryStore} {change : VaultImportChange}

/-- Between stores whose histories are well formed it is enough to look at the new items: a
revision stays in the workspace of its parent. -/
theorem staysIn_iff (hs : s.toLedger.Chained) (ht : t.toLedger.Chained)
    (hkept : ∀ i ∈ s.items.rows, i ∈ t.items.rows) :
    StaysIn tenantId workspaceId s t ↔
      ∀ i ∈ t.items.rows, i ∉ s.items.rows → InWorkspace tenantId workspaceId i := by
  constructor
  · exact StaysIn.appended
  · intro happended
    have hchildren : ∀ p ∈ t.items.rows, ¬ InWorkspace tenantId workspaceId p →
        ∀ i ∈ t.items.rows, i.supersedesId = some p.id → i ∈ s.items.rows := by
      intro p hp hout i hi hparent
      by_contra hnew
      obtain ⟨htenant, hworkspace⟩ := happended i hi hnew
      have hsame := (ht.child ⟨hp, hi, hparent⟩).2
      exact hout ⟨hsame.tenant.trans htenant, hsame.workspace.trans hworkspace⟩
    refine ⟨hkept, happended, hchildren, fun i hout => ?_⟩
    constructor
    · rintro ⟨hi, hhead⟩
      have hold : i ∈ s.items.rows := by
        by_contra hnew
        exact hout (happended i hi hnew)
      refine ⟨hold, ?_⟩
      rw [ht.isRecallableHead_iff hi] at hhead
      rw [hs.isRecallableHead_iff hold]
      exact ⟨hhead.1, fun c hc => hhead.2 c (hkept c hc)⟩
    · rintro ⟨hi, hhead⟩
      refine ⟨hkept i hi, ?_⟩
      rw [hs.isRecallableHead_iff hi] at hhead
      rw [ht.isRecallableHead_iff (hkept i hi)]
      refine ⟨hhead.1, fun c hc hparent => ?_⟩
      exact hhead.2 c (hchildren i (hkept i hi) hout c hc hparent) hparent

/-- What rounds in their own workspace leave of a store. -/
structure OwnRounds (env : Deployment) (tenantId workspaceId : UUID)
    (s x : InMemoryMemoryStore) : Prop where
  reachable : Reachable env x
  kept : ∀ i ∈ s.items.rows, i ∈ x.items.rows
  appended : ∀ i ∈ x.items.rows, i ∉ s.items.rows → InWorkspace tenantId workspaceId i
  keys : ∀ w, w ≠ workspaceId → ∀ u key,
    x.replayed u (scopeIdempotencyKey w key) = s.replayed u (scopeIdempotencyKey w key)

theorem OwnRounds.start (hs : Reachable env s) : OwnRounds env tenantId workspaceId s s :=
  ⟨hs, fun _ hi => hi, fun _ hi hnew => absurd hi hnew, fun _ _ _ _ => rfl⟩

/-- What is found in a store is found there after rounds that kept its items. -/
theorem OwnRounds.found (hx : OwnRounds env tenantId workspaceId s x) {u itemId : UUID}
    {current : MemoryItem} (h : s.get u itemId = some current) : x.get u itemId = some current := by
  obtain ⟨hmem, hid, htenant⟩ := Ledger.get_eq_some.mp h
  exact Ledger.get_eq_some.mpr ⟨hx.kept current hmem, hid, htenant⟩

/-- An item of another workspace is current afterwards exactly if it was before. -/
theorem OwnRounds.isCurrent_iff (hs : Reachable env s)
    (hx : OwnRounds env tenantId workspaceId s x) {current : MemoryItem}
    (hmem : current ∈ s.items.rows) (hforeign : current.workspaceId ≠ workspaceId) (n : ℕ) :
    IsCurrent x.toLedger current n ↔ IsCurrent s.toLedger current n := by
  have hchain := hx.reachable.consistent.chained
  rw [hchain.isCurrent_iff (hx.kept current hmem), hs.consistent.chained.isCurrent_iff hmem]
  refine and_congr_left fun _ => ⟨fun h i hi => h i (hx.kept i hi), fun h i hi hparent => ?_⟩
  by_cases hold : i ∈ s.items.rows
  · exact h i hold hparent
  · have hsame := (hchain.child ⟨hx.kept current hmem, hi, hparent⟩).2
    exact hforeign (hsame.workspace.trans (hx.appended i hi hold).2)

/-- A change is ready after such rounds exactly if it was before. -/
theorem OwnRounds.ready_iff (hx : OwnRounds env tenantId workspaceId s x) {itemId : UUID}
    {current : MemoryItem} (hnamed : change.itemId = some itemId)
    (hfound : s.get tenantId itemId = some current) {d : Draws} {itemId' : UUID}
    {command : SupersedeMemoryCommand} {current' item : MemoryItem} {event : IntegrationEvent} :
    ReadyChange rt tenantId env.privacy files x d change itemId' command current' item event ↔
      ReadyChange rt tenantId env.privacy files s d change itemId' command current' item event := by
  have hget : ∀ {i}, change.itemId = some i → x.get tenantId i = s.get tenantId i := by
    intro i hi
    rw [hnamed, Option.some.injEq] at hi
    rw [← hi, hfound, hx.found hfound]
  constructor
  · intro h
    exact ⟨h.action, h.named, h.built, hget h.named ▸ h.found, h.prepared⟩
  · intro h
    exact ⟨h.action, h.named, h.built, (hget h.named).trans h.found, h.prepared⟩

/-- A change to another workspace commits after such rounds exactly if it did before. -/
theorem OwnRounds.commits_iff (hs : Reachable env s) (hx : OwnRounds env tenantId workspaceId s x)
    (hforeign : Foreign tenantId workspaceId s change) {d : Draws} :
    Commits rt tenantId env.privacy files x d change ↔
      Commits rt tenantId env.privacy files s d change := by
  obtain ⟨itemId, foreign, hnamed, hfound, hout⟩ := hforeign
  have hsame : ∀ {itemId' command current item event},
      ReadyChange rt tenantId env.privacy files s d change itemId' command current item event →
        (x.replayed item.tenantId (replacementKey command item) = none ∧
            IsCurrent x.toLedger current command.expectedRevision ↔
          s.replayed item.tenantId (replacementKey command item) = none ∧
            IsCurrent s.toLedger current command.expectedRevision) := by
    intro itemId' command current item event ready
    obtain rfl : itemId = itemId' := by
      have hnamed' := ready.named
      rw [hnamed, Option.some.injEq] at hnamed'
      exact hnamed'
    obtain rfl : foreign = current := by
      have hfound' := ready.found
      rw [hfound, Option.some.injEq] at hfound'
      exact hfound'
    obtain ⟨-, -, -, -, -, hworkspace, -⟩ :=
      RetentionService.prepareReplacement_eq_ok ready.prepared
    rw [replacementKey, hx.keys _ (hworkspace ▸ hout),
      hx.isCurrent_iff hs (Ledger.get_eq_some.mp hfound).1 hout]
  constructor
  · rintro ⟨_, _, _, _, _, ready, hrest⟩
    have ready' := (hx.ready_iff hnamed hfound).mp ready
    exact ready'.commits_iff.mpr ((hsame ready').mp hrest)
  · rintro ⟨_, _, _, _, _, ready, hrest⟩
    exact ((hx.ready_iff hnamed hfound).mpr ready).commits_iff.mpr ((hsame ready).mpr hrest)

/-- A ready round of a reachable store commits or stays out. -/
theorem ReadyChange.commits_or_staysOut (hx : Reachable env x) {d : Draws} {itemId : UUID}
    {command : SupersedeMemoryCommand} {current item : MemoryItem} {event : IntegrationEvent}
    (h : ReadyChange rt tenantId env.privacy files x d change itemId command current item event) :
    Commits rt tenantId env.privacy files x d change ∨
      StaysOut rt tenantId env.privacy files x d change := by
  rw [h.commits_iff, h.staysOut_iff]
  cases hentry : x.replayed item.tenantId (replacementKey command item) with
  | some e =>
    rw [replayed, Option.bind_eq_some_iff] at hentry
    obtain ⟨k, -, hfind⟩ := hentry
    obtain ⟨i, hi, hid, -⟩ := hx.consistent.keyed e (Table.find_eq_some.mp hfind).1
    exact .inr (.inl ⟨e, i, rfl, hid ▸ Table.find_key hi⟩)
  | none =>
    by_cases hcurrent : IsCurrent x.toLedger current command.expectedRevision
    · exact .inl ⟨rfl, hcurrent⟩
    · exact .inr (.inr ⟨rfl, hcurrent⟩)

/-- A round that replaces an item of the workspace keeps to it. -/
theorem OwnRounds.committed (hx : OwnRounds env tenantId workspaceId s x) {d : Draws}
    {itemId : UUID} {command : SupersedeMemoryCommand} {current item : MemoryItem}
    {event : IntegrationEvent}
    (ready : ReadyChange rt tenantId env.privacy files x d change itemId command current item event)
    (hown : current.workspaceId = workspaceId) (hy : Reachable env y)
    (hkept : ∀ i ∈ x.items.rows, i ∈ y.items.rows)
    (happended : y = (x.putItem item (replacementKey command item)).publish event) :
    OwnRounds env tenantId workspaceId s y := by
  obtain ⟨-, -, -, -, htenant, hworkspace, -⟩ :=
    RetentionService.prepareReplacement_eq_ok ready.prepared
  have hwrites := publish_putItem_writes (s := x) item (replacementKey command item) event
  rw [← happended] at hwrites
  refine ⟨hy, fun i hi => hkept i (hx.kept i hi), ?_, ?_⟩
  · intro i hi hnew
    have hitems : y.items = x.items.put item := hwrites.items
    rw [hitems] at hi
    obtain rfl | ⟨hi, -⟩ := Table.mem_put.mp hi
    · exact ⟨htenant.trans (Ledger.get_eq_some.mp ready.found).2.2, hworkspace.trans hown⟩
    · exact hx.appended i hi hnew
  · intro w hw u key
    rw [← hx.keys w hw u key]
    cases key with
    | none => rfl
    | some k =>
      refine replayed_of_writes hwrites ?_ u
      intro hsame
      apply hw
      rw [scopeIdempotencyKey_workspace hsame, hworkspace, hown]

variable (rt tenantId files) in
/-- The loop keeps every item. -/
theorem applyChanges_keeps {d : ℕ → Draws} {n : ℕ} (changes : List VaultImportChange)
    (hx : Reachable env x) (hd : FreshRounds rt env tenantId files d n changes x) :
    let y := (applyChanges rt inMemoryRetention tenantId env.privacy files d n changes x).2
    ∀ i ∈ x.items.rows, i ∈ y.items.rows := by
  induction changes generalizing n x with
  | nil => exact fun _ hi => hi
  | cons change rest ih =>
    obtain ⟨hfresh, hrest⟩ := hd
    obtain ⟨hreachable, hkept⟩ := applyChange_reachable rt tenantId files hx hfresh change
    rcases happly : applyChange rt inMemoryRetention tenantId env.privacy files (d n) change x with
      ⟨r, y⟩
    rw [happly] at hreachable hkept hrest
    dsimp only at hreachable hkept hrest
    cases r with
    | error e =>
      rw [applyChanges_store_of_error happly]
      exact hkept
    | ok applied =>
      rw [applyChanges_store_of_ok happly]
      exact fun i hi => ih hreachable hrest i (hkept i hi)

/-- A planned replacement names an item that is stored when the import starts. -/
def NamesStored (tenantId : UUID) (s : InMemoryMemoryStore) (change : VaultImportChange) : Prop :=
  change.action = .supersede →
    ∃ itemId current, change.itemId = some itemId ∧ s.get tenantId itemId = some current

theorem OwnRounds.admitted_iff (hx : OwnRounds env tenantId workspaceId s x) {d : Draws}
    (hplanned : NamesStored tenantId s change) :
    Admitted tenantId rt env x files d change ↔ Admitted tenantId rt env s files d change := by
  refine or_congr_right ?_
  constructor
  · rintro ⟨_, _, _, _, _, ready⟩
    obtain ⟨itemId, current, hnamed, hfound⟩ := hplanned ready.action
    exact ⟨_, _, _, _, _, (hx.ready_iff hnamed hfound).mp ready⟩
  · rintro ⟨_, _, _, _, _, ready⟩
    obtain ⟨itemId, current, hnamed, hfound⟩ := hplanned ready.action
    exact ⟨_, _, _, _, _, (hx.ready_iff hnamed hfound).mpr ready⟩

/-- The loop appends items of the workspace only, exactly if no round leaves it. -/
theorem applyChanges_appended_iff (hs : Reachable env s) {d : ℕ → Draws} {n : ℕ}
    {changes : List VaultImportChange} (hx : OwnRounds env tenantId workspaceId s x)
    (hd : FreshRounds rt env tenantId files d n changes x)
    (hplanned : ∀ c ∈ changes, NamesStored tenantId s c) :
    (∀ i ∈ (applyChanges rt inMemoryRetention tenantId env.privacy files d n changes
        x).2.items.rows, i ∉ s.items.rows → InWorkspace tenantId workspaceId i) ↔
      ¬ Leaves tenantId workspaceId rt env s files d n changes := by
  induction changes generalizing n x with
  | nil => exact iff_of_true hx.appended not_false
  | cons change rest ih =>
    obtain ⟨hfresh, hrest⟩ := hd
    obtain ⟨hreachable, hkept⟩ := applyChange_reachable rt tenantId files hx.reachable hfresh change
    have hround := applyChange_outcome rt tenantId env.privacy files x (d n) change
    have hfirst := hplanned change (List.mem_cons_self ..)
    have hlater := fun c hc => hplanned c (List.mem_cons_of_mem change hc)
    have hcommits : Foreign tenantId workspaceId s change →
        (Commits rt tenantId env.privacy files x (d n) change ↔
          Commits rt tenantId env.privacy files s (d n) change) :=
      fun hforeign => hx.commits_iff hs hforeign
    rw [Leaves, ← hx.admitted_iff hfirst]
    rcases happly : applyChange rt inMemoryRetention tenantId env.privacy files (d n) change x with
      ⟨r, y⟩
    rw [happly] at hreachable hkept hrest hround
    dsimp only at hreachable hkept hrest hround
    cases r with
    | error e =>
      rw [applyChanges_store_of_error happly]
      cases hround with
      | raised _ writes out =>
        refine iff_of_true hx.appended ?_
        rintro (⟨hforeign, hleaves⟩ | ⟨hadmitted, -⟩)
        · exact writes ((hcommits hforeign).mpr hleaves)
        · obtain hunplanned | ⟨_, _, _, _, _, ready⟩ := hadmitted
          · exact out (.inl hunplanned)
          · exact (ready.commits_or_staysOut hx.reachable).elim writes out
    | ok applied =>
      rw [applyChanges_store_of_ok happly]
      have hadmitted : Admitted tenantId rt env x files (d n) change := by
        cases hround with
        | kept unplanned => exact .inl unplanned
        | conflict _ _ _ _ _ _ ready => exact .inr ⟨_, _, _, _, _, ready⟩
        | replayed _ _ _ _ _ _ _ _ ready => exact .inr ⟨_, _, _, _, _, ready⟩
        | committed _ _ _ _ _ _ _ ready => exact .inr ⟨_, _, _, _, _, ready⟩
      have hcases := hround.ok_cases
      cases hround with
      | kept | conflict | replayed =>
        rw [ih hx hrest hlater]
        refine not_congr ?_
        rw [and_iff_right hadmitted, or_iff_right]
        rintro ⟨hforeign, hleaves⟩
        obtain ⟨-, -, hstays⟩ | ⟨-, u, key, hunused, hused⟩ := hcases
        · exact hstays ((hcommits hforeign).mpr hleaves)
        · rw [hunused] at hused
          cases hused
      | committed itemId command current item event _ _ ready unused current_eq _ _ _ appended =>
        obtain ⟨_, origin, hnamed, horigin⟩ := hfirst ready.action
        have hbefore := (hx.ready_iff hnamed horigin).mp ready
        by_cases hown : current.workspaceId = workspaceId
        · rw [ih (hx.committed ready hown hreachable hkept appended) hrest hlater]
          refine not_congr ?_
          rw [and_iff_right hadmitted, or_iff_right]
          rintro ⟨⟨itemId', current', hnamed', hfound', hforeign⟩, -⟩
          rw [ready.named, Option.some.injEq] at hnamed'
          subst hnamed'
          rw [hbefore.found, Option.some.injEq] at hfound'
          subst hfound'
          exact hforeign hown
        · have hforeign : Foreign tenantId workspaceId s change :=
            ⟨itemId, current, ready.named, hbefore.found, hown⟩
          have hleaves := (hcommits hforeign).mp (ready.commits_iff.mpr ⟨unused, current_eq⟩)
          refine iff_of_false ?_ (not_not.mpr (.inl ⟨hforeign, hleaves⟩))
          intro happended
          obtain ⟨hid, -, -, -, -, hworkspace, -⟩ :=
            RetentionService.prepareReplacement_eq_ok ready.prepared
          -- the replacement has a new identifier and stays through the other rounds
          have hmem : item ∈ y.items.rows := by
            have hitems : y.items = x.items.put item := appended ▸
              (publish_putItem_writes (s := x) item (replacementKey command item) event).items
            rw [hitems]
            exact Table.mem_put.mpr (.inl rfl)
          have hnew : item ∉ s.items.rows := by
            intro hold
            refine hfresh.2 0 (by decide) ?_
            rw [← hid]
            exact List.mem_append_left _
              (List.mem_append_left _ (List.mem_map_of_mem (hx.kept item hold)))
          have hlast := applyChanges_keeps rt tenantId files rest hreachable hrest item hmem
          exact hown (hworkspace.symm.trans (happended item hlast hnew).2)

theorem StaysIn.refl (s : InMemoryMemoryStore) : StaysIn tenantId workspaceId s s :=
  ⟨fun _ hi => hi, fun _ hi hnew => absurd hi hnew, fun _ _ _ _ hi _ => hi, fun _ _ => .rfl⟩

/-- One call with a command keeps to the workspace unless it appends a replacement of an item of
another one. -/
theorem supersede_staysIn_iff (hs : Reachable env s) {d : Draws} (hd : d.Fresh 2 s.usedIds)
    {command : SupersedeMemoryCommand} (htenant : command.tenantId = tenantId)
    (hnamed : change.itemId = some command.itemId) :
    StaysIn tenantId workspaceId s
        ((RetentionService.supersede inMemoryRetention env.privacy command none d).run s).2 ↔
      ¬ (Foreign tenantId workspaceId s change ∧ Appends env.privacy s d command) := by
  have hrun : ((Operation.supersede command none).run env d s).2 =
      ((RetentionService.supersede inMemoryRetention env.privacy command none d).run s).2 := by
    simp only [Operation.run, Operation.program, MemoryOperation.program, inMemoryStores,
      Proc.run_wrap]
  have hreachable : Reachable env ((Operation.supersede command none).run env d s).2 :=
    .step _ d hs hd
  have hkept := Operation.keeps_items (.supersede command none) env hs.consistent.chained hd
  have houtcome := supersede_outcome env.privacy s d command
  rw [hrun] at hreachable hkept
  rw [staysIn_iff hs.consistent.chained hreachable.consistent.chained hkept]
  rcases hcall : (RetentionService.supersede inMemoryRetention env.privacy command none d).run s
    with ⟨r, t⟩
  dsimp only at houtcome
  rw [hcall] at houtcome
  cases houtcome with
  | raised e refused =>
    exact iff_of_true (fun i hi hnew => absurd hi hnew) fun h => refused h.2
  | replayed current item event e i ready entry =>
    refine iff_of_true (fun i hi hnew => absurd hi hnew) fun h => ?_
    rw [ready.appends_iff, entry] at h
    cases h.2.1
  | committed current item event _ ready unused current_eq appended =>
    obtain ⟨hid, -, -, -, hitenant, hworkspace, -⟩ :=
      RetentionService.prepareReplacement_eq_ok ready.prepared
    have hcurrent := ready.found
    rw [htenant] at hcurrent
    change t = _ at appended
    have hitems : t.items = s.items.put item := appended ▸
      (publish_putItem_writes (s := s) item (replacementKey command item) event).items
    rw [hitems]
    by_cases hown : current.workspaceId = workspaceId
    · refine iff_of_true (fun i hi hnew => ?_) fun h => ?_
      · obtain rfl | ⟨hi, -⟩ := Table.mem_put.mp hi
        · exact ⟨hitenant.trans (Ledger.get_eq_some.mp hcurrent).2.2, hworkspace.trans hown⟩
        · exact absurd hi hnew
      · obtain ⟨⟨itemId, foreign, hforeign, hfound, hout⟩, -⟩ := h
        rw [hnamed, Option.some.injEq] at hforeign
        subst hforeign
        rw [hcurrent, Option.some.injEq] at hfound
        subst hfound
        exact hout hown
    · refine iff_of_false (fun happended => ?_) (not_not.mpr ⟨?_, ?_⟩)
      · have hnew : item ∉ s.items.rows := by
          intro hold
          refine hd.2 0 (by decide) ?_
          rw [← hid]
          exact List.mem_append_left _ (List.mem_append_left _ (List.mem_map_of_mem hold))
        exact hown
          (hworkspace.symm.trans (happended item (Table.mem_put.mpr (.inl rfl)) hnew).2)
      · exact ⟨command.itemId, current, hnamed, hcurrent, hown⟩
      · exact ready.appends_iff.mpr ⟨unused, current_eq⟩

/-- An archive keeps to the workspace exactly if its note does not name an item of another one. -/
theorem archiveFile_staysIn_iff (rt : NoteRuntime) (workspaceId : UUID) (hs : Reachable env s)
    (file : VaultImportSource) {d : Draws} (hd : d.Fresh 2 s.usedIds) :
    StaysIn tenantId workspaceId s (archiveFile rt inMemoryRetention tenantId workspaceId
        (some env.privacy) file d s).2 ↔
      ¬ LeavesByArchive tenantId workspaceId rt env s file d := by
  cases hplan : planFileArchive rt inMemoryRetention tenantId workspaceId s file with
  | error e =>
    have hsame : (archiveFile rt inMemoryRetention tenantId workspaceId (some env.privacy) file d
        s).2 = s := by
      simp only [archiveFile, hplan]
    rw [hsame]
    refine iff_of_true (.refl s) ?_
    rintro ⟨_, _, _, _, hplanned, -⟩
    rw [hplan] at hplanned
    cases hplanned
  | ok change =>
    rw [archiveFile_store hplan]
    by_cases hcall : ∃ itemId expectedRevision command, change.action = .archive ∧
        change.itemId = some itemId ∧ change.expectedRevision = some expectedRevision ∧
        archiveCommand rt tenantId file itemId expectedRevision = .ok command
    · obtain ⟨itemId, expectedRevision, command, haction, hid, hexpected, hcommand⟩ := hcall
      obtain ⟨htenant, rfl⟩ := archiveCommand_eq_ok hcommand
      rw [applyArchive_store haction hid hexpected hcommand,
        supersede_staysIn_iff hs hd htenant hid]
      refine not_congr ⟨fun h => ⟨_, _, _, _, hplan, haction, hid, hexpected, hcommand, h⟩, ?_⟩
      rintro ⟨_, _, _, _, hplan', -, hid', hexpected', hcommand', h⟩
      rw [hplan, Except.ok.injEq] at hplan'
      subst hplan'
      rw [hid, Option.some.injEq] at hid'
      rw [hexpected, Option.some.injEq] at hexpected'
      subst hid' hexpected'
      rw [hcommand, Except.ok.injEq] at hcommand'
      subst hcommand'
      exact h
    · rw [applyArchive_store_of_none fun i r c ha hi hr hc => hcall ⟨i, r, c, ha, hi, hr, hc⟩]
      refine iff_of_true (.refl s) ?_
      rintro ⟨_, itemId, expectedRevision, command, hplan', haction, hid, hexpected, hcommand, -⟩
      rw [hplan, Except.ok.injEq] at hplan'
      subst hplan'
      exact hcall ⟨itemId, expectedRevision, command, haction, hid, hexpected, hcommand⟩

/-- An import keeps to the workspace exactly if no round before the first that raises replaces an
item of another one. -/
theorem applyImport_staysIn_iff (rt : NoteRuntime) (workspaceId : UUID) (hs : Reachable env s)
    (files : List VaultImportSource) {d : ℕ → Draws}
    (hd : FreshRounds rt env tenantId files d 0
      (planImport rt inMemoryRetention tenantId workspaceId s files).changes s) :
    StaysIn tenantId workspaceId s (applyImport rt inMemoryRetention tenantId workspaceId
        (some env.privacy) files d s).2 ↔
      ¬ Leaves tenantId workspaceId rt env s files d 0
        (planImport rt inMemoryRetention tenantId workspaceId s files).changes := by
  have hstore : (applyImport rt inMemoryRetention tenantId workspaceId (some env.privacy) files d
      s).2 = (applyChanges rt inMemoryRetention tenantId env.privacy files d 0
        (planImport rt inMemoryRetention tenantId workspaceId s files).changes s).2 := by
    simp only [applyImport]
    rcases applyChanges rt inMemoryRetention tenantId env.privacy files d 0
      (planImport rt inMemoryRetention tenantId workspaceId s files).changes s with ⟨r, y⟩
    cases r <;> rfl
  rw [hstore, staysIn_iff hs.consistent.chained
    (applyChanges_reachable _ hs hd).consistent.chained (applyChanges_keeps _ _ _ _ hs hd)]
  refine applyChanges_appended_iff hs (.start hs) hd ?_
  intro c hc hsup
  obtain ⟨file, -, hfile⟩ := List.mem_map.mp hc
  obtain ⟨itemId, _, current, planned⟩ := planFileImport_planned hfile hsup
  exact ⟨itemId, current, planned.named, planned.found⟩

end Frame

/-- For every reachable store, tenant, workspace and content of the files: an import and an archive
write to the workspace of the call only, exactly if no replacement that they append is one of an
item of another workspace of the tenant. -/
theorem vault_writes_stay_iff (rt : NoteRuntime) (env : Deployment) (tenantId workspaceId : UUID)
    (s : InMemoryMemoryStore) (hs : Reachable env s) :
    (∀ files d, FreshRounds rt env tenantId files d 0
        (planImport rt inMemoryRetention tenantId workspaceId s files).changes s →
      (StaysIn tenantId workspaceId s (applyImport rt inMemoryRetention tenantId workspaceId
          (some env.privacy) files d s).2 ↔
        ¬ Leaves tenantId workspaceId rt env s files d 0
          (planImport rt inMemoryRetention tenantId workspaceId s files).changes)) ∧
      ∀ file d, d.Fresh 2 s.usedIds →
        (StaysIn tenantId workspaceId s (archiveFile rt inMemoryRetention tenantId workspaceId
            (some env.privacy) file d s).2 ↔
          ¬ LeavesByArchive tenantId workspaceId rt env s file d) :=
  ⟨fun files _ hd => applyImport_staysIn_iff rt workspaceId hs files hd,
    fun file _ hd => archiveFile_staysIn_iff rt workspaceId hs file hd⟩

/-- A note that names memory 10 of workspace 2 and says that it belongs to workspace 3. -/
def forgedNote : VaultImportSource :=
  ⟨"p", Text.joinLines (["---", "id: mem-0000000000000000000000000000000a", "type: memory",
    "revision: 1", "tenant_id: \"00000000000000000000000000000001\"",
    "workspace_id: \"00000000000000000000000000000003\"", "---", "b"].map String.toList)⟩

/-- The import of the forged note for workspace 3. -/
def forgedImport : Except Exn VaultImportResult × InMemoryMemoryStore :=
  applyImport asciiNotes inMemoryRetention (UUID.ofNat 1) (UUID.ofNat 3)
    (some (plainDeployment (UUID.ofNat 0)).privacy) [forgedNote] roundDraws storeOfTen

/-- Memory 10 of workspace 2 gets a child from an import for workspace 3. -/
theorem import_enters_workspace :
    Reachable (plainDeployment (UUID.ofNat 0)) storeOfTen ∧
      ¬ StaysIn (UUID.ofNat 1) (UUID.ofNat 3) storeOfTen forgedImport.2 := by
  refine ⟨storeOfTen_reachable, fun h => ?_⟩
  have hnew : ∃ i ∈ forgedImport.2.items.rows, i ∉ storeOfTen.items.rows ∧
      i.workspaceId ≠ UUID.ofNat 3 := by decide +kernel
  obtain ⟨i, hi, hout, hworkspace⟩ := hnew
  exact hworkspace (h.appended i hi hout).2

/-- A call for the workspace of memory 10 names no item of another one: the forged note is refused,
the other one is imported or archived, and both calls stay in the workspace. -/
theorem vault_writes_stay_at_ten :
    StaysIn (UUID.ofNat 1) (UUID.ofNat 2) storeOfTen
        (applyImport asciiNotes inMemoryRetention (UUID.ofNat 1) (UUID.ofNat 2)
          (some (plainDeployment (UUID.ofNat 0)).privacy) [forgedNote, noteOf "q" "" "b"] roundDraws
          storeOfTen).2 ∧
      StaysIn (UUID.ofNat 1) (UUID.ofNat 2) storeOfTen
        (archiveFile asciiNotes inMemoryRetention (UUID.ofNat 1) (UUID.ofNat 2)
          (some (plainDeployment (UUID.ofNat 0)).privacy) (noteOf "q" "" "b") (drawsFrom 20)
          storeOfTen).2 := by
  obtain ⟨himport, harchive⟩ := vault_writes_stay_iff asciiNotes (plainDeployment (UUID.ofNat 0))
    (UUID.ofNat 1) (UUID.ofNat 2) storeOfTen storeOfTen_reachable
  have hworkspace : ∀ i ∈ storeOfTen.items.rows, i.workspaceId = UUID.ofNat 2 := by decide +kernel
  have hown : ∀ change, ¬ Foreign (UUID.ofNat 1) (UUID.ofNat 2) storeOfTen change := by
    rintro change ⟨itemId, current, -, hfound, hother⟩
    exact hother (hworkspace current (Ledger.get_eq_some.mp hfound).1)
  have hleaves : ∀ (changes : List VaultImportChange) (n : ℕ),
      ¬ Leaves (UUID.ofNat 1) (UUID.ofNat 2) asciiNotes (plainDeployment (UUID.ofNat 0)) storeOfTen
        [forgedNote, noteOf "q" "" "b"] roundDraws n changes := by
    intro changes
    induction changes with
    | nil => exact fun _ => not_false
    | cons change rest ih =>
      rintro n (⟨hforeign, -⟩ | ⟨-, hrest⟩)
      · exact hown change hforeign
      · exact ih (n + 1) hrest
  constructor
  · exact (himport [forgedNote, noteOf "q" "" "b"] roundDraws
      ⟨by decide +kernel, by decide +kernel, trivial⟩).mpr (hleaves _ 0)
  · refine (harchive (noteOf "q" "" "b") (drawsFrom 20) (by decide +kernel)).mpr ?_
    rintro ⟨change, _, _, _, -, -, -, -, -, hforeign, -⟩
    exact hown change hforeign

end MemoryPlane
