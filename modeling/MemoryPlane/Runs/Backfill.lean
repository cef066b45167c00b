import MemoryPlane.Runs.Operations
import MemoryPlane.Scripts.BackfillProtectedSearchTokens

/-!
# Backfill runs

What a complete report says. A run indexes exactly the rows behind the cursor of the state file, so
its report is right exactly when the rows before that cursor carried its marker already. They do as
long as every run that saves the cursor uses one key and every row that is appended before the
cursor is indexed by its writer under that key.
-/

namespace MemoryPlane

open Backfill

namespace Backfill

section Coverage

variable {δ : Type} [LinearOrder δ] (u : Unicode) (hmac : String → List Char → δ)
  (tenantId workspaceId : UUID)

/-- Every row of the workspace carries the marker of a key. -/
def AllMarked (k : ProtectedKey) (x : ProtectedTables δ) : Prop :=
  ∀ r ∈ scopeRows tenantId workspaceId x, markerToken hmac k r.item ∈ x.tokens

/-- Every row of the workspace at or before the cursor of the state file carries the marker of a
key. -/
def MarkedBefore (k : ProtectedKey) (w : BackfillWorld δ) : Prop :=
  ∀ r ∈ scopeRows tenantId workspaceId w.toProtectedTables,
    Paging.behind rowKey w.state r = false → markerToken hmac k r.item ∈ w.tokens

/-- Every run that saves the cursor uses one key, and every row that is appended at or before the
cursor is indexed under it. -/
def Steady (k : ProtectedKey) : BackfillWorld δ → List Event → Prop
  | _, [] => True
  | w, event :: rest =>
    (match event with
      | .append row writer => inScope tenantId workspaceId row = true →
          writer = some k ∨ Paging.behind rowKey w.state row = true
      | .run o _ => o.dryRun = true ∨ o.key = some k
      | .interrupted _ _ => True) ∧
    Steady k (step u hmac tenantId workspaceId w event) rest

variable {u hmac tenantId workspaceId} {k : ProtectedKey} {x : ProtectedTables δ}
  {w w' : BackfillWorld δ} {o : BackfillOptions} {now : DateTime} {report : BackfillReport}

omit [LinearOrder δ] in
/-- Rows of the workspace are told apart by their places. -/
theorem rowKey_inj : ∀ r ∈ scopeRows tenantId workspaceId x,
    ∀ r' ∈ scopeRows tenantId workspaceId x, rowKey r = rowKey r' → r = r' := by
  intro r hr r' hr' h
  have hid : r.item.id = r'.item.id := congrArg (fun p => (ofLex p).2) h
  exact x.rows.eq_of_key_eq (List.mem_of_mem_filter hr) (List.mem_of_mem_filter hr') hid

omit [LinearOrder δ] in
/-- A run is admitted under the key of its options. -/
theorem admitted_key {batchSize limit : ℕ} (h : admitted x o = .ok (k, batchSize, limit)) :
    o.key = some k ∧ 0 < batchSize := by
  unfold admitted at h
  split at h
  · cases h
  · rename_i k' hkey
    split at h
    · cases h
    · rename_i hsize
      split at h
      · cases h
        exact ⟨hkey, by omega⟩
      · split at h
        · cases h
        · cases h
          exact ⟨hkey, by omega⟩

/-- What a run that reports did. -/
theorem main_eq_ok (h : main u hmac tenantId workspaceId w o now = .ok (report, w')) :
    ∃ k batchSize limit, admitted w.toProtectedTables o = .ok (k, batchSize, limit) ∧
      report.keyVersion = k.version ∧
      report.complete = (scanRows tenantId workspaceId w.toProtectedTables batchSize limit
        w.state).complete ∧
      w'.toProtectedTables = indexRows u hmac k o.dryRun (scanRows tenantId workspaceId
        w.toProtectedTables batchSize limit w.state).visited w.toProtectedTables ∧
      w'.state = if o.dryRun then w.state else (scanRows tenantId workspaceId w.toProtectedTables
        batchSize limit w.state).cursor := by
  unfold main backfillWorkspace at h
  cases hadmitted : admitted w.toProtectedTables o with
  | error e =>
    rw [hadmitted] at h
    cases h
  | ok admitted =>
    obtain ⟨k, batchSize, limit⟩ := admitted
    rw [hadmitted] at h
    cases h
    exact ⟨k, batchSize, limit, rfl, rfl, rfl, rfl, rfl⟩

theorem rows_indexRows (k : ProtectedKey) (dryRun : Bool) (visited : List MemoryRow) :
    (indexRows u hmac k dryRun visited x).rows = x.rows := by
  unfold indexRows
  split <;> rfl

/-- No token is lost. -/
theorem mem_indexRows_of_mem {t : SearchToken δ} (ht : t ∈ x.tokens) (k : ProtectedKey)
    (dryRun : Bool) (visited : List MemoryRow) :
    t ∈ (indexRows u hmac k dryRun visited x).tokens := by
  unfold indexRows
  split
  · exact ht
  · exact mem_insertTokens.mpr (.inl ht)

/-- Every row that a run visits is marked. -/
theorem marked_of_visited {visited : List MemoryRow} {r : MemoryRow} (hr : r ∈ visited) :
    markerToken hmac k r.item ∈ (indexRows u hmac k false visited x).tokens :=
  mem_insertTokens.mpr (.inr (List.mem_flatMap.mpr ⟨r, hr, markerToken_mem_indexTokens k r.item⟩))

/-- A row that a run marks was marked before or is visited by it. -/
theorem marked_or_visited {visited : List MemoryRow} (hvisited : ∀ r' ∈ visited, r' ∈ x.rows.rows)
    {r : MemoryRow} (hr : r ∈ x.rows.rows)
    (h : markerToken hmac k r.item ∈ (indexRows u hmac k false visited x).tokens) :
    markerToken hmac k r.item ∈ x.tokens ∨ r ∈ visited := by
  obtain h | h := mem_insertTokens.mp h
  · exact .inl h
  · obtain ⟨r', hr', ht⟩ := List.mem_flatMap.mp h
    have hid : r.item.id = r'.item.id := memoryItemId_of_mem ht
    rw [x.rows.eq_of_key_eq hr (hvisited r' hr') hid]
    exact .inr hr'

/-- A complete report is right exactly when the rows before the cursor were marked. -/
theorem allMarked_iff (h : main u hmac tenantId workspaceId w o now = .ok (report, w'))
    (hkey : o.key = some k) (hdry : o.dryRun = false) (hcomplete : report.complete = true) :
    AllMarked hmac tenantId workspaceId k w'.toProtectedTables ↔
      MarkedBefore hmac tenantId workspaceId k w := by
  obtain ⟨k', batchSize, limit, hadmitted, -, hscan, htables, -⟩ := main_eq_ok h
  obtain ⟨hkey', hsize⟩ := admitted_key hadmitted
  obtain rfl : k = k' := by
    rw [hkey] at hkey'
    exact Option.some.inj hkey'
  rw [hcomplete] at hscan
  rw [hdry] at htables
  set visited := (scanRows tenantId workspaceId w.toProtectedTables batchSize limit w.state).visited
    with hvisited
  have hscope : scopeRows tenantId workspaceId w'.toProtectedTables =
      scopeRows tenantId workspaceId w.toProtectedTables := by
    rw [scopeRows, scopeRows, htables, rows_indexRows]
  have hmem : ∀ r ∈ visited, r ∈ scopeRows tenantId workspaceId w.toProtectedTables ∧
      Paging.behind rowKey w.state r = true := fun r hr => Paging.mem_visited hr
  unfold AllMarked MarkedBefore
  rw [hscope]
  constructor
  · intro hall r hr hbefore
    have hmarked := hall r hr
    rw [htables] at hmarked
    obtain hmarked | hr' := marked_or_visited
      (fun r' hr' => List.mem_of_mem_filter (hmem r' hr').1) (List.mem_of_mem_filter hr) hmarked
    · exact hmarked
    · rw [(hmem r hr').2] at hbefore
      cases hbefore
  · intro hbefore r hr
    rw [htables]
    cases hbehind : Paging.behind rowKey w.state r with
    | true =>
      apply marked_of_visited
      exact Paging.visited_of_complete rowKey_inj hsize hscan.symm hr hbehind
    | false => exact mem_indexRows_of_mem (hbefore r hr hbehind) k false visited

/-- A run under the key marks what it moves the cursor over. -/
theorem markedBefore_main (h : main u hmac tenantId workspaceId w o now = .ok (report, w'))
    (hkey : o.dryRun = true ∨ o.key = some k) (hw : MarkedBefore hmac tenantId workspaceId k w) :
    MarkedBefore hmac tenantId workspaceId k w' := by
  obtain ⟨k', batchSize, limit, hadmitted, -, -, htables, hstate⟩ := main_eq_ok h
  have hkey' := (admitted_key hadmitted).1
  have hscope : scopeRows tenantId workspaceId w'.toProtectedTables =
      scopeRows tenantId workspaceId w.toProtectedTables := by
    rw [scopeRows, scopeRows, htables, rows_indexRows]
  intro r hr hbefore
  rw [hscope] at hr
  rw [htables]
  cases hdry : o.dryRun with
  | true =>
    rw [hdry, if_pos rfl] at hstate
    rw [hstate] at hbefore
    exact mem_indexRows_of_mem (hw r hr hbefore) ..
  | false =>
    rw [hdry, if_neg Bool.false_ne_true] at hstate
    rw [hdry, hkey'] at hkey
    obtain rfl : k' = k := by simpa using hkey
    rw [hstate] at hbefore
    cases hbehind : Paging.behind rowKey w.state r with
    | true =>
      obtain hvisited | hlater := Paging.mem_visited_or_behind rowKey_inj batchSize limit hr
        hbehind
      · exact marked_of_visited hvisited
      · rw [scanRows, hlater] at hbefore
        cases hbefore
    | false => exact mem_indexRows_of_mem (hw r hr hbehind) ..

/-- An interrupted run loses no mark. -/
theorem markedBefore_interrupt (batches : ℕ) (hw : MarkedBefore hmac tenantId workspaceId k w) :
    MarkedBefore hmac tenantId workspaceId k
      (interrupt u hmac tenantId workspaceId w o batches) := by
  unfold interrupt
  split
  · exact hw
  · intro r hr hbefore
    rw [scopeRows, rows_indexRows] at hr
    exact mem_indexRows_of_mem (hw r hr hbefore) ..

/-- A row that is appended before the cursor is marked by its writer. -/
theorem markedBefore_append {row : MemoryRow} {writer : Option ProtectedKey}
    (hrow : inScope tenantId workspaceId row = true →
      writer = some k ∨ Paging.behind rowKey w.state row = true)
    (hw : MarkedBefore hmac tenantId workspaceId k w) :
    MarkedBefore hmac tenantId workspaceId k
      ⟨appendRow u hmac row writer w.toProtectedTables, w.state⟩ := by
  unfold appendRow
  split
  · exact hw
  · rename_i hfresh
    intro r hr hbefore
    obtain ⟨hmem, hscope⟩ := List.mem_filter.mp hr
    apply mem_insertTokens.mpr
    rw [Table.rows_put_of_fresh hfresh, List.mem_append, List.mem_singleton] at hmem
    obtain hmem | rfl := hmem
    · exact .inl (hw r (List.mem_filter.mpr ⟨hmem, hscope⟩) hbefore)
    · obtain rfl | hbehind := hrow hscope
      · exact .inr (markerToken_mem_indexTokens k r.item)
      · rw [hbehind] at hbefore
        cases hbefore

/-- One steady event keeps the rows before the cursor marked. -/
theorem markedBefore_step {event : Event} {rest : List Event}
    (h : Steady u hmac tenantId workspaceId k w (event :: rest))
    (hw : MarkedBefore hmac tenantId workspaceId k w) :
    MarkedBefore hmac tenantId workspaceId k (step u hmac tenantId workspaceId w event) := by
  cases event with
  | append row writer => exact markedBefore_append h.1 hw
  | run o now =>
    rw [step]
    cases hmain : main u hmac tenantId workspaceId w o now with
    | error e => exact hw
    | ok r =>
      obtain ⟨report, w'⟩ := r
      exact markedBefore_main hmain h.1 hw
  | interrupted o batches => exact markedBefore_interrupt batches hw

/-- In a steady history the rows before the cursor are marked at all times. -/
theorem markedBefore_after {events : List Event} (h : Steady u hmac tenantId workspaceId k w events)
    (hw : MarkedBefore hmac tenantId workspaceId k w) :
    MarkedBefore hmac tenantId workspaceId k (after u hmac tenantId workspaceId w events) := by
  induction events generalizing w with
  | nil => exact hw
  | cons event rest ih => exact ih h.2 (markedBefore_step h hw)

end Coverage

end Backfill

section Reports

variable {δ : Type} [LinearOrder δ]

/-- For every keyed hash, every workspace, every content at the first run and every sequence of
appends, runs and interrupted runs: when a run that is not dry reports that it is complete, every
row that is not deleted carries the marker of the reported key version exactly when the rows at or
before the saved cursor carried it before the run. That is so in every history whose runs use one
key and whose rows are appended behind the cursor or indexed under that key. -/
theorem backfill_complete_iff (u : Unicode) (hmac : String → List Char → δ)
    (tenantId workspaceId : UUID) (x : ProtectedTables δ) (events : List Event)
    (o : BackfillOptions) (now : DateTime) (k : ProtectedKey) (report : BackfillReport)
    (w : BackfillWorld δ) (hkey : o.key = some k) (hdry : o.dryRun = false)
    (hrun : Backfill.main u hmac tenantId workspaceId
      (after u hmac tenantId workspaceId ⟨x, none⟩ events) o now = .ok (report, w))
    (hcomplete : report.complete = true) :
    report.keyVersion = k.version ∧
      (AllMarked hmac tenantId workspaceId k w.toProtectedTables ↔
        MarkedBefore hmac tenantId workspaceId k
          (after u hmac tenantId workspaceId ⟨x, none⟩ events)) ∧
      (Steady u hmac tenantId workspaceId k ⟨x, none⟩ events →
        AllMarked hmac tenantId workspaceId k w.toProtectedTables) := by
  have hiff := allMarked_iff hrun hkey hdry hcomplete
  refine ⟨?_, hiff, ?_⟩
  · obtain ⟨k', _, _, hadmitted, hversion, -⟩ := main_eq_ok hrun
    have hkey' := (admitted_key hadmitted).1
    rw [hkey] at hkey'
    rw [hversion, Option.some.inj hkey']
  · intro hsteady
    apply hiff.mpr
    apply markedBefore_after hsteady
    -- Without a cursor no row lies before it.
    intro r _ hbefore
    cases hbefore

/-- A run without a number of batches completes. -/
theorem backfill_completes (u : Unicode) (hmac : String → List Char → δ)
    (tenantId workspaceId : UUID) (w w' : BackfillWorld δ) (o : BackfillOptions) (now : DateTime)
    (report : BackfillReport) (hbatches : o.maxBatches = none)
    (hrun : Backfill.main u hmac tenantId workspaceId w o now = .ok (report, w')) :
    report.complete = true := by
  obtain ⟨k, batchSize, limit, hadmitted, -, hscan, -, -⟩ := main_eq_ok hrun
  have hlimit : limit = w.rows.rows.length + 1 := by
    unfold admitted at hadmitted
    rw [hbatches] at hadmitted
    split at hadmitted
    · cases hadmitted
    · split at hadmitted
      · cases hadmitted
      · cases hadmitted
        rfl
  rw [hscan, scanRows]
  apply Paging.complete_of_lt
  have hbehind := List.length_filter_le (Paging.behind rowKey w.state)
    (scopeRows tenantId workspaceId w.toProtectedTables)
  have hscope := List.length_filter_le (inScope tenantId workspaceId) w.rows.rows
  rw [scopeRows] at hbehind ⊢
  omega

/-- The keyed hash of the word `a` and of the marker under the keys `k1` and `k2`. -/
def twoKeys (key : String) (message : List Char) : ℕ :=
  if message = ['a'] then
    if key = "k1" then
      81660558864117347482432201675582274207637184696327099420260130031380560869074
    else 102761082928602629194896486889651145400870310532834445518410263002389465365759
  else
    if key = "k1" then
      83387607732231432119320957183099884337677517112346886876064422301266639891292
    else 26161832592962960840643456336997621056370426147181848789601933344777812569144

/-- The first key and the key that it is rotated to. -/
def firstKey : ProtectedKey := ⟨1, "k1", by decide, by decide⟩
def rotatedKey : ProtectedKey := ⟨2, "k2", by decide, by decide⟩

/-- A workspace with one memory that no index covers. -/
def oneMemory : ProtectedTables ℕ :=
  ⟨Table.empty.put ⟨⟨notedFields "a", by decide +kernel⟩, false⟩, []⟩

/-- A run of the first key over the workspace. -/
def firstRun : BackfillWorld ℕ :=
  step asciiUnicode twoKeys (UUID.ofNat 1) (UUID.ofNat 2) ⟨oneMemory, none⟩
    (.run { key := some firstKey } (.ofMicros 0))

/-- The run of a key that follows it on the same state file. -/
def secondRun (k : ProtectedKey) : Except Exn (BackfillReport × BackfillWorld ℕ) :=
  Backfill.main asciiUnicode twoKeys (UUID.ofNat 1) (UUID.ofNat 2) firstRun { key := some k }
    (.ofMicros 1)

instance (x : ProtectedTables ℕ) (k : ProtectedKey) :
    Decidable (AllMarked twoKeys (UUID.ofNat 1) (UUID.ofNat 2) k x) := by
  unfold AllMarked
  infer_instance

/-- Whether the run after the first one completes, and whether its key then marks every row. -/
def secondReport (k : ProtectedKey) : Except Exn (Bool × Bool) :=
  (secondRun k).map fun r => (r.1.complete,
    decide (AllMarked twoKeys (UUID.ofNat 1) (UUID.ofNat 2) k r.2.toProtectedTables))

theorem secondReport_rotated : secondReport rotatedKey = .ok (true, false) := by decide +kernel

/-- The report of a second run under the rotated key is complete although the row lacks its marker.
-/
theorem rotated_backfill_misses_row :
    ¬ ∀ report w, secondRun rotatedKey = .ok (report, w) → report.complete = true →
      AllMarked twoKeys (UUID.ofNat 1) (UUID.ofNat 2) rotatedKey w.toProtectedTables := by
  intro h
  have hrun := secondReport_rotated
  unfold secondReport at hrun
  cases hsecond : secondRun rotatedKey with
  | error e =>
    rw [hsecond] at hrun
    cases hrun
  | ok r =>
    rw [hsecond, Except.map, Except.ok.injEq, Prod.mk.injEq, decide_eq_false_iff_not] at hrun
    exact hrun.2 (h r.1 r.2 hsecond hrun.1)

/-- A run of the first key, and a row that is appended behind its cursor without an index. -/
def grownHistory : List Event :=
  [.run { key := some firstKey } (.ofMicros 0),
    .append ⟨⟨{ notedFields "a" with
      id := UUID.ofNat 11, createdAt := .ofMicros 1704067300000000 },
      by decide +kernel⟩, false⟩ none]

/-- The next run of that key. -/
def grownRun : Except Exn (BackfillReport × BackfillWorld ℕ) :=
  Backfill.main asciiUnicode twoKeys (UUID.ofNat 1) (UUID.ofNat 2)
    (after asciiUnicode twoKeys (UUID.ofNat 1) (UUID.ofNat 2) ⟨oneMemory, none⟩ grownHistory)
    { key := some firstKey } (.ofMicros 1)

/-- The history is steady, and the next run marks both rows. -/
theorem backfill_complete_after_append : ∃ report w, grownRun = .ok (report, w) ∧
    report.complete = true ∧ report.keyVersion = 1 ∧ w.rows.rows.length = 2 ∧
    AllMarked twoKeys (UUID.ofNat 1) (UUID.ofNat 2) firstKey
      (BackfillWorld.toProtectedTables w) := by
  have hreport : grownRun.map (fun r => (r.1.complete, r.2.rows.rows.length)) = .ok (true, 2) := by
    decide +kernel
  have hsteady : Steady asciiUnicode twoKeys (UUID.ofNat 1) (UUID.ofNat 2) firstKey
      ⟨oneMemory, none⟩ grownHistory :=
    ⟨.inr rfl, fun _ => .inr (by decide +kernel), trivial⟩
  obtain ⟨⟨report, w⟩, hrun, hpair⟩ := Except.map_eq_ok.mp hreport
  obtain ⟨hcomplete, hrows⟩ := Prod.mk.inj hpair
  obtain ⟨hversion, -, hmarked⟩ := backfill_complete_iff asciiUnicode twoKeys (UUID.ofNat 1)
    (UUID.ofNat 2) oneMemory grownHistory { key := some firstKey } (.ofMicros 1) firstKey report w
    rfl rfl hrun hcomplete
  exact ⟨report, w, hrun, hcomplete, hversion, hrows, hmarked hsteady⟩

end Reports

end MemoryPlane
