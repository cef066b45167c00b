import Mathlib.Logic.Equiv.Nat
import MemoryPlane.Lib.Proc
import MemoryPlane.Scripts.AuditRetention

/-!
# Audit retention under concurrent appends

The export and the pruning select events by one cutoff at different times. An event that is
appended in between is pruned without having been exported, unless the export still comes to its
place in the order of the pages or the pruning stops before it.
-/

namespace MemoryPlane

namespace RetentionPlan

variable (plan : RetentionPlan)

/-- The run selects the event for pruning. -/
def Expires (event : AuditEvent) : Prop :=
  event.tenantId = plan.tenantId ∧ event.createdAt < plan.cutoff ∧
    plan.workspaceId.all (fun w => event.workspaceId = some w) = true

/-- The export still comes to the place of the event. -/
def unread (x : RetentionRun) (event : AuditEvent) : Bool :=
  match x.phase with
  | .exporting createdBefore beforeEventId =>
    printedBefore event.createdAt event.id createdBefore beforeEventId
  | _ => false

/-- The batches that the run may still prune. -/
def batchesLeft (x : RetentionRun) : ℕ :=
  match x.phase with
  | .exporting .. => if plan.apply then (max 1 plan.maxDeleteBatches).toNat else 0
  | .exported =>
    if plan.apply && x.bundle.length ≠ 0 then (max 1 plan.maxDeleteBatches).toNat else 0
  | .pruning batches => batches
  | .ended => 0

/-- The rows that are pruned before the event. -/
def olderThan (x : RetentionRun) (event : AuditEvent) : ℕ :=
  (x.table.expired plan.tenantId plan.cutoff plan.workspaceId).countP fun e =>
    auditKey e < auditKey event

/-- The event is in the bundle, or will be, or the run ends before it prunes it. -/
def Spared (x : RetentionRun) (event : AuditEvent) : Prop :=
  unread x event = true ∨ plan.batchesLeft x * plan.pageLimit.toNat ≤ plan.olderThan x event

/-- The action is not the late append of an event that the run will prune. -/
def Timely (x : RetentionRun) : RetentionAction → Prop
  | .append event _ _ =>
    x.table.rows.find event.id = none → plan.Expires event → plan.Spared x event
  | _ => True

/-- All actions of a run are timely. -/
def TimelyRun : List RetentionAction → RetentionRun → Prop
  | [], _ => True
  | action :: rest, x => plan.Timely x action ∧ ∀ y, plan.step x action = some y → TimelyRun rest y

/-- What holds throughout a run: the rows that it may come to prune are in the bundle, and so are
those that it pruned. -/
structure Covered (x : RetentionRun) : Prop where
  pending : ∀ event ∈ x.table.rows.rows, plan.Expires event →
    event ∈ x.bundle ∨ plan.Spared x event
  pruned : ∀ event ∈ x.deleted, event ∈ x.bundle

variable {plan} {x y : RetentionRun} {event : AuditEvent}

theorem pageLimit_pos : 1 ≤ plan.pageLimit := by
  unfold pageLimit
  omega

variable (plan) in
/-- The service and the store leave the page size of the export as it is. -/
theorem listEvents_eq (t : AuditTable) (q : AuditFilter) (createdBefore : Option DateTime)
    (beforeEventId : Option UUID) :
    t.listEvents plan.tenantId q createdBefore beforeEventId plan.pageLimit =
      (sortedByDesc auditKey (t.listed plan.tenantId q createdBefore beforeEventId)).take
        plan.pageLimit.toNat := by
  have hclamp : max 1 (min (AuditTable.serviceLimit plan.pageLimit) 501) = plan.pageLimit := by
    unfold AuditTable.serviceLimit pageLimit
    omega
  rw [AuditTable.listEvents, AuditTable.listAuditEvents, hclamp]

/-- A row of the tenant is pruned only if the run selects it and few rows are older. -/
theorem mem_pruneEvents (hmem : event ∈ (x.table.pruneEvents plan.tenantId plan.cutoff
      plan.workspaceId plan.batchSize).1) :
    event ∈ x.table.rows.rows ∧ plan.Expires event ∧
      plan.olderThan x event < plan.pageLimit.toNat := by
  have hclamp : max 1 (min (AuditTable.serviceLimit plan.batchSize) 500) = plan.pageLimit := by
    unfold AuditTable.serviceLimit pageLimit
    omega
  simp only [AuditTable.pruneEvents, AuditTable.pruneAuditEvents, AuditTable.doomed, hclamp,
    List.mem_filter, Bool.and_eq_true, decide_eq_true_eq, List.mem_map] at hmem
  obtain ⟨hrow, ⟨oldest, holdest, hid⟩, htenant⟩ := hmem
  have hexpired := (mem_sortedBy ..).mp (List.mem_of_mem_take holdest)
  obtain ⟨holdrow, hselected⟩ := List.mem_filter.mp hexpired
  obtain rfl : oldest = event := x.table.rows.eq_of_key_eq holdrow hrow hid
  simp only [Bool.and_eq_true, decide_eq_true_eq] at hselected
  exact ⟨hrow, ⟨htenant, hselected.1.2, hselected.2⟩, Paging.countP_lt_of_mem_take holdest⟩

/-- An append leaves more rows that are older, never fewer. -/
theorem olderThan_append (appended : AuditEvent) :
    plan.olderThan x event ≤
      plan.olderThan { x with table := x.table.appendAuditEvent appended } event := by
  unfold olderThan AuditTable.appendAuditEvent Table.setDefault
  split
  · exact le_refl _
  · rename_i hnew
    rw [Option.not_isSome_iff_eq_none] at hnew
    simp only [AuditTable.expired, Table.rows_put_of_fresh hnew, List.filter_append,
      List.countP_append]
    exact Nat.le_add_right _ _

theorem Covered.append (h : plan.Covered x) {appended : AuditEvent} {now : DateTime}
    {past : appended.createdAt ≤ now} (htimely : plan.Timely x (.append appended now past)) :
    plan.Covered { x with table := x.table.appendAuditEvent appended } := by
  refine ⟨fun event hmem hexpires => ?_, h.pruned⟩
  have hspared : plan.Spared x event →
      plan.Spared { x with table := x.table.appendAuditEvent appended } event :=
    Or.imp_right fun hlate => hlate.trans (olderThan_append appended)
  obtain hold | ⟨rfl, hnew⟩ := Table.mem_setDefault.mp hmem
  · exact (h.pending event hold hexpires).imp_right hspared
  · exact .inr (hspared (htimely hnew hexpires))

/-- The run never comes to prune more than it could at first. -/
theorem Covered.of_phase (h : plan.Covered x) (htable : y.table = x.table)
    (hdeleted : y.deleted = x.deleted) (hbundle : ∀ event ∈ x.bundle, event ∈ y.bundle)
    (hbatches : plan.batchesLeft y ≤ plan.batchesLeft x)
    (hread : ∀ event ∈ x.table.rows.rows, plan.Expires event → unread x event = true →
      event ∈ y.bundle ∨ unread y event = true) : plan.Covered y := by
  constructor
  · rw [htable]
    intro event hmem hexpires
    obtain hin | hunread | hlate := h.pending event hmem hexpires
    · exact .inl (hbundle event hin)
    · exact (hread event hmem hexpires hunread).imp_right .inl
    · refine .inr (.inr ((Nat.mul_le_mul_right _ hbatches).trans ?_))
      unfold olderThan at hlate ⊢
      rw [htable]
      exact hlate
  · rw [hdeleted]
    exact fun event hmem => hbundle event (h.pruned event hmem)

/-- The listing of a page holds every selected row that the export has still to come to. -/
theorem mem_listed {createdBefore : Option DateTime} {beforeEventId : Option UUID}
    (hphase : x.phase = .exporting createdBefore beforeEventId)
    (hmem : event ∈ x.table.rows.rows) (hexpires : plan.Expires event)
    (hunread : unread x event = true) :
    event ∈ x.table.listed plan.tenantId plan.filter createdBefore beforeEventId := by
  obtain ⟨htenant, -, hworkspace⟩ := hexpires
  rw [unread, hphase] at hunread
  refine List.mem_filter.mpr ⟨hmem, ?_⟩
  simp [AuditTable.sees, AuditFilter.admits, RetentionPlan.filter, htenant, hunread]
  simpa using hworkspace

variable (plan x) in
/-- A short page ends the export; behind a full one it goes on. -/
theorem readPage_phase (createdBefore : Option DateTime) (beforeEventId : Option UUID) :
    let page := x.table.listEvents plan.tenantId plan.filter createdBefore beforeEventId
      plan.pageLimit
    ((page.length : ℤ) < plan.pageLimit ∧
        (plan.readPage x createdBefore beforeEventId).phase = .exported) ∨
      ∃ last, page.getLast? = some last ∧ (plan.readPage x createdBefore beforeEventId).phase =
        .exporting (some last.createdAt) (some last.id) := by
  intro page
  have hpositive : 1 ≤ plan.pageLimit := pageLimit_pos
  by_cases hshort : (page.length : ℤ) < plan.pageLimit
  · exact .inl ⟨hshort, if_pos hshort⟩
  · right
    obtain ⟨last, hlast⟩ : ∃ last, page.getLast? = some last := by
      apply Option.ne_none_iff_exists'.mp
      rw [ne_eq, List.getLast?_eq_none_iff]
      intro hempty
      rw [hempty, List.length_nil] at hshort
      omega
    refine ⟨last, hlast, ?_⟩
    unfold RetentionPlan.readPage
    exact (if_neg hshort).trans (by rw [hlast])

/-- A page shows every row that the export had still to come to, or the export comes to the row
later. -/
theorem Covered.readPage (h : plan.Covered x) {createdBefore : Option DateTime}
    {beforeEventId : Option UUID} (hphase : x.phase = .exporting createdBefore beforeEventId) :
    plan.Covered (plan.readPage x createdBefore beforeEventId) := by
  have hlisted := listEvents_eq plan x.table plan.filter createdBefore beforeEventId
  have hcases := readPage_phase plan x createdBefore beforeEventId
  rw [hlisted] at hcases
  refine h.of_phase rfl rfl (fun _ hin => List.mem_append_left _ hin) ?_ ?_
  · obtain ⟨-, hnext⟩ | ⟨last, -, hnext⟩ := hcases
    · simp only [batchesLeft, hphase, hnext]
      cases plan.apply
      · simp
      · split
        · exact le_refl _
        · exact Nat.zero_le _
    · simp only [batchesLeft, hphase, hnext, le_refl]
  · intro event hmem hexpires hunread
    have hin := mem_listed hphase hmem hexpires hunread
    have hshown : ∀ e ∈ (sortedByDesc auditKey (x.table.listed plan.tenantId plan.filter
        createdBefore beforeEventId)).take plan.pageLimit.toNat,
        e ∈ (plan.readPage x createdBefore beforeEventId).bundle := by
      rw [← hlisted]
      exact fun e he => List.mem_append_right _ he
    obtain ⟨hshort, -⟩ | ⟨last, hlast, hnext⟩ := hcases
    · left
      apply hshown
      rw [List.length_take] at hshort
      rw [List.take_of_length_le (by omega)]
      exact (mem_sortedByDesc ..).mpr hin
    · have hkeys : ∀ a ∈ x.table.listed plan.tenantId plan.filter createdBefore beforeEventId,
          ∀ b ∈ x.table.listed plan.tenantId plan.filter createdBefore beforeEventId,
            auditKey a = auditKey b → a = b := by
        intro a ha b hb heq
        have hid : a.id = b.id := congrArg (fun k => (ofLex k).2) heq
        exact x.table.rows.eq_of_key_eq (List.mem_filter.mp ha).1 (List.mem_filter.mp hb).1 hid
      obtain htake | hlater := Paging.mem_take_desc_or_lt hkeys hlast hin
      · exact .inl (hshown event htake)
      · right
        have hcursor : printedBefore event.createdAt event.id (some last.createdAt)
            (some last.id) = decide (auditKey event < auditKey last) :=
          @printedBefore_iff event.createdAt event.id (some (auditKey last))
        rw [unread, hnext]
        exact hcursor.trans (decide_eq_true hlater)

theorem Covered.verify (h : plan.Covered x) (hphase : x.phase = .exported) (ok : Bool) :
    plan.Covered { x with
      phase :=
        if ok && plan.apply && x.bundle.length ≠ 0 then
          .pruning (max 1 plan.maxDeleteBatches).toNat
        else .ended } := by
  refine h.of_phase rfl rfl (fun _ hin => hin) ?_ ?_
  · simp only [batchesLeft, hphase]
    by_cases hprunes : (ok && plan.apply && decide (x.bundle.length ≠ 0)) = true
    · rw [if_pos hprunes]
      rw [Bool.and_assoc, Bool.and_eq_true] at hprunes
      rw [if_pos hprunes.2]
    · rw [if_neg hprunes]
      exact Nat.zero_le _
  · intro event _ _ hunread
    rw [unread, hphase] at hunread
    cases hunread

theorem Covered.fail (h : plan.Covered x) : plan.Covered { x with phase := .ended } := by
  refine ⟨fun event hmem hexpires => .inr (.inr ?_), h.pruned⟩
  simp [batchesLeft]

/-- The rows that a batch deletes. -/
def gone (plan : RetentionPlan) (x : RetentionRun) (event : AuditEvent) : Bool :=
  decide (event.id ∈ x.table.doomed plan.tenantId plan.cutoff plan.workspaceId
    (AuditTable.serviceLimit plan.batchSize)) && event.tenantId = plan.tenantId

variable (plan x) in
/-- A batch deletes at most so many of the selected rows. -/
theorem length_filter_gone_le :
    ((x.table.expired plan.tenantId plan.cutoff plan.workspaceId).filter (gone plan x)).length ≤
      plan.pageLimit.toNat := by
  have hclamp : max 1 (min (AuditTable.serviceLimit plan.batchSize) 500) = plan.pageLimit := by
    unfold AuditTable.serviceLimit pageLimit
    omega
  have hdoomed : (x.table.doomed plan.tenantId plan.cutoff plan.workspaceId
      (AuditTable.serviceLimit plan.batchSize)).length ≤ plan.pageLimit.toNat := by
    rw [AuditTable.doomed, hclamp, List.length_map]
    exact List.length_take_le _ _
  have hrows : ((x.table.expired plan.tenantId plan.cutoff plan.workspaceId).filter
      (gone plan x)).Sublist x.table.rows.rows :=
    List.filter_sublist.trans List.filter_sublist
  have hnodup := x.table.rows.nodup.sublist (hrows.map fun event => event.id)
  have hlength := List.Subperm.length_le <| List.subperm_of_subset hnodup <|
    show _ ⊆ x.table.doomed plan.tenantId plan.cutoff plan.workspaceId
      (AuditTable.serviceLimit plan.batchSize) by
    intro id hid
    obtain ⟨event, hevent, rfl⟩ := List.mem_map.mp hid
    have hgone := (List.mem_filter.mp hevent).2
    rw [gone, Bool.and_eq_true] at hgone
    exact of_decide_eq_true hgone.1
  rw [List.length_map] at hlength
  exact hlength.trans hdoomed

variable (plan x event) in
/-- A batch takes at most so many of the rows that are pruned before an event. -/
theorem olderThan_le_pruneBatch (batches : ℕ) :
    plan.olderThan x event ≤
      plan.olderThan (plan.pruneBatch x batches) event + plan.pageLimit.toNat := by
  have hexpired : (plan.pruneBatch x batches).table.expired plan.tenantId plan.cutoff
      plan.workspaceId = (x.table.expired plan.tenantId plan.cutoff plan.workspaceId).filter
        fun e => !gone plan x e := by
    exact List.filter_comm ..
  have hlength := length_filter_gone_le plan x
  have hcount := List.countP_le_length (p := fun e => decide (auditKey e < auditKey event))
    (l := (x.table.expired plan.tenantId plan.cutoff plan.workspaceId).filter (gone plan x))
  unfold olderThan
  rw [hexpired, List.countP_eq_countP_filter_add _ _ (gone plan x)]
  omega

/-- A batch deletes exported rows only. -/
theorem Covered.pruneBatch (h : plan.Covered x) {batches : ℕ}
    (hphase : x.phase = .pruning (batches + 1)) : plan.Covered (plan.pruneBatch x batches) := by
  have hpending : ∀ event ∈ x.table.rows.rows, plan.Expires event →
      event ∈ x.bundle ∨ (batches + 1) * plan.pageLimit.toNat ≤ plan.olderThan x event := by
    intro event hmem hexpires
    have hspared := h.pending event hmem hexpires
    simpa [Spared, unread, batchesLeft, hphase] using hspared
  have hbatches : plan.batchesLeft (plan.pruneBatch x batches) ≤ batches := by
    have hnext : (plan.pruneBatch x batches).phase = .ended ∨
        (plan.pruneBatch x batches).phase = .pruning batches := ite_eq_or_eq _ _ _
    obtain hnext | hnext := hnext
    · simp only [batchesLeft, hnext, Nat.zero_le]
    · simp only [batchesLeft, hnext, le_refl]
  constructor
  · intro event hmem hexpires
    obtain hin | hlate := hpending event (List.mem_filter.mp hmem).1 hexpires
    · exact .inl hin
    · have hless := olderThan_le_pruneBatch plan x event batches
      have hleft := Nat.mul_le_mul_right plan.pageLimit.toNat hbatches
      rw [Nat.add_mul, Nat.one_mul] at hlate
      refine .inr (.inr ?_)
      omega
  · intro event hmem
    obtain hold | hnew := List.mem_append.mp hmem
    · exact h.pruned event hold
    · obtain ⟨hrow, hexpires, hfew⟩ := mem_pruneEvents hnew
      obtain hin | hlate := hpending event hrow hexpires
      · exact hin
      · rw [Nat.add_mul, Nat.one_mul] at hlate
        omega

/-- Every timely action keeps the invariant. -/
theorem Covered.step (h : plan.Covered x) {action : RetentionAction}
    (htimely : plan.Timely x action) (hstep : plan.step x action = some y) : plan.Covered y := by
  cases action with
  | append event now past =>
    cases hstep
    exact h.append htimely
  | page =>
    simp only [RetentionPlan.step] at hstep
    split at hstep
    · cases hstep
      exact h.readPage ‹_›
    · cases hstep
  | verify ok =>
    simp only [RetentionPlan.step] at hstep
    split at hstep
    · cases hstep
      exact h.verify ‹_› ok
    · cases hstep
  | prune =>
    simp only [RetentionPlan.step] at hstep
    split at hstep
    · cases hstep
      exact h.pruneBatch ‹_›
    · cases hstep
  | fail =>
    cases hstep
    exact h.fail

/-- So does every timely run. -/
theorem Covered.run (h : plan.Covered x) {actions : List RetentionAction}
    (htimely : plan.TimelyRun actions x) (hrun : plan.run actions x = some y) :
    plan.Covered y := by
  induction actions generalizing x with
  | nil =>
    cases hrun
    exact h
  | cons action rest ih =>
    obtain ⟨hfirst, hrest⟩ := htimely
    obtain ⟨z, hstep, hrun⟩ := Option.bind_eq_some_iff.mp hrun
    exact ih (h.step hfirst hstep) (hrest z hstep) hrun

/-- The export starts before every row that the run selects. -/
theorem Covered.start (hplan : plan.createdBefore = some plan.cutoff) (table : AuditTable) :
    plan.Covered (plan.start table) := by
  refine ⟨fun event _ hexpires => .inr (.inl ?_), fun event hmem => by cases hmem⟩
  simp [unread, RetentionPlan.start, printedBefore, hplan, hexpires.2.1]

end RetentionPlan

/-- The export reads the cutoff that the script printed. -/
theorem AuditRetention.plan_createdBefore {iso : IsoFormat} {args : RetentionArgs} {now : DateTime}
    {plan : RetentionPlan} (h : AuditRetention.plan iso args now = .ok plan) :
    plan.createdBefore = some plan.cutoff := by
  unfold AuditRetention.plan at h
  obtain ⟨_, -, h⟩ := Except.bind_eq_ok.mp h
  obtain ⟨moment, -, h⟩ := Except.bind_eq_ok.mp h
  obtain ⟨createdBefore, hparsed, h⟩ := Except.bind_eq_ok.mp h
  cases h
  rw [parseDatetime, if_neg (iso.format_nonempty moment), iso.parse_format] at hparsed
  cases hparsed
  rfl

/-- For every audit table, cutoff and batch size and every interleaving of appends with the
statements of a run: if no append is a late one, every event that the run deletes is in the bundle
that it exported. -/
theorem audit_pruning_exported (iso : IsoFormat) (args : RetentionArgs) (now : DateTime)
    (plan : RetentionPlan) (hplan : AuditRetention.plan iso args now = .ok plan)
    (table : AuditTable) (actions : List RetentionAction) (x : RetentionRun)
    (hrun : plan.run actions (plan.start table) = some x)
    (htimely : plan.TimelyRun actions (plan.start table)) :
    ∀ event ∈ x.deleted, event ∈ x.bundle :=
  ((RetentionPlan.Covered.start (AuditRetention.plan_createdBefore hplan) table).run htimely
    hrun).pruned

/-- The start of the year 2026. -/
def newYear : DateTime := .ofMicros 1767225600000000

/-- Moments by number. -/
def momentNumber (t : DateTime) : ℕ := Equiv.intEquivNat t

def numberedMoment (n : ℕ) : DateTime := Equiv.intEquivNat.symm n

theorem numberedMoment_momentNumber (t : DateTime) : numberedMoment (momentNumber t) = t :=
  Equiv.symm_apply_apply Equiv.intEquivNat t

/-- The text of the new year, and texts for the other moments that differ in length. -/
def unaryIso : IsoFormat where
  format t :=
    if t = newYear then "2026-01-01T00:00:00+00:00"
    else String.ofList (List.replicate (momentNumber t + 1) 'x')
  parse text :=
    .ok (if text = "2026-01-01T00:00:00+00:00" then newYear
      else numberedMoment (text.toList.length - 1))
  parse_format t := by
    by_cases ht : t = newYear
    · simp [ht]
    · have hne : String.ofList (List.replicate (momentNumber t + 1) 'x') ≠
          "2026-01-01T00:00:00+00:00" := by
        intro heq
        have hmem : '2' ∈ (String.ofList (List.replicate (momentNumber t + 1) 'x')).toList := by
          rw [heq]
          decide
        rw [String.toList_ofList, List.mem_replicate] at hmem
        exact absurd hmem.2 (by decide)
      rw [if_neg ht, if_neg hne, String.toList_ofList, List.length_replicate, Nat.add_sub_cancel,
        numberedMoment_momentNumber]
  format_nonempty t := by
    by_cases ht : t = newYear
    · simp [ht]
    · rw [if_neg ht]
      intro heq
      have hlength := congrArg (fun text : String => text.toList.length) heq
      simp [List.length_replicate] at hlength

/-- An applied run up to the new year. -/
def newYearArgs : RetentionArgs where
  databaseUrl := some "postgresql://operator@db/memory"
  tenantId := .ofNat 1
  workspaceId := .ofNat 2
  cutoff := some "2026-01-01T00:00:00+00:00"
  signingKey := some "key"
  apply := true

/-- Its plan. -/
def newYearPlan : RetentionPlan where
  tenantId := .ofNat 1
  workspaceId := some (.ofNat 2)
  cutoff := newYear
  createdBefore := some newYear
  batchSize := 500
  maxDeleteBatches := 100
  apply := true

theorem plan_newYearArgs (now : DateTime) :
    AuditRetention.plan unaryIso newYearArgs now = .ok newYearPlan := by rfl

/-- An audit event of that workspace, created at the start of 2025. -/
def firstRecall : AuditEvent where
  tenantId := .ofNat 1
  workspaceId := some (.ofNat 2)
  action := "memory.recall"
  actor := "agent"
  actorType := "agent"
  resourceType := "memory"
  resourceId := none
  status := "succeeded"
  metadata := []
  id := .ofNat 0
  createdAt := .ofMicros 1735689600000000
  valid := by decide

/-- A further event, so many microseconds later. -/
def yearEvent (n : ℕ) : AuditEvent :=
  { firstRecall with
    id := .ofNat n, createdAt := .ofMicros (1735689600000000 + n), valid := firstRecall.valid }

/-- A table with the first event, read by a role that is subject to its policy. -/
def yearTable : AuditTable := ⟨Table.empty.put (yearEvent 1), true⟩

/-- The export reads the only page; then the second event is appended, as soon as it is created;
the bundle passes its verification and a batch is pruned. -/
def lateActions : List RetentionAction :=
  [.page, .append (yearEvent 2) (yearEvent 2).createdAt (le_refl _), .verify true, .prune]

/-- The cutoff lies in the future, so the event that the system appends after the export is pruned
although it was never exported. -/
theorem audit_pruning_loses_event :
    AuditRetention.plan unaryIso newYearArgs (yearEvent 1).createdAt = .ok newYearPlan ∧
      ∃ x, newYearPlan.run lateActions (newYearPlan.start yearTable) = some x ∧
        ¬ ∀ event ∈ x.deleted, event ∈ x.bundle := by
  refine ⟨plan_newYearArgs _, ?_⟩
  have hrun : (newYearPlan.run lateActions (newYearPlan.start yearTable)).any
      (fun x => x.deleted.any fun event => !x.bundle.contains event) = true := by decide +kernel
  rw [Option.any_eq_true] at hrun
  obtain ⟨x, hx, hlost⟩ := hrun
  refine ⟨x, hx, fun hall => ?_⟩
  obtain ⟨event, hmem, hout⟩ := List.any_eq_true.mp hlost
  have hin := hall event hmem
  simp [hin] at hout

/-- An event that is created after the cutoff. -/
def laterRecall : AuditEvent :=
  { firstRecall with id := .ofNat 3, createdAt := newYear, valid := firstRecall.valid }

/-- The same run where that event is appended. -/
def timelyActions : List RetentionAction :=
  [.page, .append laterRecall newYear (le_refl _), .verify true, .prune]

theorem timelyRun_timelyActions :
    newYearPlan.TimelyRun timelyActions (newYearPlan.start yearTable) :=
  ⟨trivial, fun _ _ => ⟨fun _ hexpires => absurd hexpires.2.1 (lt_irrefl _),
    fun _ _ => ⟨trivial, fun _ _ => ⟨trivial, fun _ _ => trivial⟩⟩⟩⟩

theorem audit_pruning_exported_at_new_year :
    ∃ x, newYearPlan.run timelyActions (newYearPlan.start yearTable) = some x ∧
      ∀ event ∈ x.deleted, event ∈ x.bundle := by
  obtain ⟨x, hx⟩ := Option.isSome_iff_exists.mp (show
    (newYearPlan.run timelyActions (newYearPlan.start yearTable)).isSome = true by decide +kernel)
  exact ⟨x, hx, audit_pruning_exported unaryIso newYearArgs newYear newYearPlan
    (plan_newYearArgs _) yearTable timelyActions x hx timelyRun_timelyActions⟩

end MemoryPlane
