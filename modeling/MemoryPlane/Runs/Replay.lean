import MemoryPlane.Lib.Proc
import MemoryPlane.Services.Replay

/-!
# When a replay is returned

A total reader says what a replay should be for any metadata: what is malformed is dropped or
replaced by its fallback. The service agrees with it exactly as long as no value that it reads
raises: an infinity has no integer, and a container has no hash.
-/

namespace MemoryPlane

namespace Replay

variable (rt : ReplayRuntime)

/-- The integer that a value denotes; a finite float denotes what is left without its fraction. -/
def integerOf : JsonValue → Option ℤ
  | .int n => some n
  | .bool b => some b.toInt
  | .float (.finite q) => some (if 0 ≤ q then q.floor else -(-q).floor)
  | .str text => parseInt rt.unicode text.toList
  | _ => none

/-- The counter that a value denotes, between 0 and a million. -/
def count (value : JsonValue) : ℕ :=
  match integerOf rt value with
  | some n => min n.toNat 1000000
  | none => 0

/-- The first characters of a text. -/
def cut (length : ℕ) (text : String) : String := String.ofList (text.toList.take length)

/-- The short text that a value denotes. -/
def textOf (default : String) : JsonValue → String
  | .str text => cut 256 text
  | _ => default

/-- The short texts that a value denotes. -/
def textsOf : JsonValue → List String
  | .arr rows => (rows.take 32).map (textOf "unknown")
  | _ => []

/-- The identifier that a value denotes. -/
def idOf : JsonValue → Option UUID
  | .str text => UUID.parse rt.unicode text
  | value => UUID.parse rt.unicode (rt.str value)

/-- The identifiers that a value denotes. -/
def idsOf : JsonValue → List UUID
  | .arr rows => (rows.take 1000).filterMap (idOf rt)
  | _ => []

/-- The error class that a value denotes. -/
def errorOf : JsonValue → Option String
  | .str text => if text = "" then none else some (cut 128 text)
  | _ => none

/-- A text among the known ones. -/
def knownText (names : List String) : JsonValue → Option String
  | .str s => if s ∈ names then some s else none
  | _ => none

/-- The name of a step. -/
def stepName : JsonValue → Option String
  | .str s => if s = "" ∨ 64 < s.length then none else some s
  | _ => none

/-- A step with the counters of a row. -/
def countedStep (sequence : ℕ) (row : JsonMembers) (stage status name : String) :
    RetrievalTraceStep where
  sequence
  stage
  name
  status
  candidateCount := count rt (JsonValue.get row "candidate_count")
  acceptedCount := count rt (JsonValue.get row "accepted_count")
  selectedCount := count rt (JsonValue.get row "selected_count")
  errorType := errorOf (JsonValue.get row "error_type")

/-- The step that a row denotes; a malformed row denotes none. -/
def stepOf (sequence : ℕ) : JsonValue → Option RetrievalTraceStep
  | .obj row =>
    (knownText RetrievalTraceStep.stages (JsonValue.get row "stage")).bind fun stage =>
      (knownText RetrievalTraceStep.statuses (JsonValue.get row "status")).bind fun status =>
        (stepName (JsonValue.get row "name")).map fun name =>
          countedStep rt sequence row stage status name
  | _ => none

/-- The steps that a value denotes. -/
def traversalOf : JsonValue → List RetrievalTraceStep
  | .arr rows => ((rows.take 64).zipIdx 1).filterMap fun row => stepOf rt row.2 row.1
  | _ => []

/-- The delivery state that a value denotes. -/
def freshnessOf : JsonValue → Option IndexFreshness
  | .obj members => some
    { activeMemoryCount := count rt (JsonValue.get members "active_memory_count")
      staleMemoryCount := count rt (JsonValue.get members "stale_memory_count")
      unpublishedMemoryCount := count rt (JsonValue.get members "unpublished_memory_count")
      processingMemoryCount := count rt (JsonValue.get members "processing_memory_count")
      deadLetterMemoryCount := count rt (JsonValue.get members "dead_letter_memory_count")
      missingDeliveryMemoryCount :=
        count rt (JsonValue.get members "missing_delivery_memory_count") }
  | _ => none

/-- None of some members is an infinity. -/
def FiniteAt (members : JsonMembers) (names : List String) : Prop :=
  ∀ name ∈ names, (JsonValue.get members name).isInfinite = false

/-- The counters of a row. -/
def rowCounts : List String := ["candidate_count", "accepted_count", "selected_count"]

/-- The counters of the delivery state. -/
def freshnessCounts : List String :=
  ["active_memory_count", "stale_memory_count", "unpublished_memory_count",
    "processing_memory_count", "dead_letter_memory_count", "missing_delivery_memory_count"]

/-- The counters of the metadata. -/
def metadataCounts : List String :=
  ["query_chars", "candidate_count", "context_budget_tokens", "context_used_tokens"]

/-- No value of a row that is looked at raises: a field is looked at if the ones before it fit. -/
def RowReadable : JsonValue → Prop
  | .obj row =>
    (JsonValue.get row "stage").isContainer = false ∧
    ((knownText RetrievalTraceStep.stages (JsonValue.get row "stage")).isSome →
      (JsonValue.get row "status").isContainer = false ∧
      ((knownText RetrievalTraceStep.statuses (JsonValue.get row "status")).isSome →
        (stepName (JsonValue.get row "name")).isSome → FiniteAt row rowCounts))
  | _ => True

/-- No value of the metadata that is looked at raises. -/
structure Readable (metadata : JsonMembers) : Prop where
  counts : FiniteAt metadata metadataCounts
  freshness : ∀ members, JsonValue.get metadata "index_freshness" = .obj members →
    FiniteAt members freshnessCounts
  traversal : ∀ rows, JsonValue.get metadata "retrieval_traversal" = .arr rows →
    ∀ row ∈ rows.take 64, RowReadable row

section Coercions

variable {rt}

/-- Clamping is truncation to a natural number, then the upper limit. -/
theorem clampCount_eq (n : ℤ) : clampCount n = min n.toNat 1000000 := by
  rw [clampCount]
  omega

/-- No count in a replay exceeds its limit. -/
theorem count_le (value : JsonValue) : count rt value ≤ 1000000 := by
  rw [count]
  cases integerOf rt value with
  | none => exact Nat.zero_le _
  | some n => exact Nat.min_le_right _ _

/-- A value that has no integer counts as 0, unless it is an infinity. -/
theorem boundedInt_eq (value : JsonValue) :
    boundedInt rt value =
      if value.isInfinite then
        .error (.overflowError "cannot convert float infinity to integer")
      else .ok (count rt value) := by
  cases value with
  | str text =>
    rw [boundedInt, count, integerOf, JsonValue.toInt]
    cases parseInt rt.unicode text.toList with
    | none => rfl
    | some n => exact congrArg Except.ok (clampCount_eq n)
  | float f =>
    cases f with
    | finite q => exact congrArg Except.ok (clampCount_eq _)
    | infinite | nan => rfl
  | int n => exact congrArg Except.ok (clampCount_eq n)
  | bool b => cases b <;> rfl
  | null | arr | obj => rfl

/-- Only an infinity stops the reading of a count. -/
theorem boundedInt_eq_ok {value : JsonValue} {n : ℕ} :
    boundedInt rt value = .ok n ↔ value.isInfinite = false ∧ n = count rt value := by
  rw [boundedInt_eq]
  cases value.isInfinite with
  | true => simp
  | false => simp [eq_comm]

/-- A value is looked up among texts unless it is a container. -/
theorem inTexts_eq_ok {value : JsonValue} {names : List String} {b : Bool} :
    inTexts value names = .ok b ↔
      value.isContainer = false ∧ b = (knownText names value).isSome := by
  cases value with
  | str text =>
    by_cases htext : text ∈ names <;>
      simp [inTexts, knownText, JsonValue.isContainer, htext, eq_comm]
  | arr | obj => simp [inTexts, JsonValue.isContainer]
  | null | bool | int | float => simp [inTexts, knownText, JsonValue.isContainer, eq_comm]

/-- What is accepted as a known text is one of the names and reads as itself. -/
theorem toText_of_knownText (rt : ReplayRuntime) {value : JsonValue} {names : List String}
    {text : String}
    (h : knownText names value = some text) : toText rt value = text ∧ text ∈ names := by
  cases value with
  | str s =>
    rw [knownText] at h
    split at h
    · next hmem =>
      cases h
      exact ⟨rfl, hmem⟩
    · cases h
  | null | bool | int | float | arr | obj => cases h

/-- The code's bounded text is the expected one. -/
theorem boundedText_eq (default : String) (value : JsonValue) :
    boundedText default value = textOf default value := by
  cases value <;> rfl

/-- The code's list of texts is the expected one. -/
theorem textTuple_eq (value : JsonValue) : textTuple value = textsOf value := by
  cases value with
  | arr rows => exact congrArg (List.map · (rows.take 32)) (funext (boundedText_eq "unknown"))
  | null | bool | int | float | str | obj => rfl

/-- The code's list of identifiers is the expected one. -/
theorem uuidTuple_eq (value : JsonValue) : uuidTuple rt value = idsOf rt value := by
  cases value with
  | arr rows =>
    refine congrArg (List.filterMap · (rows.take 1000)) (funext fun row => ?_)
    cases row <;> rfl
  | null | bool | int | float | str | obj => rfl

/-- The code's error type is the expected one. -/
theorem readErrorType_eq (value : JsonValue) : readErrorType value = errorOf value := by
  cases value <;> rfl

/-- A cut text is no longer than its bound. -/
theorem length_take_le (n : ℕ) (text : String) : (Text.take n text).length ≤ n := by
  rw [Text.take, String.length_ofList]
  exact List.length_take_le _ _

/-- A text that is cut to a positive length stays nonempty. -/
theorem take_ne_empty {n : ℕ} {text : String} (hn : n ≠ 0) (htext : text ≠ "") :
    Text.take n text ≠ "" := by
  intro h
  have htake : text.toList.take n = [] := by
    rw [← String.toList_ofList (l := text.toList.take n)]
    exact congrArg String.toList h
  rcases List.take_eq_nil_iff.mp htake with hzero | hnil
  · exact hn hzero
  · exact htext (String.toList_eq_nil_iff.mp hnil)

/-- A replayed error type is neither empty nor too long. -/
theorem errorOf_bounds {value : JsonValue} {e : String}
    (h : errorOf value = some e) : e ≠ "" ∧ e.length ≤ 128 := by
  cases value with
  | str s =>
    rw [errorOf] at h
    split at h
    · cases h
    · next hs =>
      cases h
      exact ⟨take_ne_empty (by decide) hs, length_take_le _ _⟩
  | null | bool | int | float | arr | obj => cases h

/-- What a row denotes passes the checks of a step. -/
theorem countedStep_valid (rt : ReplayRuntime) {sequence : ℕ} (row : JsonMembers)
    {stage status name : String}
    (hsequence : 1 ≤ sequence ∧ sequence ≤ 64) (hstage : stage ∈ RetrievalTraceStep.stages)
    (hstatus : status ∈ RetrievalTraceStep.statuses) (hname : name ≠ "" ∧ name.length ≤ 64) :
    (countedStep rt sequence row stage status name).Valid where
  sequence := hsequence
  stage := hstage
  status := hstatus
  name := hname
  counts := by
    intro c hc
    simp only [RetrievalTraceStep.counts, List.mem_cons, List.not_mem_nil, or_false] at hc
    rcases hc with rfl | rfl | rfl <;> exact count_le _
  errorType := fun _ he => errorOf_bounds he

end Coercions

section Steps

variable {rt} {sequence : ℕ} {row : JsonMembers}

/-- A step of valid counts is made unless one of its fields is infinite. -/
theorem makeStep_eq_ok {stage status name : String} {r : Option RetrievalTraceStep}
    (hvalid : (countedStep rt sequence row stage status name).Valid) :
    makeStep rt sequence row stage status name = .ok r ↔
      FiniteAt row rowCounts ∧ r = some (countedStep rt sequence row stage status name) := by
  have hnew := RetrievalTraceStep.new_eq_ok hvalid
  simp only [countedStep] at hnew
  simp only [makeStep, readErrorType_eq, Except.bind_eq_ok, boundedInt_eq_ok, FiniteAt, rowCounts,
    List.forall_mem_cons, List.not_mem_nil, false_implies, forall_const, and_true]
  constructor
  · rintro ⟨_, ⟨h₁, rfl⟩, _, ⟨h₂, rfl⟩, _, ⟨h₃, rfl⟩, h⟩
    rw [hnew] at h
    exact ⟨⟨h₁, h₂, h₃⟩, (Except.ok.inj h).symm⟩
  · rintro ⟨⟨h₁, h₂, h₃⟩, rfl⟩
    refine ⟨_, ⟨h₁, rfl⟩, _, ⟨h₂, rfl⟩, _, ⟨h₃, rfl⟩, ?_⟩
    rw [hnew]
    rfl

/-- A row is read as the step that it denotes unless a value that is looked at raises. -/
theorem readStep_eq_ok {value : JsonValue} {r : Option RetrievalTraceStep}
    (hsequence : 1 ≤ sequence ∧ sequence ≤ 64) :
    readStep rt sequence value = .ok r ↔ RowReadable value ∧ r = stepOf rt sequence value := by
  cases value with
  | null | bool | int | float | str | arr => simp [readStep, RowReadable, stepOf, eq_comm]
  | obj row =>
    simp only [readStep, RowReadable, stepOf, Except.bind_eq_ok, inTexts_eq_ok]
    cases hstage : knownText RetrievalTraceStep.stages (JsonValue.get row "stage") with
    | none => simp [eq_comm (a := r)]
    | some stage =>
      obtain ⟨htext, hmem⟩ := toText_of_knownText rt hstage
      cases hstatus : knownText RetrievalTraceStep.statuses (JsonValue.get row "status") with
      | none =>
        simp [Except.bind_eq_ok, inTexts_eq_ok, hstatus, and_assoc, eq_comm (a := r)]
      | some status =>
        obtain ⟨htext', hmem'⟩ := toText_of_knownText rt hstatus
        cases hvalue : JsonValue.get row "name" with
        | str name =>
          by_cases hname : name = "" ∨ 64 < name.length
          · simp [Except.bind_eq_ok, inTexts_eq_ok, hstatus, stepName, hname, and_assoc,
              eq_comm (a := r)]
          · have hmake := makeStep_eq_ok (r := r) (countedStep_valid rt row
              hsequence hmem hmem' (not_or.mp hname |>.imp_right not_lt.mp))
            simp [Except.bind_eq_ok, inTexts_eq_ok, hstatus, stepName, hname, and_assoc, htext,
              htext', hmake]
        | null | bool | int | float | arr | obj =>
          simp [Except.bind_eq_ok, inTexts_eq_ok, hstatus, stepName, and_assoc, eq_comm (a := r)]

/-- An expected step carries the counts of the row it comes from. -/
theorem stepOf_eq_some {value : JsonValue} {step : RetrievalTraceStep}
    (h : stepOf rt sequence value = some step) :
    ∃ row stage status name, step = countedStep rt sequence row stage status name := by
  cases value with
  | obj row =>
    simp only [stepOf, Option.bind_eq_some_iff, Option.map_eq_some_iff] at h
    obtain ⟨stage, -, status, -, name, -, rfl⟩ := h
    exact ⟨row, stage, status, name, rfl⟩
  | null | bool | int | float | str | arr => cases h

/-- The numbers of the steps are bounded. -/
theorem traversalOf_le {value : JsonValue} {step : RetrievalTraceStep}
    (h : step ∈ traversalOf rt value) {n : ℕ}
    (hn : n ∈ [step.sequence, step.candidateCount, step.acceptedCount, step.selectedCount]) :
    n ≤ 1000000 := by
  cases value with
  | arr rows =>
    obtain ⟨row, hrow, hstep⟩ := List.mem_filterMap.mp h
    obtain ⟨-, hhigh, -⟩ := List.mem_zipIdx hrow
    have hlength := List.length_take_le 64 rows
    obtain ⟨members, stage, status, name, rfl⟩ := stepOf_eq_some hstep
    simp only [List.mem_cons, List.not_mem_nil, or_false] at hn
    rcases hn with rfl | rfl | rfl | rfl
    · change row.2 ≤ 1000000
      omega
    · exact count_le _
    · exact count_le _
    · exact count_le _
  | null | bool | int | float | str | obj => cases h

/-- The numbers of the delivery state are bounded. -/
theorem freshnessOf_le {value : JsonValue} {f : IndexFreshness} (h : freshnessOf rt value = some f)
    {n : ℕ} (hn : n ∈ [f.activeMemoryCount, f.staleMemoryCount, f.unpublishedMemoryCount,
      f.processingMemoryCount, f.deadLetterMemoryCount, f.missingDeliveryMemoryCount]) :
    n ≤ 1000000 := by
  cases value with
  | obj members =>
    cases h
    simp only [List.mem_cons, List.not_mem_nil, or_false] at hn
    rcases hn with rfl | rfl | rfl | rfl | rfl | rfl <;> exact count_le _
  | null | bool | int | float | str | arr => cases h

/-- The rows are read as the steps that they denote unless a value of one of them raises. -/
theorem retrievalTraversal_eq_ok {value : JsonValue} {steps : List RetrievalTraceStep} :
    retrievalTraversal rt value = .ok steps ↔
      (∀ rows, value = .arr rows → ∀ row ∈ rows.take 64, RowReadable row) ∧
        steps = traversalOf rt value := by
  cases value with
  | null | bool | int | float | str | obj => simp [retrievalTraversal, traversalOf, eq_comm]
  | arr rows =>
    have hread : ∀ row ∈ (rows.take 64).zipIdx 1, ∀ r, readStep rt row.2 row.1 = .ok r ↔
        RowReadable row.1 ∧ r = stepOf rt row.2 row.1 := by
      intro row hrow r
      obtain ⟨hlow, hhigh, -⟩ := List.mem_zipIdx hrow
      have hlength := List.length_take_le 64 rows
      exact readStep_eq_ok ⟨hlow, by omega⟩
    have hrows : (∀ row ∈ (rows.take 64).zipIdx 1, RowReadable row.1) ↔
        ∀ row ∈ rows.take 64, RowReadable row := by
      rw [← List.forall_mem_map (f := Prod.fst) (P := RowReadable), List.zipIdx_map_fst]
    simp only [retrievalTraversal, traversalOf, Except.bind_eq_ok, Except.mapM_eq_ok_iff hread,
      hrows, JsonValue.arr.injEq, forall_eq']
    constructor
    · rintro ⟨_, ⟨hreadable, rfl⟩, h⟩
      cases h
      exact ⟨hreadable, List.filterMap_map⟩
    · rintro ⟨hreadable, rfl⟩
      exact ⟨_, ⟨hreadable, rfl⟩, congrArg Except.ok List.filterMap_map⟩

/-- Only an infinity among its fields stops the reading of the freshness. -/
theorem indexFreshness_eq_ok {value : JsonValue} {freshness : Option IndexFreshness} :
    indexFreshness rt value = .ok freshness ↔
      (∀ members, value = .obj members → FiniteAt members freshnessCounts) ∧
        freshness = freshnessOf rt value := by
  cases value with
  | null | bool | int | float | str | arr => simp [indexFreshness, freshnessOf, eq_comm]
  | obj members =>
    simp only [indexFreshness, freshnessOf, Except.bind_eq_ok, boundedInt_eq_ok, FiniteAt,
      freshnessCounts, List.forall_mem_cons, List.not_mem_nil, false_implies, forall_const,
      and_true, JsonValue.obj.injEq, forall_eq']
    constructor
    · rintro ⟨_, ⟨h₁, rfl⟩, _, ⟨h₂, rfl⟩, _, ⟨h₃, rfl⟩, _, ⟨h₄, rfl⟩, _, ⟨h₅, rfl⟩, _, ⟨h₆, rfl⟩, h⟩
      cases h
      exact ⟨⟨h₁, h₂, h₃, h₄, h₅, h₆⟩, rfl⟩
    · rintro ⟨⟨h₁, h₂, h₃, h₄, h₅, h₆⟩, rfl⟩
      exact ⟨_, ⟨h₁, rfl⟩, _, ⟨h₂, rfl⟩, _, ⟨h₃, rfl⟩, _, ⟨h₄, rfl⟩, _, ⟨h₅, rfl⟩, _,
        ⟨h₆, rfl⟩, rfl⟩

end Steps

end Replay

/-- The counters, sequence numbers and revisions of a replay. -/
def RecallReplay.numbers (r : RecallReplay) : List ℕ :=
  [r.queryChars, r.candidateCount, r.contextBudgetTokens, r.contextUsedTokens] ++
    (r.indexFreshness.toList.flatMap fun f =>
      [f.activeMemoryCount, f.staleMemoryCount, f.unpublishedMemoryCount,
        f.processingMemoryCount, f.deadLetterMemoryCount, f.missingDeliveryMemoryCount]) ++
    (r.traversal.flatMap fun step =>
      [step.sequence, step.candidateCount, step.acceptedCount, step.selectedCount]) ++
    r.references.map fun reference => reference.revision

namespace RecallReplayService

open Replay

variable (s : RecallReplayService) (rt : ReplayRuntime)

/-- The reference that an identifier denotes: to a memory of the workspace. -/
def referenceOf (tenantId workspaceId itemId : UUID) : Option ReplayMemoryReference :=
  ((s.getItem tenantId itemId).filter fun item => item.workspaceId = workspaceId).map fun item =>
    ⟨item.id, item.layer.value, item.status.value, item.revision⟩

/-- The replay of a record: what is malformed is dropped or has its fallback. -/
def fallback (tenantId workspaceId : UUID) (event : StoredAuditEvent) : RecallReplay :=
  let metadata := event.decoded
  let traceIds := idsOf rt (JsonValue.get metadata "trace_ids")
  { auditEvent := event
    operation := textOf "unknown" (JsonValue.get metadata "operation")
    querySha256 := textOf "" (JsonValue.get metadata "query_sha256")
    queryChars := count rt (JsonValue.get metadata "query_chars")
    candidateCount := count rt (JsonValue.get metadata "candidate_count")
    sourcesUsed := textsOf (JsonValue.get metadata "sources_used")
    indexStale := (JsonValue.get metadata "index_stale").truthy
    indexFreshness := freshnessOf rt (JsonValue.get metadata "index_freshness")
    contextBudgetTokens := count rt (JsonValue.get metadata "context_budget_tokens")
    contextUsedTokens := count rt (JsonValue.get metadata "context_used_tokens")
    traceIds
    traversal := traversalOf rt (JsonValue.get metadata "retrieval_traversal")
    references := traceIds.filterMap (s.referenceOf tenantId workspaceId) }

/-- The traced memories of the workspace have small revisions. -/
def SmallRevisions (tenantId workspaceId : UUID) (metadata : JsonMembers) : Prop :=
  ∀ itemId ∈ idsOf rt (JsonValue.get metadata "trace_ids"), ∀ item,
    s.getItem tenantId itemId = some item → item.workspaceId = workspaceId →
      item.revision ≤ 1000000

variable {s rt} {tenantId workspaceId auditEventId : UUID} {event : StoredAuditEvent}

/-- A reference is shown for exactly the items of the replayed workspace. -/
theorem referenceOf_eq_some {itemId : UUID} {reference : ReplayMemoryReference} :
    s.referenceOf tenantId workspaceId itemId = some reference ↔
      ∃ item, s.getItem tenantId itemId = some item ∧ item.workspaceId = workspaceId ∧
        reference = ⟨item.id, item.layer.value, item.status.value, item.revision⟩ := by
  simp only [referenceOf, Option.map_eq_some_iff, Option.filter_eq_some_iff, decide_eq_true_eq,
    and_assoc, eq_comm (b := reference)]

/-- The references are those of the trace's identifiers, in their order. -/
theorem references_eq (traceIds : List UUID) :
    s.references tenantId workspaceId traceIds =
      traceIds.filterMap (s.referenceOf tenantId workspaceId) := by
  rw [references, List.filterMap_filterMap]
  refine congrArg (List.filterMap · traceIds) (funext fun itemId => ?_)
  rw [referenceOf]
  cases s.getItem tenantId itemId with
  | none => rfl
  | some item =>
    by_cases hworkspace : item.workspaceId = workspaceId <;> simp [hworkspace]

/-- A replay is returned exactly if nothing that is read raises, and it is the fallback replay. -/
theorem get_eq_ok (hevent : s.getEvent tenantId auditEventId = some event)
    (hworkspace : event.workspaceId = some workspaceId) (haction : event.action = "memory.recall")
    (hresource : event.resourceType = "memory_recall") {replay : RecallReplay} :
    s.get rt tenantId workspaceId auditEventId = .ok replay ↔
      Readable event.decoded ∧ replay = s.fallback rt tenantId workspaceId event := by
  have haction' : ¬(event.action ≠ "memory.recall" ∨ event.resourceType ≠ "memory_recall") := by
    rw [haction, hresource]
    exact fun h => h.elim (fun h => h rfl) fun h => h rfl
  rw [get, hevent]
  simp only [if_neg (not_not.mpr hworkspace), if_neg haction', Except.bind_eq_ok, boundedInt_eq_ok,
    indexFreshness_eq_ok, retrievalTraversal_eq_ok, boundedText_eq, textTuple_eq, uuidTuple_eq,
    references_eq]
  constructor
  · rintro ⟨_, ⟨h₁, rfl⟩, _, ⟨h₂, rfl⟩, _, ⟨h₃, rfl⟩, _, ⟨h₄, rfl⟩, _, ⟨h₅, rfl⟩, _, ⟨h₆, rfl⟩, h⟩
    cases h
    refine ⟨⟨?_, h₃, h₆⟩, rfl⟩
    simp only [FiniteAt, metadataCounts, List.forall_mem_cons, List.not_mem_nil, false_implies,
      forall_const, and_true]
    exact ⟨h₁, h₂, h₄, h₅⟩
  · rintro ⟨⟨hcounts, h₃, h₆⟩, rfl⟩
    simp only [FiniteAt, metadataCounts, List.forall_mem_cons, List.not_mem_nil, false_implies,
      forall_const, and_true] at hcounts
    obtain ⟨h₁, h₂, h₄, h₅⟩ := hcounts
    exact ⟨_, ⟨h₁, rfl⟩, _, ⟨h₂, rfl⟩, _, ⟨h₃, rfl⟩, _, ⟨h₄, rfl⟩, _, ⟨h₅, rfl⟩, _, ⟨h₆, rfl⟩, rfl⟩

/-- The numbers of a fallback replay are bounded if the revisions are. -/
theorem fallback_numbers_le :
    (∀ n ∈ (s.fallback rt tenantId workspaceId event).numbers, n ≤ 1000000) ↔
      s.SmallRevisions rt tenantId workspaceId event.decoded := by
  constructor
  · intro h itemId hid item hitem hworkspace
    have href : (⟨item.id, item.layer.value, item.status.value, item.revision⟩ :
        ReplayMemoryReference) ∈ (s.fallback rt tenantId workspaceId event).references :=
      List.mem_filterMap.mpr ⟨itemId, hid, referenceOf_eq_some.mpr ⟨item, hitem, hworkspace, rfl⟩⟩
    exact h _ (List.mem_append_right _ (List.mem_map_of_mem href))
  · intro h n hn
    rcases List.mem_append.mp hn with hn | hn
    · rcases List.mem_append.mp hn with hn | hn
      · rcases List.mem_append.mp hn with hn | hn
        · simp only [List.mem_cons, List.not_mem_nil, or_false] at hn
          rcases hn with rfl | rfl | rfl | rfl <;> exact count_le _
        · obtain ⟨freshness, hf, hn⟩ := List.mem_flatMap.mp hn
          exact freshnessOf_le (Option.mem_toList.mp hf) hn
      · obtain ⟨step, hstep, hn⟩ := List.mem_flatMap.mp hn
        exact traversalOf_le hstep hn
    · obtain ⟨reference, href, rfl⟩ := List.mem_map.mp hn
      obtain ⟨itemId, hid, href⟩ := List.mem_filterMap.mp href
      obtain ⟨item, hitem, hworkspace, rfl⟩ := referenceOf_eq_some.mp href
      exact h itemId hid item hitem hworkspace

/-- A replay with bounded numbers, in which what is malformed is dropped or has its fallback, is
returned exactly if nothing that is read raises and the traced memories have small revisions. -/
theorem get_exact (hevent : s.getEvent tenantId auditEventId = some event)
    (hworkspace : event.workspaceId = some workspaceId) (haction : event.action = "memory.recall")
    (hresource : event.resourceType = "memory_recall") :
    (∃ replay, s.get rt tenantId workspaceId auditEventId = .ok replay ∧
      replay = s.fallback rt tenantId workspaceId event ∧ ∀ n ∈ replay.numbers, n ≤ 1000000) ↔
      Readable event.decoded ∧ s.SmallRevisions rt tenantId workspaceId event.decoded := by
  rw [← fallback_numbers_le]
  constructor
  · rintro ⟨replay, hget, rfl, hnumbers⟩
    exact ⟨((get_eq_ok hevent hworkspace haction hresource).mp hget).1, hnumbers⟩
  · rintro ⟨hreadable, hnumbers⟩
    exact ⟨_, (get_eq_ok hevent hworkspace haction hresource).mpr ⟨hreadable, rfl⟩, rfl, hnumbers⟩

/-- An audit record of a recall with some metadata. -/
def recallEvent (decoded : JsonMembers) : StoredAuditEvent where
  tenantId := UUID.ofNat 1
  workspaceId := some (UUID.ofNat 2)
  action := "memory.recall"
  actor := "agent"
  actorType := "api_key"
  resourceType := "memory_recall"
  resourceId := none
  status := "succeeded"
  metadata := []
  id := UUID.ofNat 3
  createdAt := .ofMicros 0
  valid := rfl
  decoded := decoded

/-- A log with one record, and an empty ledger. -/
def loggedRecall (decoded : JsonMembers) : RecallReplayService :=
  ⟨fun _ _ => some (recallEvent decoded), fun _ _ => none⟩

/-- No value but a text is rendered. -/
def textRuntime : ReplayRuntime := ⟨asciiUnicode, fun _ => ""⟩

/-- Metadata with a digit text, a list for a counter, a text that is no identifier, a counter that
is no number and a row that is no object. -/
def mixedMetadata : JsonMembers :=
  [("query_chars", .str "12"), ("candidate_count", .arr []), ("trace_ids", .arr [.str "none"]),
    ("index_freshness", .obj [("active_memory_count", .float .nan)]),
    ("retrieval_traversal", .arr [.null, .obj [("stage", .str "source")]])]

/-- The logged recall of the example is replayed, with every number within the limit. -/
theorem get_exact_loggedRecall :
    ∃ replay, (loggedRecall mixedMetadata).get textRuntime (UUID.ofNat 1) (UUID.ofNat 2)
        (UUID.ofNat 3) = .ok replay ∧
      replay = (loggedRecall mixedMetadata).fallback textRuntime (UUID.ofNat 1) (UUID.ofNat 2)
        (recallEvent mixedMetadata) ∧ ∀ n ∈ replay.numbers, n ≤ 1000000 := by
  refine (get_exact rfl rfl rfl rfl).mpr ⟨⟨?_, ?_, ?_⟩, ?_⟩
  · intro name hname
    simp only [metadataCounts, List.mem_cons, List.not_mem_nil, or_false] at hname
    rcases hname with rfl | rfl | rfl | rfl <;> rfl
  · rintro members ⟨⟩ name hname
    simp only [freshnessCounts, List.mem_cons, List.not_mem_nil, or_false] at hname
    rcases hname with rfl | rfl | rfl | rfl | rfl | rfl <;> rfl
  · rintro rows ⟨⟩ row hrow
    simp only [List.take_succ_cons, List.take_nil, List.mem_cons, List.not_mem_nil, or_false]
      at hrow
    rcases hrow with rfl | rfl
    · trivial
    · exact ⟨rfl, fun _ => ⟨rfl, fun h => absurd h (by decide)⟩⟩
  · intro itemId hid item hitem
    cases hitem

/-- The decoder reads the number `1e999` as an infinity, and the replay raises. -/
theorem get_infinite :
    ¬ ∃ replay, (loggedRecall [("query_chars", .float (.infinite false))]).get textRuntime
      (UUID.ofNat 1) (UUID.ofNat 2) (UUID.ofNat 3) = .ok replay := by
  rintro ⟨replay, h⟩
  cases h

end RecallReplayService

end MemoryPlane
