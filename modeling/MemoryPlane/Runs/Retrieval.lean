import Mathlib.Algebra.GroupWithZero.Nat
import MemoryPlane.Runs.Operations
import MemoryPlane.Runs.Replay
import MemoryPlane.Services.Retrieval

/-!
# The trace of a recall

Writer, constructor and reader of a trace bound its steps each for itself. As long as only optional
sources fail and no more rows come in than a counter holds, the writer fills the trace with steps
that the constructor admits, and the reader gives back the same steps.
-/

namespace MemoryPlane

namespace RetrievalService

/-- The number of rows that a source contributes. -/
def rowsOf (query : RecallQuery) (source : CandidateSource) : ℕ :=
  ((source.search query).toOption.getD []).length

/-- The candidates of a source that are kept. -/
def acceptedOf (query : RecallQuery) (source : CandidateSource) : List Candidate :=
  ((source.search query).toOption.getD []).filter fun candidate => accepts query candidate.item

/-- The steps of the sources: numbered in order, well formed, and not too many. -/
structure Traced (traversal : List RetrievalTraceStep) : Prop where
  numbered : traversal.map (fun step => step.sequence) = List.range' 1 traversal.length
  length : traversal.length ≤ 63
  valid : ∀ step ∈ traversal, step.Valid
  stage : ∀ step ∈ traversal, step.stage = "source"

section Names

/-- A bounded name is never empty and never longer than its bound. -/
theorem boundedName_bounds {n : ℕ} {fallback : String} (hfallback : fallback ≠ "")
    (hlength : fallback.length ≤ n) (value : String) :
    boundedName n fallback value ≠ "" ∧ (boundedName n fallback value).length ≤ n := by
  rw [boundedName]
  by_cases hempty : Text.take n (Text.strip value) = ""
  · rw [if_pos hempty]
    exact ⟨hfallback, hlength⟩
  · rw [if_neg hempty]
    exact ⟨hempty, Replay.length_take_le _ _⟩

/-- Every recorded name passes the step's own length check. -/
theorem traceName_bounds (value : String) :
    traceName value ≠ "" ∧ (traceName value).length ≤ 64 :=
  boundedName_bounds (by decide) (by decide) value

/-- Every recorded error type passes the step's own length check. -/
theorem traceErrorType_bounds (rt : RetrievalRuntime) (error : Exn) :
    traceErrorType rt error ≠ "" ∧ (traceErrorType rt error).length ≤ 128 :=
  boundedName_bounds (by decide) (by decide) _

end Names

section Steps

variable {rt : RetrievalRuntime} {traversal : List RetrievalTraceStep}

/-- A step stays well formed under another number. -/
theorem valid_renumber {step : RetrievalTraceStep} (h : step.Valid) {n : ℕ}
    (hn : 1 ≤ n ∧ n ≤ 64) : ({ step with sequence := n } : RetrievalTraceStep).Valid :=
  ⟨hn, h.stage, h.status, h.name, h.counts, h.errorType⟩

/-- The counters of a step are bounded if the first bounds the others. -/
theorem counts_le {step : RetrievalTraceStep} (hcandidates : step.candidateCount ≤ 1000000)
    (haccepted : step.acceptedCount ≤ step.candidateCount)
    (hselected : step.selectedCount ≤ step.acceptedCount) : ∀ c ∈ step.counts, c.2 ≤ 1000000 := by
  intro c hc
  simp only [RetrievalTraceStep.counts, List.mem_cons, List.not_mem_nil, or_false] at hc
  rcases hc with rfl | rfl | rfl
  · exact hcandidates
  · exact haccepted.trans hcandidates
  · exact (hselected.trans haccepted).trans hcandidates

/-- The step of a failed source passes validation. -/
theorem degradedStep_valid (rt : RetrievalRuntime) (source : CandidateSource) (error : Exn) :
    (degradedStep rt source error).Valid where
  sequence := ⟨le_rfl, (by decide : 1 ≤ 64)⟩
  stage := List.mem_cons_self
  status := List.mem_cons_of_mem _ List.mem_cons_self
  name := by
    dsimp only [degradedStep]
    exact traceName_bounds source.name
  counts := counts_le (Nat.zero_le _) le_rfl le_rfl
  errorType := by
    dsimp only [degradedStep]
    rintro e he
    rw [← Option.some.inj he]
    exact traceErrorType_bounds rt error

/-- The step of a source passes validation when no more rows were accepted than read. -/
theorem succeededStep_valid (source : CandidateSource) {candidates accepted : ℕ}
    (hcandidates : candidates ≤ 1000000) (haccepted : accepted ≤ candidates) :
    (succeededStep source candidates accepted).Valid where
  sequence := ⟨le_rfl, (by decide : 1 ≤ 64)⟩
  stage := List.mem_cons_self
  status := List.mem_cons_self
  name := by
    dsimp only [succeededStep]
    exact traceName_bounds source.name
  counts := counts_le hcandidates haccepted (Nat.zero_le _)
  errorType := fun _ he => absurd he (Option.some_ne_none _).symm

/-- The fusion step passes validation when each of its counts shrinks the one before. -/
theorem fusionStep_valid {sequence grouped ranked selected : ℕ}
    (hsequence : 1 ≤ sequence ∧ sequence ≤ 64) (hgrouped : grouped ≤ 1000000)
    (hranked : ranked ≤ grouped) (hselected : selected ≤ ranked) :
    (fusionStep sequence grouped ranked selected).Valid where
  sequence := hsequence
  stage := List.mem_cons_of_mem _ List.mem_cons_self
  status := List.mem_cons_self
  name := (by decide : "weighted-fusion" ≠ "" ∧ "weighted-fusion".length ≤ 64)
  counts := counts_le hgrouped hranked hselected
  errorType := fun _ he => absurd he (Option.some_ne_none _).symm

/-- The number of a step appended to a trace. -/
theorem numbered_append (h : traversal.map (fun step => step.sequence) =
    List.range' 1 traversal.length) {step : RetrievalTraceStep}
    (hstep : step.sequence = traversal.length + 1) :
    (traversal ++ [step]).map (fun step => step.sequence) =
      List.range' 1 (traversal ++ [step]).length := by
  rw [List.map_append, h, List.length_append, List.length_singleton, List.range'_concat]
  simp [hstep, Nat.add_comm]

/-- A well formed step is appended, unless the trace is full. -/
theorem addStep_traced (h : Traced traversal) {step : RetrievalTraceStep} (hstep : step.Valid)
    (hstage : step.stage = "source") :
    ∃ traversal', addStep traversal step = .ok traversal' ∧ Traced traversal' := by
  by_cases hfull : traversal.length < 63
  · have hvalid := valid_renumber hstep (n := traversal.length + 1) (by omega)
    have hadd : addStep traversal step =
        .ok (traversal ++ [{ step with sequence := traversal.length + 1 }]) := by
      rw [addStep, if_pos hfull, RetrievalTraceStep.new_eq_ok hvalid]
      rfl
    refine ⟨_, hadd, numbered_append h.numbered rfl, ?_, ?_, ?_⟩
    · rw [List.length_append, List.length_singleton]
      omega
    · exact List.forall_mem_append.mpr ⟨h.valid, List.forall_mem_singleton.mpr hvalid⟩
    · exact List.forall_mem_append.mpr ⟨h.stage, List.forall_mem_singleton.mpr hstage⟩
  · exact ⟨traversal, by rw [addStep, if_neg hfull], h⟩

end Steps

section Loop

variable {s : RetrievalService} {rt : RetrievalRuntime} {query : RecallQuery}

/-- The candidates are grouped by memory, in the order in which they were accepted. -/
def Groups (r : Recalling) (rows : List Candidate) : Prop :=
  r.grouped = groupBy (fun candidate => candidate.item.id) rows

/-- A round groups the candidates of its source. -/
theorem visit_groups {r r' : Recalling} {rows : List Candidate} {source : CandidateSource}
    (h : s.visit rt query r source = .ok r') (hr : Groups r rows) :
    Groups r' (rows ++ acceptedOf query source) := by
  rw [visit] at h
  rw [Groups, acceptedOf, groupBy, List.foldl_append]
  cases hsearch : source.search query with
  | error e =>
    rw [hsearch] at h
    obtain ⟨traversal, -, h⟩ := Except.bind_eq_ok.mp h
    split at h
    · cases h
    · cases h
      exact hr
  | ok candidates =>
    rw [hsearch] at h
    obtain ⟨traversal, -, h⟩ := Except.bind_eq_ok.mp h
    cases h
    dsimp only
    rw [show r.grouped = _ from hr, groupBy]
    rfl

/-- The loop groups the candidates of all sources. -/
theorem foldlM_visit_groups {sources : List CandidateSource} {r r' : Recalling}
    {rows : List Candidate} (h : sources.foldlM (s.visit rt query) r = .ok r')
    (hr : Groups r rows) : Groups r' (rows ++ sources.flatMap (acceptedOf query)) := by
  induction sources generalizing r rows with
  | nil =>
    cases h
    rw [List.flatMap_nil, List.append_nil]
    exact hr
  | cons source rest ih =>
    rw [List.foldlM_cons] at h
    obtain ⟨middle, hvisit, h⟩ := Except.bind_eq_ok.mp h
    rw [List.flatMap_cons, ← List.append_assoc]
    exact ih h (visit_groups hvisit hr)

/-- A round adds a well formed step, unless a required source fails. -/
theorem visit_traced (rt : RetrievalRuntime) {r : Recalling} {source : CandidateSource}
    (hr : Traced r.traversal)
    (hrows : rowsOf query source ≤ 1000000)
    (hoptional : ∀ e, source.search query = .error e → source.name ∉ s.requiredSources) :
    ∃ r', s.visit rt query r source = .ok r' ∧ Traced r'.traversal := by
  rw [rowsOf] at hrows
  rw [visit]
  cases hsearch : source.search query with
  | error e =>
    obtain ⟨traversal, hadd, htraced⟩ := addStep_traced hr
      (degradedStep_valid rt source e) rfl
    refine ⟨{ r with traversal }, ?_, htraced⟩
    simp only [hadd, Except.ok_bind, if_neg (hoptional e hsearch)]
    rfl
  | ok candidates =>
    rw [hsearch] at hrows
    have hcandidates : candidates.length ≤ 1000000 := hrows
    have haccepted := List.length_filter_le (fun candidate => accepts query candidate.item)
      candidates
    obtain ⟨traversal, hadd, htraced⟩ :=
      addStep_traced hr (succeededStep_valid source hcandidates haccepted) rfl
    simp only [hadd, Except.ok_bind]
    exact ⟨_, rfl, htraced⟩

/-- The loop leaves a trace, unless a required source fails. -/
theorem foldlM_visit_traced (rt : RetrievalRuntime) {sources : List CandidateSource} {r : Recalling}
    (hr : Traced r.traversal) (hrows : (sources.map (rowsOf query)).sum ≤ 1000000)
    (hoptional : ∀ source ∈ sources, ∀ e, source.search query = .error e →
      source.name ∉ s.requiredSources) :
    ∃ r', sources.foldlM (s.visit rt query) r = .ok r' ∧ Traced r'.traversal := by
  induction sources generalizing r with
  | nil => exact ⟨r, rfl, hr⟩
  | cons source rest ih =>
    rw [List.map_cons, List.sum_cons] at hrows
    rw [List.forall_mem_cons] at hoptional
    obtain ⟨middle, hvisit, hmiddle⟩ := visit_traced rt hr (by omega) hoptional.1
    rw [List.foldlM_cons, hvisit, Except.ok_bind]
    exact ih hmiddle (by omega) hoptional.2

/-- A source never has more rows accepted than it gave. -/
theorem length_acceptedOf_le (source : CandidateSource) :
    (acceptedOf query source).length ≤ rowsOf query source := List.length_filter_le _ _

/-- There are no more groups than rows. -/
theorem length_groupBy_le {α κ : Type} [DecidableEq κ] (key : α → κ) (xs : List α) :
    (groupBy key xs).length ≤ xs.length := by
  have hsubset : (groupBy key xs).map Prod.fst ⊆ xs.map key := by
    intro k hk
    obtain ⟨⟨k, ys⟩, hmem, rfl⟩ := List.mem_map.mp hk
    obtain ⟨hys, hne⟩ := mem_groupBy hmem
    obtain ⟨x, hx⟩ := List.exists_mem_of_ne_nil _ hne
    rw [hys, List.mem_filter, decide_eq_true_eq] at hx
    exact List.mem_map.mpr ⟨x, hx.1, hx.2⟩
  have hlength := List.Nodup.length_le_of_subset (groupBy_keys_nodup key xs) hsubset
  rwa [List.length_map, List.length_map] at hlength

/-- The rows accepted over all sources are no more than the rows given. -/
theorem length_flatMap_acceptedOf_le (sources : List CandidateSource) :
    (sources.flatMap (acceptedOf query)).length ≤ (sources.map (rowsOf query)).sum := by
  induction sources with
  | nil => exact le_rfl
  | cons source rest ih =>
    rw [List.flatMap_cons, List.length_append, List.map_cons, List.sum_cons]
    exact Nat.add_le_add (length_acceptedOf_le source) ih

end Loop

section Fusion

variable {s : RetrievalService} {rt : RetrievalRuntime}

/-- The signals that a score weighs. -/
def signals : List String := ["semantic", "lexical", "entity", "recency", "importance", "trust"]

/-- The exception of a weight that is not configured. -/
def MissingWeight (s : RetrievalService) (e : Exn) : Prop :=
  ∃ name ∈ signals, s.weights.lookup name = none ∧ e = .keyError name

/-- A computation raises for a missing weight only. -/
def OnlyMissing {α : Type} (s : RetrievalService) (x : Except Exn α) : Prop :=
  ∀ e, x = .error e → MissingWeight s e

namespace OnlyMissing

variable {α β : Type}

/-- A value raises nothing. -/
theorem ok (a : α) : OnlyMissing s (.ok a) := by
  rintro e ⟨⟩

/-- A chain raises only for a missing signal when both of its parts do. -/
theorem bind {x : Except Exn α} {f : α → Except Exn β} (hx : OnlyMissing s x)
    (hf : ∀ a, OnlyMissing s (f a)) : OnlyMissing s (x >>= f) := by
  cases x with
  | error e =>
    rintro e' ⟨⟩
    exact hx e rfl
  | ok a => exact hf a

/-- Mapping over a result adds no error. -/
theorem map {x : Except Exn α} (hx : OnlyMissing s x) (f : α → β) : OnlyMissing s (x.map f) := by
  cases x with
  | error e =>
    rintro e' ⟨⟩
    exact hx e rfl
  | ok a => exact ok (f a)

/-- A list of calls raises only for a missing signal when each call does. -/
theorem mapM {f : α → Except Exn β} (hf : ∀ a, OnlyMissing s (f a)) (xs : List α) :
    OnlyMissing s (xs.mapM f) := by
  induction xs with
  | nil => exact ok []
  | cons x xs ih =>
    rw [List.mapM_cons]
    exact bind (hf x) fun y => bind ih fun ys => ok _

end OnlyMissing

/-- Looking up a known signal's weight fails only when the weights lack one of the signals. -/
theorem weight_onlyMissing {name : String} (hname : name ∈ signals) :
    OnlyMissing s (s.weight name) := by
  intro e he
  rw [weight] at he
  split at he
  · cases he
  · next hnone =>
    cases he
    exact ⟨name, hname, hnone, rfl⟩

/-- Fusing a group fails only when the weights lack one of the signals. -/
theorem fuse_onlyMissing (first : Candidate) (rows : List Candidate) :
    OnlyMissing s (s.fuse rt first rows) := by
  have hweight : ∀ name ∈ signals, ∀ f : ℚ → ℚ, OnlyMissing s ((s.weight name).map f) :=
    fun name hname f => (weight_onlyMissing hname).map f
  refine (hweight "semantic" (by decide) _).bind fun _ => ?_
  refine (hweight "lexical" (by decide) _).bind fun _ => ?_
  refine (hweight "entity" (by decide) _).bind fun _ => ?_
  refine (hweight "recency" (by decide) _).bind fun _ => ?_
  refine (hweight "importance" (by decide) _).bind fun _ => ?_
  refine (hweight "trust" (by decide) _).bind fun _ => ?_
  exact OnlyMissing.ok _

end Fusion

section Reader

open Replay

variable {rt : ReplayRuntime} {step : RetrievalTraceStep}

/-- A stored count within the limit is read back as it is. -/
theorem count_int {n : ℕ} (h : n ≤ 1000000) : count rt (.int n) = n := Nat.min_eq_left h

/-- A text among the known names is read back as it is. -/
theorem knownText_str {names : List String} {text : String} (h : text ∈ names) :
    knownText names (.str text) = some text := if_pos h

/-- A name of admissible length is read back as it is. -/
theorem stepName_str {name : String} (h : name ≠ "" ∧ name.length ≤ 64) :
    stepName (.str name) = some name := by
  rw [stepName, if_neg]
  rintro (hempty | hlong)
  · exact h.1 hempty
  · exact absurd h.2 (not_le.mpr hlong)

/-- Cutting a text that fits leaves it as it is. -/
theorem cut_of_length_le {n : ℕ} {text : String} (h : text.length ≤ n) : cut n text = text := by
  rw [cut, List.take_of_length_le h, String.ofList_toList]

/-- The error type of a valid step is read back, its absence included. -/
theorem errorOf_elim (h : step.Valid) :
    errorOf (step.errorType.elim .null .str) = step.errorType := by
  cases he : step.errorType with
  | none => rfl
  | some e =>
    obtain ⟨hempty, hlong⟩ := h.errorType e he
    change errorOf (.str e) = some e
    rw [errorOf, if_neg hempty, cut_of_length_le hlong]

/-- A valid step is read back from its own record, whatever the position it stands at. -/
theorem stepOf_asdict (rt : ReplayRuntime) (h : step.Valid) :
    stepOf rt step.sequence (asdict step) = some step := by
  have hcounts := h.counts
  simp only [RetrievalTraceStep.counts, List.forall_mem_cons] at hcounts
  obtain ⟨hcandidates, haccepted, hselected, -⟩ := hcounts
  change stepOf rt step.sequence (.obj (asdictMembers step)) = some step
  have hstage : JsonValue.get (asdictMembers step) "stage" = .str step.stage := rfl
  have hstatus : JsonValue.get (asdictMembers step) "status" = .str step.status := rfl
  have hname : JsonValue.get (asdictMembers step) "name" = .str step.name := rfl
  have herror : JsonValue.get (asdictMembers step) "error_type" =
      step.errorType.elim .null .str := rfl
  have hfirst : JsonValue.get (asdictMembers step) "candidate_count" =
      .int step.candidateCount := rfl
  have hsecond : JsonValue.get (asdictMembers step) "accepted_count" =
      .int step.acceptedCount := rfl
  have hthird : JsonValue.get (asdictMembers step) "selected_count" =
      .int step.selectedCount := rfl
  simp only [stepOf, hstage, hstatus, hname, knownText_str h.stage, knownText_str h.status,
    stepName_str h.name, Option.bind_some, Option.map_some, countedStep, hfirst, hsecond, hthird,
    herror, count_int hcandidates, count_int haccepted, count_int hselected, errorOf_elim h]

/-- The record of a step has only fields that the reader accepts. -/
theorem rowReadable_asdict (step : RetrievalTraceStep) : RowReadable (asdict step) := by
  refine ⟨rfl, fun _ => ⟨rfl, fun _ _ => ?_⟩⟩
  intro name hname
  simp only [rowCounts, List.mem_cons, List.not_mem_nil, or_false] at hname
  rcases hname with rfl | rfl | rfl <;> rfl

/-- The reader gives back numbered steps. -/
theorem filterMap_asdict {steps : List RetrievalTraceStep} {first : ℕ}
    (hnumbered : steps.map (fun step => step.sequence) = List.range' first steps.length)
    (hvalid : ∀ step ∈ steps, step.Valid) :
    ((steps.map asdict).zipIdx first).filterMap (fun row => stepOf rt row.2 row.1) = steps := by
  induction steps generalizing first with
  | nil => rfl
  | cons step rest ih =>
    rw [List.map_cons, List.length_cons, List.range'_succ, List.cons.injEq] at hnumbered
    rw [List.forall_mem_cons] at hvalid
    have hstep := stepOf_asdict rt hvalid.1
    rw [hnumbered.1] at hstep
    rw [List.map_cons, List.zipIdx_cons, List.filterMap_cons]
    simp only [hstep, ih hnumbered.2 hvalid.2]

/-- The reader gives back a trace. -/
theorem retrievalTraversal_asdict {steps : List RetrievalTraceStep}
    (hnumbered : steps.map (fun step => step.sequence) = List.range' 1 steps.length)
    (hvalid : ∀ step ∈ steps, step.Valid) (hlength : steps.length ≤ 64) :
    retrievalTraversal rt (.arr (steps.map asdict)) = .ok steps := by
  have htake : (steps.map asdict).take 64 = steps.map asdict :=
    List.take_of_length_le (by rwa [List.length_map])
  rw [retrievalTraversal_eq_ok]
  constructor
  · rintro _ ⟨⟩ row hrow
    rw [htake] at hrow
    obtain ⟨step, -, rfl⟩ := List.mem_map.mp hrow
    exact rowReadable_asdict step
  · rw [traversalOf, htake, filterMap_asdict hnumbered hvalid]

end Reader

section Recall

variable {s : RetrievalService} {rt : RetrievalRuntime} {query : RecallQuery}

/-- Ranking drops candidates and adds none. -/
theorem length_rank_le (fused : List Candidate) : (rank query fused).length ≤ fused.length := by
  rw [rank, (sortedByDesc_perm _ _).length_eq]
  exact List.length_filter_le _ _

/-- A list of calls that all succeed gives one result each. -/
theorem length_of_mapM_eq_ok {α β : Type} {f : α → Except Exn β} {xs : List α} {ys : List β}
    (h : xs.mapM f = .ok ys) : ys.length = xs.length := by
  induction xs generalizing ys with
  | nil =>
    cases h
    rfl
  | cons x xs ih =>
    rw [List.mapM_cons] at h
    obtain ⟨y, -, h⟩ := Except.bind_eq_ok.mp h
    obtain ⟨zs, hzs, h⟩ := Except.bind_eq_ok.mp h
    cases h
    rw [List.length_cons, List.length_cons, ih hzs]

/-- A trace with the step of the fusion. -/
structure Complete (traversal : List RetrievalTraceStep) : Prop where
  numbered : traversal.map (fun step => step.sequence) = List.range' 1 traversal.length
  length : traversal.length ≤ 64
  fusion : ∃ steps fusion, traversal = steps ++ [fusion] ∧
    (∀ step ∈ steps, step.stage = "source") ∧ fusion.stage = "fusion"

/-- As long as only optional sources fail and at most a million rows come in, a recall leaves a
complete trace that is read back as it was written; it raises for a missing weight only. -/
theorem recall_traversal (reader : ReplayRuntime)
    (hrows : (s.sources.map (rowsOf query)).sum ≤ 1000000)
    (hoptional : ∀ source ∈ s.sources, ∀ e, source.search query = .error e →
      source.name ∉ s.requiredSources) :
    (∃ result, s.recall rt query = .ok result ∧ Complete result.traversal ∧
      Replay.retrievalTraversal reader (.arr (result.traversal.map Replay.asdict)) =
        .ok result.traversal) ∨
    ∃ e, s.recall rt query = .error e ∧ MissingWeight s e := by
  have hempty : Traced (Recalling.mk [] [] []).traversal :=
    ⟨rfl, Nat.zero_le _, fun _ h => absurd h List.not_mem_nil, fun _ h => absurd h List.not_mem_nil⟩
  obtain ⟨r, hloop, htraced⟩ := foldlM_visit_traced rt hempty hrows hoptional
  have hgroups : r.grouped.length ≤ 1000000 := by
    have hgrouped : r.grouped = groupBy (fun candidate => candidate.item.id)
        ([] ++ s.sources.flatMap (acceptedOf query)) := foldlM_visit_groups hloop rfl
    rw [hgrouped, List.nil_append]
    exact ((length_groupBy_le _ _).trans (length_flatMap_acceptedOf_le _)).trans hrows
  rw [RetrievalService.recall, hloop, Except.ok_bind]
  dsimp only
  cases hfused : (r.grouped.filterMap fun group =>
      group.2.head?.map fun first => (first, group.2)).mapM fun group =>
        s.fuse rt group.1 group.2 with
  | error e =>
    have honly : ∀ group : Candidate × List Candidate,
        OnlyMissing s (s.fuse rt group.1 group.2) := fun group => fuse_onlyMissing _ _
    exact .inr ⟨e, rfl, OnlyMissing.mapM honly _ e hfused⟩
  | ok fused =>
    have hranked : (rank query fused).length ≤ r.grouped.length :=
      (length_rank_le fused).trans <|
        (length_of_mapM_eq_ok hfused).trans_le (List.length_filterMap_le _ _)
    have hselected : ((rank query fused).take query.topK).length ≤ (rank query fused).length :=
      List.length_take_le' _ _
    have hsequence : 1 ≤ r.traversal.length + 1 ∧ r.traversal.length + 1 ≤ 64 :=
      ⟨Nat.le_add_left _ _, Nat.succ_le_succ htraced.length⟩
    have hvalid := fusionStep_valid hsequence hgroups hranked hselected
    have hall := List.forall_mem_append.mpr
      ⟨htraced.valid, List.forall_mem_singleton.mpr hvalid⟩
    have hnumbered := numbered_append htraced.numbered (show (fusionStep (r.traversal.length + 1)
      r.grouped.length (rank query fused).length
      ((rank query fused).take query.topK).length).sequence = r.traversal.length + 1 from rfl)
    have hlength : (r.traversal ++ [fusionStep (r.traversal.length + 1) r.grouped.length
        (rank query fused).length ((rank query fused).take query.topK).length]).length ≤ 64 := by
      rw [List.length_append, List.length_singleton]
      exact hsequence.2
    simp only [Except.ok_bind, RetrievalTraceStep.new_eq_ok hvalid]
    refine .inl ⟨_, rfl, ⟨hnumbered, hlength, ?_⟩, retrievalTraversal_asdict hnumbered hall hlength⟩
    exact ⟨r.traversal, _, rfl, htraced.stage, rfl⟩

/-- A memory that both sources find. -/
def sharedMemory : MemoryItem := ⟨notedFields "Ship it.", by decide +kernel⟩

/-- A memory of another workspace. -/
def strayMemory : MemoryItem :=
  ⟨{ notedFields "Ship that." with workspaceId := UUID.ofNat 3, id := UUID.ofNat 11 },
    by decide +kernel⟩

/-- The floats of the language and exception classes with blank names. -/
def blankRuntime : RetrievalRuntime :=
  ⟨(plainDeployment (UUID.ofNat 0)).runtime.toFloatOps, fun _ => " ", .ofMicros 1704067200000000⟩

/-- Two sources that find the same memory, one of them also a stray one, and an optional source that
fails. -/
def degradedService : RetrievalService where
  sources :=
    [⟨"sql_lexical", fun _ => .ok [{ item := sharedMemory, source := "sql_lexical", lexical := 1 },
        { item := strayMemory, source := "sql_lexical", lexical := 1 }]⟩,
      ⟨"qdrant", fun _ => .ok [{ item := sharedMemory, source := "qdrant", semantic := 1 / 2 }]⟩,
      ⟨" ", fun _ => .error (.runtimeError "down")⟩]
  weights := defaultWeights blankRuntime
  requiredSources := ["sql_lexical"]
  stalenessCheck := none

def anyQuery : RecallQuery where
  tenantId := UUID.ofNat 1
  workspaceId := UUID.ofNat 2
  text := "q"
  text_nonempty := by decide
  topK_bounds := by decide

/-- No weight is missing, so the recall returns. -/
theorem recall_traversal_degraded :
    ∃ result, degradedService.recall blankRuntime anyQuery = .ok result ∧
      Complete result.traversal ∧
      Replay.retrievalTraversal RecallReplayService.textRuntime
        (.arr (result.traversal.map Replay.asdict)) = .ok result.traversal := by
  have hoptional : ∀ source ∈ degradedService.sources, ∀ e,
      source.search anyQuery = .error e → source.name ∉ degradedService.requiredSources := by
    intro source hsource e he
    simp only [degradedService, List.mem_cons, List.not_mem_nil, or_false] at hsource
    rcases hsource with rfl | rfl | rfl
    · cases he
    · cases he
    · decide
  rcases recall_traversal RecallReplayService.textRuntime (by decide) hoptional with hresult |
    ⟨e, -, name, hname, hmissing, -⟩
  · exact hresult
  · have hweights : ∀ name ∈ signals, degradedService.weights.lookup name ≠ none := by
      decide +kernel
    exact absurd hmissing (hweights name hname)

end Recall

end RetrievalService

end MemoryPlane
