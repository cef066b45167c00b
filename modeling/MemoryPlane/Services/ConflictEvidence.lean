import MemoryPlane.Services.ConflictWrites

/-!
# What the inbox lists

A workspace has one case for every belief key under which its semantic memories have two values.
The candidates of the case are these values, and the evidence of a candidate is exactly the
memories with its value.
-/

namespace MemoryPlane

/-- The belief key of a case. -/
def ConflictCase.key (c : ConflictCase) : String := BeliefSlot.key ⟨c.subject, c.predicate, ""⟩

namespace ConflictService

open InMemoryMemoryStore

variable (rt : Runtime)

/-- The belief slot of a memory. -/
@[irreducible]
def slotOf (i : MemoryItem) : BeliefSlot := extractBeliefSlot rt.unicode i.text

variable {rt} in
/-- The slot depends on the text only. -/
theorem slotOf_congr {i j : MemoryItem} (h : i.text = j.text) : slotOf rt i = slotOf rt j := by
  unfold slotOf
  rw [h]

/-- A semantic memory of the workspace under the belief key `k`. -/
structure InSlot (t w : UUID) (k : String) (i : MemoryItem) : Prop where
  tenant : i.tenantId = t
  workspace : i.workspaceId = w
  layer : i.layer = .semantic
  key : (slotOf rt i).key = k

instance (t w : UUID) (k : String) (i : MemoryItem) : Decidable (InSlot rt t w k i) :=
  decidable_of_iff (i.tenantId = t ∧ i.workspaceId = w ∧ i.layer = .semantic ∧
    (slotOf rt i).key = k) ⟨fun ⟨h₁, h₂, h₃, h₄⟩ => ⟨h₁, h₂, h₃, h₄⟩,
      fun h => ⟨h.tenant, h.workspace, h.layer, h.key⟩⟩

variable {rt} {s : InMemoryMemoryStore} {t w : UUID} {case : ConflictCase} {k : String}
  {i : MemoryItem}

theorem factsOf_eq (l : Ledger) : factsOf rt l t w =
    (l.listForWorkspace t w [.semantic]).map fun i => ⟨slotOf rt i, i⟩ := by
  unfold slotOf
  rfl

theorem mem_factsOf {l : Ledger} {f : Fact} : f ∈ factsOf rt l t w ↔
    f.item ∈ l.items.rows ∧ InSlot rt t w f.slot.key f.item ∧ f.slot = slotOf rt f.item := by
  rw [factsOf_eq, List.mem_map]
  constructor
  · rintro ⟨i, hi, rfl⟩
    obtain ⟨hm, ht, hw, hl⟩ := Ledger.mem_listForWorkspace.mp hi
    dsimp only
    exact ⟨hm, ⟨ht, hw, by simpa using hl, rfl⟩, rfl⟩
  · rintro ⟨hm, hin, hs⟩
    refine ⟨f.item, Ledger.mem_listForWorkspace.mpr ⟨hm, hin.tenant, hin.workspace, ?_⟩, ?_⟩
    · exact .inr (List.mem_singleton.mpr hin.layer)
    · rw [← hs]

/-- The facts under one belief key. -/
def slotFacts (rt : Runtime) (l : Ledger) (t w : UUID) (k : String) : List Fact :=
  (factsOf rt l t w).filter fun f => f.slot.key = k

theorem mem_slotFacts {l : Ledger} {f : Fact} : f ∈ slotFacts rt l t w k ↔
    f.item ∈ l.items.rows ∧ InSlot rt t w k f.item ∧ f.slot = slotOf rt f.item := by
  unfold slotFacts
  rw [List.mem_filter, mem_factsOf, decide_eq_true_eq]
  constructor
  · rintro ⟨⟨hm, hin, hs⟩, rfl⟩
    exact ⟨hm, hin, hs⟩
  · rintro ⟨hm, hin, hs⟩
    have hk : f.slot.key = k := hs ▸ hin.key
    exact ⟨⟨hm, hk ▸ hin, hs⟩, hk⟩

/-- The groups of values of facts: every value that occurs, with its memories. -/
theorem mem_valueGroups {facts : List Fact} {v : String} {rows : List MemoryItem}
    (h : (v, rows) ∈ valueGroups facts) :
    rows = (facts.filter fun f => f.slot.value = v).map Fact.item ∧ rows ≠ [] := by
  unfold valueGroups at h
  obtain ⟨⟨v', fs⟩, hg, he⟩ := List.mem_map.mp h
  cases he
  rw [mem_sortedBy] at hg
  obtain ⟨rfl, hne⟩ := mem_groupBy hg
  exact ⟨rfl, fun hnil => hne (List.map_eq_nil_iff.mp hnil)⟩

theorem exists_valueGroups {facts : List Fact} {f : Fact} (hf : f ∈ facts) :
    ∃ rows, (f.slot.value, rows) ∈ valueGroups facts ∧ f.item ∈ rows := by
  obtain ⟨fs, hg, hmem⟩ : ∃ fs, (f.slot.value, fs) ∈
      groupBy (fun f : Fact => f.slot.value) facts ∧ f ∈ fs := exists_groupBy hf
  refine ⟨fs.map Fact.item, List.mem_map.mpr ⟨_, (mem_sortedBy ..).mpr hg, rfl⟩, ?_⟩
  exact List.mem_map_of_mem hmem

/-- What a case was built from. -/
structure BuiltFrom (rt : Runtime) (t w : UUID) (facts : List Fact) (case : ConflictCase) :
    Prop where
  tenant : case.tenantId = t
  workspace : case.workspaceId = w
  first : ∃ first ∈ facts, case.subject = first.slot.subject ∧
    case.predicate = first.slot.predicate ∧ case.id = caseId rt t w first.slot
  candidates : ∃ latest, caseCandidates rt latest case.review (valueGroups facts) =
    some case.candidates

theorem builtFrom_of_caseOf {reviews : List ConflictReviewDecision} {resolved : Bool}
    {facts : List Fact} (h : caseOf rt t w reviews resolved facts = some case) :
    BuiltFrom rt t w facts case := by
  unfold caseOf at h
  simp only at h
  split at h
  · cases h
  obtain ⟨latest, -, h⟩ := Option.bind_eq_some_iff.mp h
  obtain ⟨first, hf, h⟩ := Option.bind_eq_some_iff.mp h
  obtain ⟨candidates, hc, h⟩ := Option.bind_eq_some_iff.mp h
  split at h
  · cases h
  obtain ⟨suggested, -, rfl⟩ := Option.map_eq_some_iff.mp h
  exact ⟨rfl, rfl, ⟨first, List.mem_of_mem_head? hf, rfl, rfl, rfl⟩, latest, hc⟩

/-- A listed case is the case of the facts under its key. -/
theorem caseOf_of_listed {resolved : Bool} (h : case ∈ listCases rt s t w resolved) :
    caseOf rt t w (s.listConflictReviews t w) resolved (slotFacts rt s.toLedger t w case.key) =
      some case := by
  unfold listCases at h
  rw [mem_sortedBy, List.mem_filterMap] at h
  obtain ⟨⟨k, facts⟩, hg, hcase⟩ := h
  obtain ⟨rfl, -⟩ := mem_groupBy hg
  obtain ⟨first, hf, hsub, hpred, -⟩ := (builtFrom_of_caseOf hcase).first
  have hk : case.key = k := by
    rw [ConflictCase.key, hsub, hpred]
    exact of_decide_eq_true (List.mem_filter.mp hf).2
  rw [hk]
  exact hcase

/-- A listed case is built from the facts under its key. -/
theorem builtFrom_of_listed {resolved : Bool} (h : case ∈ listCases rt s t w resolved) :
    BuiltFrom rt t w (slotFacts rt s.toLedger t w case.key) case :=
  builtFrom_of_caseOf (caseOf_of_listed h)

/-- A slot has one case. -/
theorem eq_of_listed_of_key {resolved : Bool} {case' : ConflictCase}
    (h : case ∈ listCases rt s t w resolved) (h' : case' ∈ listCases rt s t w resolved)
    (hk : case.key = case'.key) : case = case' := by
  have hcase := caseOf_of_listed h
  rw [hk, caseOf_of_listed h', Option.some.injEq] at hcase
  exact hcase.symm

/-- What the open inbox lists is listed with the resolved cases too. -/
theorem listed_resolved {resolved : Bool} (h : case ∈ listCases rt s t w resolved) :
    case ∈ listCases rt s t w true := by
  unfold listCases at h ⊢
  rw [mem_sortedBy, List.mem_filterMap] at h ⊢
  obtain ⟨g, hg, hcase⟩ := h
  refine ⟨g, hg, ?_⟩
  unfold caseOf at hcase ⊢
  simp only at hcase ⊢
  split at hcase
  · cases hcase
  rename_i hlen
  rw [if_neg hlen]
  obtain ⟨latest, hl, hcase⟩ := Option.bind_eq_some_iff.mp hcase
  obtain ⟨first, hf, hcase⟩ := Option.bind_eq_some_iff.mp hcase
  obtain ⟨candidates, hc, hcase⟩ := Option.bind_eq_some_iff.mp hcase
  split at hcase
  · cases hcase
  refine Option.bind_eq_some_iff.mpr ⟨latest, hl, Option.bind_eq_some_iff.mpr ⟨first, hf,
    Option.bind_eq_some_iff.mpr ⟨candidates, hc, ?_⟩⟩⟩
  simpa using hcase

namespace BuiltFrom

variable {facts : List Fact}

/-- The identifier of a case is named by its key. -/
theorem id_eq (h : BuiltFrom rt t w facts case) :
    case.id = caseId rt t w ⟨case.subject, case.predicate, ""⟩ := by
  obtain ⟨first, -, hsub, hpred, hid⟩ := h.first
  rw [hid, hsub, hpred]
  rfl

/-- Each candidate stands for one value group. -/
theorem exists_group (h : BuiltFrom rt t w facts case) {c : ConflictCandidate}
    (hc : c ∈ case.candidates) : ∃ latest rows, (c.value, rows) ∈ valueGroups facts ∧
      candidate rt latest case.review c.value rows = some c := by
  obtain ⟨latest, hall⟩ := h.candidates
  obtain ⟨⟨v, rows⟩, hg, hcand⟩ := (mapM_option_eq_some hall).exists_of_mem_right hc
  obtain ⟨rfl, -⟩ := candidate_eq_some hcand
  exact ⟨latest, rows, hg, hcand⟩

/-- Each value group has its candidate. -/
theorem exists_candidate (h : BuiltFrom rt t w facts case) {v : String} {rows : List MemoryItem}
    (hg : (v, rows) ∈ valueGroups facts) :
    ∃ c ∈ case.candidates, c.value = v ∧ c.evidenceIds = rows.map fun i => i.id := by
  obtain ⟨latest, hall⟩ := h.candidates
  obtain ⟨c, hc, hcand⟩ := (mapM_option_eq_some hall).exists_of_mem_left hg
  exact ⟨c, hc, candidate_eq_some hcand⟩

end BuiltFrom

/-- After its resolution was applied, a case shows the recorded winner as active. -/
theorem candidate_active_iff {resolved : Bool} (h : case ∈ listCases rt s t w resolved)
    {r : ConflictReviewDecision} (hr : case.review = some r) (ha : r.appliedMemoryId ≠ none)
    {c : ConflictCandidate} (hc : c ∈ case.candidates) :
    c.status = "active" ↔ r.winnerValue = some c.value := by
  obtain ⟨latest, rows, hg, hcand⟩ := (builtFrom_of_listed h).exists_group hc
  unfold candidate at hcand
  obtain ⟨newest, -, hcand⟩ := Option.map_eq_some_iff.mp hcand
  have hstatus := congrArg ConflictCandidate.status hcand
  simp only [hr, if_pos ha] at hstatus
  rw [← hstatus]
  by_cases hv : r.winnerValue = some c.value
  · simp [hv]
  · have hne : (some c.value == r.winnerValue) = false := by
      rw [beq_eq_false_iff_ne]
      exact fun he => hv he.symm
    simp [hv, hne]

/-- The evidence of a candidate is the memories of the slot with its value. -/
theorem mem_evidence_iff {resolved : Bool} (h : case ∈ listCases rt s t w resolved)
    {c : ConflictCandidate} (hc : c ∈ case.candidates) (hi : i ∈ s.items.rows) :
    i.id ∈ c.evidenceIds ↔ InSlot rt t w case.key i ∧ (slotOf rt i).value = c.value := by
  obtain ⟨latest, rows, hg, hcand⟩ := (builtFrom_of_listed h).exists_group hc
  obtain ⟨-, hids⟩ := candidate_eq_some hcand
  obtain ⟨rfl, -⟩ := mem_valueGroups hg
  rw [hids, List.map_map, List.mem_map]
  constructor
  · rintro ⟨f, hf, hid⟩
    rw [List.mem_filter, mem_slotFacts, decide_eq_true_eq] at hf
    obtain ⟨⟨hm, hin, hs⟩, hv⟩ := hf
    have he : f.item = i := s.items.eq_of_key_eq hm hi hid
    rw [he] at hin hs
    exact ⟨hin, by rw [← hs, hv]⟩
  · rintro ⟨hin, hv⟩
    refine ⟨⟨slotOf rt i, i⟩, ?_, rfl⟩
    rw [List.mem_filter, mem_slotFacts, decide_eq_true_eq]
    exact ⟨⟨hi, hin, rfl⟩, hv⟩

/-- Every memory of the slot is evidence of a candidate. -/
theorem exists_candidate_of_inSlot {resolved : Bool} (h : case ∈ listCases rt s t w resolved)
    (hi : i ∈ s.items.rows) (hin : InSlot rt t w case.key i) :
    ∃ c ∈ case.candidates, c.value = (slotOf rt i).value ∧ i.id ∈ c.evidenceIds := by
  have hf : (⟨slotOf rt i, i⟩ : Fact) ∈ slotFacts rt s.toLedger t w case.key :=
    mem_slotFacts.mpr ⟨hi, hin, rfl⟩
  obtain ⟨rows, hg, -⟩ := exists_valueGroups hf
  obtain ⟨c, hc, hv, -⟩ := (builtFrom_of_listed h).exists_candidate hg
  exact ⟨c, hc, hv, (mem_evidence_iff h hc hi).mpr ⟨hin, hv.symm⟩⟩

/-- Every candidate has evidence. -/
theorem exists_evidence {resolved : Bool} (h : case ∈ listCases rt s t w resolved)
    {c : ConflictCandidate} (hc : c ∈ case.candidates) :
    ∃ i ∈ s.items.rows, InSlot rt t w case.key i ∧ (slotOf rt i).value = c.value := by
  obtain ⟨latest, rows, hg, -⟩ := (builtFrom_of_listed h).exists_group hc
  obtain ⟨hrows, hne⟩ := mem_valueGroups hg
  obtain ⟨i, hi⟩ := List.exists_mem_of_ne_nil rows hne
  rw [hrows, List.mem_map] at hi
  obtain ⟨f, hf, rfl⟩ := hi
  rw [List.mem_filter, mem_slotFacts, decide_eq_true_eq] at hf
  obtain ⟨⟨hm, hin, hs⟩, hv⟩ := hf
  exact ⟨f.item, hm, hin, by rw [← hs, hv]⟩

/-- The identifier of a case depends on the key of its slot only. -/
theorem caseId_eq_of_inSlot {resolved : Bool} (h : case ∈ listCases rt s t w resolved)
    (hin : InSlot rt t w case.key i) : caseId rt t w (slotOf rt i) = case.id := by
  rw [(builtFrom_of_listed h).id_eq]
  unfold caseId
  rw [hin.key]
  rfl

/-- A case lists at least two candidates. -/
theorem caseOf_two_groups {reviews : List ConflictReviewDecision} {resolved : Bool}
    {facts : List Fact} (h : caseOf rt t w reviews resolved facts = some case) :
    2 ≤ (valueGroups facts).length := by
  unfold caseOf at h
  simp only at h
  split at h
  · cases h
  · omega

/-- A listed case has memories of two values. -/
theorem exists_two_values {resolved : Bool} (h : case ∈ listCases rt s t w resolved) :
    ∃ i ∈ s.items.rows, ∃ j ∈ s.items.rows, InSlot rt t w case.key i ∧ InSlot rt t w case.key j ∧
      (slotOf rt i).value ≠ (slotOf rt j).value := by
  have hlen := caseOf_two_groups (caseOf_of_listed h)
  have hb := builtFrom_of_listed h
  have hkeys : ((valueGroups (slotFacts rt s.toLedger t w case.key)).map Prod.fst).Nodup := by
    obtain ⟨latest, hc⟩ := hb.candidates
    rw [← values_of_candidates hc]
    exact listCases_values h
  have hne := List.pairwise_iff_getElem.mp hkeys 0 1 (by simp; omega) (by simp; omega) (by omega)
  simp only [List.getElem_map] at hne
  obtain ⟨c, hc, hcv, -⟩ := hb.exists_candidate (List.getElem_mem (by omega : 0 < _))
  obtain ⟨c', hc', hcv', -⟩ := hb.exists_candidate (List.getElem_mem (by omega : 1 < _))
  obtain ⟨i, hi, hin, hv⟩ := exists_evidence h hc
  obtain ⟨j, hj, hjn, hv'⟩ := exists_evidence h hc'
  exact ⟨i, hi, j, hj, hin, hjn, by rw [hv, hv', hcv, hcv']; exact hne⟩

/-- Facts of two values make a case, if resolved cases are listed too. -/
theorem exists_caseOf {reviews : List ConflictReviewDecision} {facts : List Fact}
    (h : 2 ≤ (valueGroups facts).length) :
    ∃ case, caseOf rt t w reviews true facts = some case := by
  have hne : facts ≠ [] := by
    rintro rfl
    simp [valueGroups, groupBy, sortedBy] at h
  obtain ⟨f, hf⟩ := List.exists_mem_of_ne_nil facts hne
  unfold caseOf
  simp only [if_neg (not_lt.mpr h)]
  cases hl : (facts.map Fact.item).argmax fun i => i.createdAt with
  | none => exact absurd (List.map_eq_nil_iff.mp (List.argmax_eq_none.mp hl)) hne
  | some latest =>
    cases hh : facts.head? with
    | none => exact absurd (List.head?_eq_none_iff.mp hh) hne
    | some first =>
      simp only [Option.bind_some]
      have hall : ∀ review, ∃ cs, caseCandidates rt latest review (valueGroups facts) = some cs ∧
          cs.length = (valueGroups facts).length := by
        intro review
        unfold caseCandidates
        have hrows : ∀ g ∈ valueGroups facts, g.2 ≠ [] := fun g hg => (mem_valueGroups hg).2
        generalize valueGroups facts = groups at hrows
        induction groups with
        | nil => exact ⟨[], rfl, rfl⟩
        | cons g rest ih =>
          obtain ⟨cs, hcs, hlen⟩ := ih fun g hg => hrows g (List.mem_cons_of_mem _ hg)
          cases hn : (g.2.argmax fun i => i.createdAt) with
          | none => exact absurd (List.argmax_eq_none.mp hn) (hrows g (List.mem_cons_self ..))
          | some newest =>
            rw [List.mapM_cons, hcs]
            simp only [candidate, hn, Option.map_some, Option.bind_eq_bind, Option.bind_some,
              Option.pure_def]
            exact ⟨_, rfl, by simp [hlen]⟩
      obtain ⟨cs, hcs, hlen⟩ := hall (reviews.reverse.find? fun r =>
        r.caseId = caseId rt t w first.slot)
      rw [hcs]
      simp only [Option.bind_some, Bool.not_true, Bool.false_and, Bool.false_eq_true, if_false]
      cases hs : cs.argmax suggestionKey with
      | none =>
        rw [List.argmax_eq_none.mp hs] at hlen
        simp only [List.length_nil] at hlen
        omega
      | some suggested => exact ⟨_, rfl⟩

/-- A listed case has a memory in its slot. -/
theorem exists_inSlot {resolved : Bool} (h : case ∈ listCases rt s t w resolved) :
    ∃ i ∈ s.items.rows, InSlot rt t w case.key i := by
  obtain ⟨first, hf, -⟩ := (builtFrom_of_listed h).first
  obtain ⟨hm, hin, -⟩ := mem_slotFacts.mp hf
  exact ⟨first.item, hm, hin⟩

/-- The review of a listed case is the one that the workspace stores under its identifier. -/
theorem listed_review_iff {resolved : Bool} (h : case ∈ listCases rt s t w resolved)
    {r : ConflictReviewDecision} : case.review = some r ↔
      s.conflictReviews.find (t, case.id) = some r ∧ r.workspaceId = w := by
  constructor
  · intro hr
    refine ⟨listCases_review h hr, ?_⟩
    obtain ⟨facts, -, hcase⟩ := mem_listCases h
    obtain ⟨-, -, hrev, -⟩ := caseOf_eq_some hcase
    rw [hrev] at hr
    have hmem := List.mem_reverse.mp (List.mem_of_find?_eq_some hr)
    simp only [listConflictReviews, List.mem_filter, decide_eq_true_eq] at hmem
    exact hmem.2.2
  · rintro ⟨hr, hw⟩
    obtain ⟨facts, -, hcase⟩ := mem_listCases h
    obtain ⟨-, -, hrev, -⟩ := caseOf_eq_some hcase
    obtain ⟨hm, hkey⟩ := Table.find_eq_some.mp hr
    have hmem : r ∈ (s.listConflictReviews t w).reverse := by
      rw [List.mem_reverse]
      simp only [listConflictReviews, List.mem_filter, decide_eq_true_eq]
      exact ⟨hm, congrArg Prod.fst hkey, hw⟩
    rw [hrev]
    cases hf : (s.listConflictReviews t w).reverse.find? fun r => r.caseId = case.id with
    | none =>
      have hne := List.find?_eq_none.mp hf r hmem
      exact absurd (decide_eq_true (congrArg Prod.snd hkey)) hne
    | some q =>
      have hq := listCases_review h (hrev.trans hf)
      rw [hr] at hq
      exact hq.symm

/-- Two memories of a slot with different values make the workspace list a case of the slot. -/
theorem exists_listed {j : MemoryItem} (hi : i ∈ s.items.rows) (hj : j ∈ s.items.rows)
    (hik : InSlot rt t w k i) (hjk : InSlot rt t w k j)
    (hne : (slotOf rt i).value ≠ (slotOf rt j).value) :
    ∃ case ∈ listCases rt s t w true, case.key = k := by
  have hfi : (⟨slotOf rt i, i⟩ : Fact) ∈ slotFacts rt s.toLedger t w k :=
    mem_slotFacts.mpr ⟨hi, hik, rfl⟩
  have hfj : (⟨slotOf rt j, j⟩ : Fact) ∈ slotFacts rt s.toLedger t w k :=
    mem_slotFacts.mpr ⟨hj, hjk, rfl⟩
  have htwo : 2 ≤ (valueGroups (slotFacts rt s.toLedger t w k)).length := by
    obtain ⟨xs, hx, -⟩ := exists_valueGroups hfi
    obtain ⟨ys, hy, -⟩ := exists_valueGroups hfj
    by_contra hlt
    obtain ⟨n, hn⟩ := List.getElem_of_mem hx
    obtain ⟨m, hm⟩ := List.getElem_of_mem hy
    obtain ⟨hnl, hn⟩ := hn
    obtain ⟨hml, hm⟩ := hm
    have hnm : n = m := by omega
    subst hnm
    rw [hn] at hm
    exact hne (congrArg Prod.fst hm)
  obtain ⟨case, hcase⟩ : ∃ case, caseOf rt t w (s.listConflictReviews t w) true
      (slotFacts rt s.toLedger t w k) = some case := exists_caseOf htwo
  have hfact : (⟨slotOf rt i, i⟩ : Fact) ∈ factsOf rt s.toLedger t w :=
    mem_factsOf.mpr ⟨hi, hik.key ▸ hik, rfl⟩
  obtain ⟨ys, hg, -⟩ : ∃ ys, ((slotOf rt i).key, ys) ∈
      groupBy (fun f : Fact => f.slot.key) (factsOf rt s.toLedger t w) ∧ _ ∈ ys :=
    exists_groupBy hfact
  obtain ⟨rfl, -⟩ := mem_groupBy hg
  refine ⟨case, ?_, ?_⟩
  · unfold listCases
    rw [mem_sortedBy, List.mem_filterMap]
    refine ⟨_, hg, ?_⟩
    rw [hik.key]
    exact hcase
  · obtain ⟨first, hf, hsub, hpred, -⟩ := (builtFrom_of_caseOf hcase).first
    rw [ConflictCase.key, hsub, hpred]
    exact (mem_slotFacts.mp hf).2.2 ▸ (mem_slotFacts.mp hf).2.1.key

end ConflictService

end MemoryPlane
