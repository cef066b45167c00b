import MemoryPlane.Adapters.Writes
import MemoryPlane.Services.Conflicts

/-!
# What a conflict decision writes

The evidence of a listed case has distinct identifiers, so the writes of a decision revise
pairwise different heads. Each write is either a tombstone, which keeps the text of the head
it revises, or the one graft, which carries the text of the winning memory.
-/

namespace MemoryPlane

namespace ConflictService

variable {rt : Runtime} {s : InMemoryMemoryStore} {t w : UUID} {case : ConflictCase}

/-- The identifiers under which facts were stored. -/
def factIds (facts : List Fact) : List UUID := facts.map fun f => f.item.id

/-- Every value group holds rows of the group of facts, and no row is in two groups. -/
theorem valueGroups_nodup {facts : List Fact} (hn : (factIds facts).Nodup) :
    ((valueGroups facts).flatMap fun g => g.2.map fun i => i.id).Nodup := by
  have hperm : ((valueGroups facts).flatMap fun g => g.2.map fun i => i.id).Perm
      ((groupBy (fun f : Fact => f.slot.value) facts).flatMap fun g =>
        g.2.map fun f => f.item.id) := by
    unfold valueGroups
    rw [List.flatMap_map]
    simp only [List.map_map]
    exact (sortedBy_perm Prod.fst _).flatMap_right _
  rw [hperm.nodup_iff, List.nodup_flatMap]
  constructor
  · rintro ⟨v, fs⟩ hg
    obtain ⟨rfl, -⟩ := mem_groupBy hg
    exact hn.sublist (List.filter_sublist.map _)
  · refine List.Pairwise.imp_of_mem ?_ (List.pairwise_map.mp (groupBy_keys_nodup _ facts))
    rintro ⟨v, fs⟩ ⟨v', fs'⟩ hg hg' hne
    obtain ⟨rfl, -⟩ := mem_groupBy hg
    obtain ⟨rfl, -⟩ := mem_groupBy hg'
    change List.Disjoint _ _
    rw [List.disjoint_left]
    intro id hid hid'
    obtain ⟨f, hf, rfl⟩ := List.mem_map.mp hid
    obtain ⟨f', hf', he⟩ := List.mem_map.mp hid'
    rw [List.mem_filter] at hf hf'
    obtain rfl : f' = f := List.inj_on_of_nodup_map hn hf'.1 hf.1 he
    exact hne ((of_decide_eq_true hf.2).symm.trans (of_decide_eq_true hf'.2))

/-- The members of a successful traversal of a list of options. -/
theorem mapM_option_eq_some {α β : Type} {f : α → Option β} :
    ∀ {xs : List α} {ys : List β}, xs.mapM f = some ys →
      List.Forall₂ (fun x y => f x = some y) xs ys
  | [], ys, h => by
    cases h
    exact .nil
  | x :: xs, ys, h => by
    rw [List.mapM_cons] at h
    obtain ⟨y, hy, h⟩ := Option.bind_eq_some_iff.mp h
    obtain ⟨zs, hzs, h⟩ := Option.bind_eq_some_iff.mp h
    cases h
    exact .cons hy (mapM_option_eq_some hzs)

/-- What a built case is made of. -/
theorem caseOf_eq_some {reviews : List ConflictReviewDecision} {resolved : Bool}
    {facts : List Fact} (h : caseOf rt t w reviews resolved facts = some case) :
    case.tenantId = t ∧ case.workspaceId = w ∧
      case.review = reviews.reverse.find? (fun r => r.caseId = case.id) ∧
        ∃ latest review, caseCandidates rt latest review (valueGroups facts) =
          some case.candidates := by
  unfold caseOf at h
  simp only at h
  split at h
  · cases h
  obtain ⟨latest, -, h⟩ := Option.bind_eq_some_iff.mp h
  obtain ⟨first, -, h⟩ := Option.bind_eq_some_iff.mp h
  obtain ⟨candidates, hc, h⟩ := Option.bind_eq_some_iff.mp h
  split at h
  · cases h
  obtain ⟨suggested, -, rfl⟩ := Option.map_eq_some_iff.mp h
  exact ⟨rfl, rfl, rfl, latest, _, hc⟩

theorem candidate_eq_some {latest : MemoryItem} {review : Option ConflictReviewDecision}
    {value : String} {rows : List MemoryItem} {c : ConflictCandidate}
    (h : candidate rt latest review value rows = some c) :
    c.value = value ∧ c.evidenceIds = rows.map fun i => i.id := by
  unfold candidate at h
  obtain ⟨newest, -, rfl⟩ := Option.map_eq_some_iff.mp h
  exact ⟨rfl, rfl⟩

/-- The evidence of a case is the identifiers of its value groups. -/
theorem evidenceIds_of_candidates {latest : MemoryItem} {review : Option ConflictReviewDecision}
    {groups : List (String × List MemoryItem)} {cs : List ConflictCandidate}
    (h : caseCandidates rt latest review groups = some cs) :
    cs.flatMap ConflictCandidate.evidenceIds = groups.flatMap fun g => g.2.map fun i => i.id := by
  have hall := mapM_option_eq_some h
  clear h
  induction hall with
  | nil => rfl
  | cons hc _ ih => rw [List.flatMap_cons, List.flatMap_cons, ih, (candidate_eq_some hc).2]

theorem values_of_candidates {latest : MemoryItem} {review : Option ConflictReviewDecision}
    {groups : List (String × List MemoryItem)} {cs : List ConflictCandidate}
    (h : caseCandidates rt latest review groups = some cs) :
    cs.map ConflictCandidate.value = groups.map Prod.fst := by
  have hall := mapM_option_eq_some h
  clear h
  induction hall with
  | nil => rfl
  | cons hc _ ih => rw [List.map_cons, List.map_cons, ih, (candidate_eq_some hc).1]

/-- A listed case comes from one group of the facts of its workspace. -/
theorem mem_listCases {resolved : Bool} (h : case ∈ listCases rt s t w resolved) :
    ∃ facts : List Fact, facts.Sublist (factsOf rt s.toLedger t w) ∧
      caseOf rt t w (s.listConflictReviews t w) resolved facts = some case := by
  unfold listCases at h
  rw [mem_sortedBy, List.mem_filterMap] at h
  obtain ⟨⟨k, facts⟩, hg, hcase⟩ := h
  obtain ⟨rfl, -⟩ := mem_groupBy hg
  exact ⟨_, List.filter_sublist, hcase⟩

/-- No two candidates of a listed case have the same value. -/
theorem listCases_values {resolved : Bool} (h : case ∈ listCases rt s t w resolved) :
    (case.candidates.map ConflictCandidate.value).Nodup := by
  obtain ⟨facts, -, hcase⟩ := mem_listCases h
  obtain ⟨-, -, -, latest, review, hc⟩ := caseOf_eq_some hcase
  rw [values_of_candidates hc]
  unfold valueGroups
  rw [List.map_map]
  exact ((sortedBy_perm Prod.fst _).map _).nodup_iff.mpr (groupBy_keys_nodup _ facts)

/-- The review of a listed case is the stored one under its identifier. -/
theorem listCases_review {resolved : Bool} (h : case ∈ listCases rt s t w resolved)
    {review : ConflictReviewDecision} (hr : case.review = some review) :
    s.conflictReviews.find (t, case.id) = some review := by
  obtain ⟨facts, -, hcase⟩ := mem_listCases h
  obtain ⟨-, -, hrev, -⟩ := caseOf_eq_some hcase
  rw [hrev] at hr
  have hid : review.caseId = case.id := by simpa using List.find?_some hr
  have hmem := List.mem_reverse.mp (List.mem_of_find?_eq_some hr)
  simp only [InMemoryMemoryStore.listConflictReviews, List.mem_filter, decide_eq_true_eq] at hmem
  exact Table.find_eq_some.mpr ⟨hmem.1, by rw [hmem.2.1, hid]⟩

/-- Evidence consists of semantic memories of the listed workspace. -/
theorem listCases_evidence_stored {resolved : Bool} (h : case ∈ listCases rt s t w resolved)
    {id : UUID} (hid : id ∈ evidenceIds case) :
    ∃ i ∈ s.items.rows, i.id = id ∧ i.tenantId = t ∧ i.workspaceId = w ∧ i.layer = .semantic := by
  obtain ⟨facts, hsub, hcase⟩ := mem_listCases h
  obtain ⟨-, -, -, latest, review, hc⟩ := caseOf_eq_some hcase
  unfold evidenceIds at hid
  rw [evidenceIds_of_candidates hc] at hid
  obtain ⟨⟨value, rows⟩, hg, hid⟩ := List.mem_flatMap.mp hid
  obtain ⟨i, hi, rfl⟩ := List.mem_map.mp hid
  unfold valueGroups at hg
  obtain ⟨⟨value', group⟩, hg', he⟩ := List.mem_map.mp hg
  cases he
  rw [mem_sortedBy] at hg'
  obtain ⟨rfl, -⟩ := mem_groupBy hg'
  obtain ⟨f, hf, rfl⟩ := List.mem_map.mp hi
  have hmem := hsub.subset (List.mem_filter.mp hf).1
  unfold factsOf at hmem
  obtain ⟨j, hj, rfl⟩ := List.mem_map.mp hmem
  obtain ⟨hrow, ht, hw, hl⟩ := Ledger.mem_listForWorkspace.mp hj
  exact ⟨j, hrow, rfl, ht, hw, by simpa using hl⟩

/-- A listed case belongs to the listed workspace and its evidence has no repetition. -/
theorem listCases_evidence {resolved : Bool} (h : case ∈ listCases rt s t w resolved) :
    case.tenantId = t ∧ case.workspaceId = w ∧ (evidenceIds case).Nodup := by
  obtain ⟨facts, hsub, hcase⟩ := mem_listCases h
  obtain ⟨ht, hw, -, latest, review, hc⟩ := caseOf_eq_some hcase
  refine ⟨ht, hw, ?_⟩
  unfold evidenceIds
  rw [evidenceIds_of_candidates hc]
  refine valueGroups_nodup ?_
  have hids : (factIds (factsOf rt s.toLedger t w)).Nodup := by
    unfold factIds factsOf Ledger.listForWorkspace
    simp only [List.map_map, List.drop_zero]
    refine ((sortedBy_perm _ _).map _).nodup_iff.mpr ?_
    exact s.items.nodup.sublist (List.filter_sublist.map _)
  exact hids.sublist (hsub.map _)

/-- A write revises a head, under drawn identifiers, and is announced. -/
structure Revises (d : Draws) (parent : MemoryItem) (x : MemoryItem × IntegrationEvent × ℕ) :
    Prop where
  id : x.1.id = d.uuid4 0
  eventId : x.2.1.id = d.uuid4 1
  supersedes : x.1.supersedesId = some parent.id
  revision : x.1.revision = parent.revision + 1
  tenant : x.1.tenantId = parent.tenantId
  workspace : x.1.workspaceId = parent.workspaceId
  layer : x.1.layer = parent.layer
  scope : x.1.scope = parent.scope
  agent : x.1.agentId = parent.agentId
  thread : x.1.threadId = parent.threadId
  announces : x.2.1.Announces x.1
  expected : x.2.2 = parent.revision

/-- A tombstone revises its head and keeps its text. -/
theorem tombstone_eq_ok {d : Draws} {loser : MemoryItem} {x : MemoryItem × IntegrationEvent × ℕ}
    (h : tombstone case d loser = .ok x) :
    Revises d loser x ∧ x.1.text = loser.text ∧ x.1.status = .archived := by
  unfold tombstone at h
  obtain ⟨i, hi, h⟩ := Except.bind_eq_ok.mp h
  cases h
  have hf := MemoryItem.supersede_eq_ok.mp hi
  refine ⟨⟨?_, rfl, ?_, ?_, ?_, ?_, ?_, ?_, ?_, ?_, retainedEvent_announces .., rfl⟩, ?_, ?_⟩ <;>
    simp [MemoryItem.replaceMetadata, hf]

/-- The graft revises its head and carries the text of the winning memory. -/
theorem graft_eq_ok {d : Draws} {source parent : MemoryItem}
    {x : MemoryItem × IntegrationEvent × ℕ} (h : graft case d source parent = .ok x) :
    Revises d parent x ∧ x.1.text = source.text ∧ x.1.status = .active := by
  unfold graft at h
  obtain ⟨i, hi, h⟩ := Except.bind_eq_ok.mp h
  cases h
  have hf := MemoryItem.supersede_eq_ok.mp hi
  refine ⟨⟨?_, rfl, ?_, ?_, ?_, ?_, ?_, ?_, ?_, ?_, retainedEvent_announces .., rfl⟩, ?_, ?_⟩ <;>
    simp [MemoryItem.replaceProvenance, hf]

/-- Writes revise heads one by one, each with two drawn identifiers. -/
inductive Revisions : Draws → List MemoryItem → List (MemoryItem × IntegrationEvent × ℕ) → Prop
  | nil (d : Draws) : Revisions d [] []
  | cons {d : Draws} {p : MemoryItem} {ps : List MemoryItem}
      {x : MemoryItem × IntegrationEvent × ℕ} {xs : List (MemoryItem × IntegrationEvent × ℕ)}
      (head : Revises d p x) (tail : Revisions (d.drop 2) ps xs) : Revisions d (p :: ps) (x :: xs)

theorem tombstones_eq_ok : ∀ {losers : List MemoryItem} {d : Draws}
    {xs : List (MemoryItem × IntegrationEvent × ℕ)}, tombstones case d losers = .ok xs →
      Revisions d losers xs
  | [], d, xs, h => by
    cases h
    exact .nil d
  | loser :: rest, d, xs, h => by
    obtain ⟨x, hx, h⟩ := Except.bind_eq_ok.mp h
    obtain ⟨ys, hys, h⟩ := Except.bind_eq_ok.mp h
    cases h
    exact .cons (tombstone_eq_ok hx).1 (tombstones_eq_ok hys)

/-- A tombstone keeps the text of the head it revises. -/
theorem tombstones_text : ∀ {losers : List MemoryItem} {d : Draws}
    {xs : List (MemoryItem × IntegrationEvent × ℕ)}, tombstones case d losers = .ok xs →
      ∀ x ∈ xs, ∃ p ∈ losers, x.1.supersedesId = some p.id ∧ x.1.text = p.text
  | [], d, xs, h => by
    cases h
    simp
  | loser :: rest, d, xs, h => by
    obtain ⟨x, hx, h⟩ := Except.bind_eq_ok.mp h
    obtain ⟨ys, hys, h⟩ := Except.bind_eq_ok.mp h
    cases h
    intro y hy
    rcases List.mem_cons.mp hy with rfl | hy
    · obtain ⟨hr, ht, -⟩ := tombstone_eq_ok hx
      exact ⟨loser, List.mem_cons_self .., hr.supersedes, ht⟩
    · obtain ⟨p, hp, hrest⟩ := tombstones_text hys y hy
      exact ⟨p, List.mem_cons_of_mem _ hp, hrest⟩

/-- Tombstones are archived. -/
theorem tombstones_status : ∀ {losers : List MemoryItem} {d : Draws}
    {xs : List (MemoryItem × IntegrationEvent × ℕ)}, tombstones case d losers = .ok xs →
      ∀ x ∈ xs, x.1.status = .archived
  | [], d, xs, h => by
    cases h
    simp
  | loser :: rest, d, xs, h => by
    obtain ⟨x, hx, h⟩ := Except.bind_eq_ok.mp h
    obtain ⟨ys, hys, h⟩ := Except.bind_eq_ok.mp h
    cases h
    intro y hy
    rcases List.mem_cons.mp hy with rfl | hy
    · exact (tombstone_eq_ok hx).2.2
    · exact tombstones_status hys y hy

/-- Either a winning head stays and all losing heads get tombstones, or the newest losing head
gets the text of the newest winning memory and the others get tombstones. -/
inductive ResolutionShape (case : ConflictCase) (d : Draws) (e : Evidence) :
    UUID → List (MemoryItem × IntegrationEvent × ℕ) → Prop
  | kept (applied : MemoryItem) (xs : List (MemoryItem × IntegrationEvent × ℕ))
      (head : applied ∈ e.winnerHeads) (stones : tombstones case d e.loserHeads = .ok xs) :
      ResolutionShape case d e applied.id xs
  | grafted (source parent : MemoryItem) (x : MemoryItem × IntegrationEvent × ℕ)
      (xs : List (MemoryItem × IntegrationEvent × ℕ)) (noHead : e.winnerHeads = [])
      (newest : e.winnerItems.argmax recencyKey = some source)
      (target : e.loserHeads.argmax recencyKey = some parent)
      (graft : graft case d source parent = .ok x)
      (stones : tombstones case (d.drop 2) (e.loserHeads.erase parent) = .ok xs) :
      ResolutionShape case d e x.1.id (x :: xs)

theorem resolutionWrites_shape {d : Draws} {e : Evidence} {applied : UUID}
    {xs : List (MemoryItem × IntegrationEvent × ℕ)}
    (h : resolutionWrites case d e = .ok (applied, xs)) : ResolutionShape case d e applied xs := by
  unfold resolutionWrites at h
  split at h
  · cases h
  rename_i source hs
  split at h
  · rename_i kept hk
    obtain ⟨ys, hys, h⟩ := Except.bind_eq_ok.mp h
    cases h
    exact .kept kept _ (List.argmax_mem hk) hys
  rename_i hnone
  split at h
  · cases h
  · rename_i parent hp
    obtain ⟨x, hx, h⟩ := Except.bind_eq_ok.mp h
    obtain ⟨ys, hys, h⟩ := Except.bind_eq_ok.mp h
    cases h
    exact .grafted source parent x ys (List.argmax_eq_none.mp hnone) hs hp hx hys

/-- The writes of a resolution revise exactly the losing heads. -/
theorem ResolutionShape.revisions {d : Draws} {e : Evidence} {applied : UUID}
    {xs : List (MemoryItem × IntegrationEvent × ℕ)} (h : ResolutionShape case d e applied xs) :
    ∃ parents, parents.Perm e.loserHeads ∧ Revisions d parents xs := by
  cases h with
  | kept _ _ _ stones => exact ⟨e.loserHeads, .refl _, tombstones_eq_ok stones⟩
  | grafted source parent x ys _ _ target graft stones =>
    exact ⟨parent :: e.loserHeads.erase parent,
      (List.perm_cons_erase (List.argmax_mem target)).symm,
      .cons (graft_eq_ok graft).1 (tombstones_eq_ok stones)⟩

/-- The evidence of a case as the ledger holds it. -/
def storedEvidence (l : Ledger) (case : ConflictCase) (winner : ConflictCandidate) : Evidence :=
  let items := (evidenceIds case).eraseDups.filterMap fun id => l.get case.tenantId id
  evidence case winner items (l.filterRecallableHeads case.tenantId (items.map fun i => i.id))

/-- An item that a lookup returned is the stored one under its identifier. -/
theorem find_storedItems {l : Ledger} {ids : List UUID} {t id : UUID} {i : MemoryItem}
    (h : (ids.filterMap fun id => l.get t id).find? (fun i => i.id = id) = some i) :
    i ∈ l.items.rows ∧ i.id = id ∧ i.tenantId = t ∧ id ∈ ids := by
  have hid : i.id = id := by simpa using List.find?_some h
  obtain ⟨id', hid', hg⟩ := List.mem_filterMap.mp (List.mem_of_find?_eq_some h)
  obtain ⟨hi, he, ht⟩ := Ledger.get_eq_some.mp hg
  exact ⟨hi, hid, ht, by rw [← hid, he]; exact hid'⟩

/-- Stored items of the looked-up identifiers are found. -/
theorem find_storedItems_of_mem {l : Ledger} {ids : List UUID} {t : UUID} {i : MemoryItem}
    (hi : i ∈ l.items.rows) (ht : i.tenantId = t) (hid : i.id ∈ ids) :
    (ids.filterMap fun id => l.get t id).find? (fun j => j.id = i.id) = some i := by
  cases hf : (ids.filterMap fun id => l.get t id).find? (fun j => j.id = i.id) with
  | none =>
    have hmem : i ∈ ids.filterMap fun id => l.get t id :=
      List.mem_filterMap.mpr ⟨i.id, hid, Ledger.get_eq_some.mpr ⟨hi, rfl, ht⟩⟩
    simpa using List.find?_eq_none.mp hf i hmem
  | some j =>
    obtain ⟨hj, hji, -⟩ := find_storedItems hf
    rw [l.items.eq_of_key_eq hj hi hji]

theorem mem_evidenceIds {c : ConflictCandidate} {id : UUID} (hc : c ∈ case.candidates)
    (hid : id ∈ c.evidenceIds) : id ∈ (evidenceIds case).eraseDups :=
  List.mem_eraseDups.mpr (List.mem_flatMap.mpr ⟨c, hc, hid⟩)

/-- Losing heads are the recallable heads of the tenant that belong to the evidence of another
value. -/
theorem mem_loserHeads {l : Ledger} {winner : ConflictCandidate} {i : MemoryItem} :
    i ∈ (storedEvidence l case winner).loserHeads ↔
      i ∈ l.items.rows ∧ i.tenantId = case.tenantId ∧
        l.isRecallableHead case.tenantId i.id = true ∧
          ∃ c ∈ case.candidates, c.value ≠ winner.value ∧ i.id ∈ c.evidenceIds := by
  simp only [storedEvidence, evidence, List.mem_flatMap, List.mem_filter, List.mem_filterMap]
  constructor
  · rintro ⟨c, ⟨hc, hne⟩, id, ⟨hid, hrec⟩, hf⟩
    obtain ⟨hi, rfl, ht, -⟩ := find_storedItems hf
    have hr := of_decide_eq_true hrec
    rw [Ledger.filterRecallableHeads, List.mem_filter] at hr
    exact ⟨hi, ht, hr.2, c, hc, of_decide_eq_true hne, hid⟩
  · rintro ⟨hi, ht, hr, c, hc, hne, hid⟩
    have hids := mem_evidenceIds hc hid
    refine ⟨c, ⟨hc, decide_eq_true hne⟩, i.id, ⟨hid, decide_eq_true ?_⟩,
      find_storedItems_of_mem hi ht hids⟩
    rw [Ledger.filterRecallableHeads, List.mem_filter]
    exact ⟨List.mem_map.mpr ⟨i, List.mem_filterMap.mpr ⟨i.id, hids,
      Ledger.get_eq_some.mpr ⟨hi, rfl, ht⟩⟩, rfl⟩, hr⟩

/-- Winning memories are those stored in the tenant under the evidence of the winning value. -/
theorem mem_winnerItems {l : Ledger} {winner : ConflictCandidate} {i : MemoryItem}
    (hw : winner ∈ case.candidates) :
    i ∈ (storedEvidence l case winner).winnerItems ↔
      i ∈ l.items.rows ∧ i.tenantId = case.tenantId ∧ i.id ∈ winner.evidenceIds := by
  constructor
  · intro h
    obtain ⟨id, hid, hf⟩ := List.mem_filterMap.mp h
    obtain ⟨hi, rfl, ht, -⟩ := find_storedItems hf
    exact ⟨hi, ht, hid⟩
  · rintro ⟨hi, ht, hid⟩
    exact List.mem_filterMap.mpr ⟨i.id, hid, find_storedItems_of_mem hi ht (mem_evidenceIds hw hid)⟩

/-- Winning heads are the winning memories that are recallable heads. -/
theorem mem_winnerHeads {l : Ledger} {winner : ConflictCandidate} {i : MemoryItem}
    (hw : winner ∈ case.candidates) :
    i ∈ (storedEvidence l case winner).winnerHeads ↔
      i ∈ (storedEvidence l case winner).winnerItems ∧
        l.isRecallableHead case.tenantId i.id = true := by
  simp only [storedEvidence, evidence, List.mem_filter, decide_eq_true_eq,
    Ledger.filterRecallableHeads]
  constructor
  · rintro ⟨hi, -, hr⟩
    exact ⟨hi, hr⟩
  · rintro ⟨hi, hr⟩
    obtain ⟨hm, ht, hid⟩ := (mem_winnerItems hw).mp hi
    exact ⟨hi, List.mem_map.mpr ⟨i, List.mem_filterMap.mpr ⟨i.id, mem_evidenceIds hw hid,
      Ledger.get_eq_some.mpr ⟨hm, rfl, ht⟩⟩, rfl⟩, hr⟩

/-- Looking identifiers up and reading them back drops some and reorders none. -/
private theorem filterMap_find_ids {items : List MemoryItem} (ids : List UUID) :
    ((ids.filterMap fun id => items.find? fun i => i.id = id).map fun i => i.id).Sublist ids := by
  induction ids with
  | nil => simp
  | cons id rest ih =>
    rw [List.filterMap_cons]
    cases hf : items.find? fun i => i.id = id with
    | none => exact ih.cons _
    | some i =>
      have hid : i.id = id := by simpa using List.find?_some hf
      rw [List.map_cons, hid]
      exact ih.cons_cons _

/-- Losing heads stand in the order of the evidence. -/
private theorem loserHeads_sublist (winner : ConflictCandidate) (items : List MemoryItem)
    (recallable : List UUID) :
    ((evidence case winner items recallable).loserHeads.map fun i => i.id).Sublist
      (evidenceIds case) := by
  simp only [evidence, evidenceIds]
  generalize case.candidates = cs
  induction cs with
  | nil => simp
  | cons c rest ih =>
    rw [List.flatMap_cons, List.filter_cons]
    split
    · rw [List.flatMap_cons, List.map_append]
      exact ((filterMap_find_ids _).trans List.filter_sublist).append ih
    · exact ih.trans (List.sublist_append_right ..)

/-- No losing head is listed twice. -/
theorem loserHeads_nodup {l : Ledger} {winner : ConflictCandidate}
    (hn : (evidenceIds case).Nodup) :
    ((storedEvidence l case winner).loserHeads.map fun i => i.id).Nodup :=
  hn.sublist (loserHeads_sublist ..)

/-- The outcome of `_apply_winner`. -/
inductive ApplyOutcome (s : InMemoryMemoryStore) (case : ConflictCase)
    (decision : ConflictReviewDecision) (value : String) (d : Draws) :
    Except Exn ConflictReviewDecision → InMemoryMemoryStore → Prop
  /-- It raised before its last store call. -/
  | raised (e : Exn) : ApplyOutcome s case decision value d (.error e) s
  /-- The writes of a resolution were handed to the store. -/
  | resolved (winner : ConflictCandidate) (applied : UUID)
      (writes : List (MemoryItem × IntegrationEvent × ℕ))
      (r : Except Exn ConflictReviewDecision) (t : InMemoryMemoryStore)
      (found : (case.candidates.reverse.find? fun c => c.value = value) = some winner)
      (built : resolutionWrites case d (storedEvidence s.toLedger case winner) =
        .ok (applied, writes))
      (outcome : InMemoryMemoryStore.ResolutionOutcome s
        { decision with appliedMemoryId := some applied } writes r t) :
      ApplyOutcome s case decision value d r t

theorem run_applyWinner (decision : ConflictReviewDecision) (value : String)
    (audit : Option AuditEvent) (d : Draws) :
    ApplyOutcome s case decision value d ((applyWinner case decision value audit d).run s).1
      ((applyWinner case decision value audit d).run s).2 := by
  unfold applyWinner
  cases hw : case.candidates.reverse.find? fun c => c.value = value with
  | none => exact .raised _
  | some winner =>
    simp only [Proc.run_bind, Proc.run_read]
    split
    · exact .raised _
    · simp only [Proc.run_bind, Proc.run_read, Proc.run_ofExcept]
      cases hb : resolutionWrites case d (storedEvidence s.toLedger case winner) with
      | error e =>
        simp only [storedEvidence] at hb
        rw [hb]
        exact .raised _
      | ok r =>
        obtain ⟨applied, writes⟩ := r
        have hb' := hb
        simp only [storedEvidence] at hb'
        rw [hb']
        simp only [Proc.run_invoke]
        exact .resolved winner applied writes _ _ hw hb
          InMemoryMemoryStore.applyConflictResolution_outcome

/-- The review of a case before its resolution. -/
def pendingDecision (t w caseId : UUID) (status : ConflictReviewStatus)
    (winnerValue : Option String) (reason : String) (d : Draws) : ConflictReviewDecision where
  tenantId := t
  workspaceId := w
  caseId := caseId
  status := status
  winnerValue := winnerValue
  reason := reason
  appliedMemoryId := none
  updatedAt := d.now 0

/-- The case that a decision is about. -/
def findCase (rt : Runtime) (s : InMemoryMemoryStore) (t w caseId : UUID) : Option ConflictCase :=
  (listCases rt s t w true).find? fun c => c.id = caseId

/-- The outcome of a decision. -/
inductive DecideOutcome (rt : Runtime) (s : InMemoryMemoryStore) (t w caseId : UUID)
    (status : ConflictReviewStatus) (winnerValue : Option String) (reason : String) (d : Draws) :
    Except Exn ConflictReviewDecision → InMemoryMemoryStore → Prop
  /-- The call raised before it wrote. -/
  | raised (e : Exn) : DecideOutcome rt s t w caseId status winnerValue reason d (.error e) s
  /-- The decision was found applied. -/
  | found (case : ConflictCase) (review : ConflictReviewDecision)
      (listed : findCase rt s t w caseId = some case) (reviewed : case.review = some review)
      (applied : review.appliedMemoryId ≠ none)
      (same : review.status = status ∧ review.winnerValue = winnerValue) :
      DecideOutcome rt s t w caseId status winnerValue reason d (.ok review) s
  /-- The review was saved without memory writes. -/
  | saved (case : ConflictCase) (s' : InMemoryMemoryStore)
      (listed : findCase rt s t w caseId = some case) (plain : status.appliesWinner = false)
      (ledger : s'.toLedger = s.toLedger) (proposals : s'.proposals = s.proposals)
      (reviews : s'.conflictReviews = s.conflictReviews.put
        (pendingDecision t w caseId status winnerValue reason d))
      (unapplied : ∀ r, case.review = some r → r.appliedMemoryId = none) :
      DecideOutcome rt s t w caseId status winnerValue reason d
        (.ok (pendingDecision t w caseId status winnerValue reason d)) s'
  /-- The winner is being applied. -/
  | applied (case : ConflictCase) (r : Except Exn ConflictReviewDecision)
      (s' : InMemoryMemoryStore) (listed : findCase rt s t w caseId = some case)
      (winning : status.appliesWinner = true)
      (outcome : ApplyOutcome s case (pendingDecision t w caseId status winnerValue reason d)
        (Text.strip (winnerValue.getD "")) (d.tick 1) r s') :
      DecideOutcome rt s t w caseId status winnerValue reason d r s'

/-- `decide` raises, returns an applied review, saves the review, or applies the winner. -/
theorem run_decide (rt : Runtime) (s : InMemoryMemoryStore) (t w caseId : UUID)
    (status : ConflictReviewStatus) (winnerValue : Option String) (reason : String)
    (audit : Option AuditEvent) (d : Draws) :
    let out := (decide rt t w caseId status winnerValue reason audit d).run s
    DecideOutcome rt s t w caseId status winnerValue reason d out.1 out.2 := by
  intro out
  have hout : out = (decide rt t w caseId status winnerValue reason audit d).run s := rfl
  clear_value out
  subst hout
  unfold decide
  split
  · exact .raised _
  · simp only [Proc.run_bind, Proc.run_read]
    cases hf : (listCases rt s t w true).find? fun c => c.id = caseId with
    | none => exact .raised _
    | some case =>
      simp only
      split
      · rename_i review hr
        obtain ⟨hreview, happlied⟩ := Option.filter_eq_some_iff.mp hr
        split
        · rename_i hsame
          exact .found case review hf hreview (of_decide_eq_true happlied) hsame
        · exact .raised _
      · rename_i hnone
        split
        · rename_i hstatus
          exact .applied case _ _ hf hstatus (run_applyWinner _ _ _ _)
        · rename_i hstatus
          simp only [Proc.run_invoke]
          refine .saved case _ hf (by simpa using hstatus)
            (by simp [InMemoryMemoryStore.saveConflictReview])
            (by simp [InMemoryMemoryStore.saveConflictReview])
            (by simp [InMemoryMemoryStore.saveConflictReview, pendingDecision])
            fun r hr => ?_
          simpa using Option.filter_eq_none_iff.mp hnone r hr

/-- A decision touches neither keys nor proposals. -/
theorem DecideOutcome.untouched {rt : Runtime} {s s' : InMemoryMemoryStore} {t w caseId : UUID}
    {status : ConflictReviewStatus} {winnerValue : Option String} {reason : String} {d : Draws}
    {r : Except Exn ConflictReviewDecision}
    (h : DecideOutcome rt s t w caseId status winnerValue reason d r s') :
    s'.idempotency = s.idempotency ∧ s'.proposals = s.proposals := by
  cases h with
  | raised | found => exact ⟨rfl, rfl⟩
  | saved _ _ _ _ ledger proposals => exact ⟨congrArg Ledger.idempotency ledger, proposals⟩
  | applied case _ _ _ _ outcome =>
    cases outcome with
    | raised => exact ⟨rfl, rfl⟩
    | resolved winner applied writes _ _ _ _ outcome =>
      cases outcome with
      | replayed | raised => exact ⟨rfl, rfl⟩
      | committed _ _ _ ledger proposals =>
        refine ⟨?_, proposals⟩
        rw [ledger]
        refine Ledger.idempotency_commitAll fun v hv => ?_
        obtain ⟨x, -, rfl⟩ := List.mem_map.mp hv
        rfl

namespace Revisions

variable {d : Draws} {ps : List MemoryItem} {xs : List (MemoryItem × IntegrationEvent × ℕ)}

theorem length_eq (h : Revisions d ps xs) : xs.length = ps.length := by
  induction h with
  | nil => rfl
  | cons _ _ ih => simp [ih]

/-- Every write revises one of the heads. -/
theorem exists_parent (h : Revisions d ps xs) {x : MemoryItem × IntegrationEvent × ℕ}
    (hx : x ∈ xs) : ∃ p ∈ ps, ∃ n, 2 * n + 1 < 2 * ps.length ∧ Revises (d.drop (2 * n)) p x := by
  induction h with
  | nil => simp at hx
  | @cons d p ps y ys hy _ ih =>
    rcases List.mem_cons.mp hx with rfl | hx
    · refine ⟨p, List.mem_cons_self .., 0, by simp; omega, ?_⟩
      have hd : d.drop (2 * 0) = d := by simp [Draws.drop]
      rwa [hd]
    · obtain ⟨q, hq, n, hn, hr⟩ := ih hx
      refine ⟨q, List.mem_cons_of_mem _ hq, n + 1, by simp; omega, ?_⟩
      have hd : d.drop (2 * (n + 1)) = (d.drop 2).drop (2 * n) := by
        simp only [Draws.drop, Draws.mk.injEq]
        constructor <;> funext i <;> congr 1 <;> omega
      rwa [hd]

/-- The drawn identifiers, in order. -/
theorem ids_eq (h : Revisions d ps xs) :
    (xs.map fun x => x.1.id) = (List.range xs.length).map fun n => d.uuid4 (2 * n) := by
  induction h with
  | nil => rfl
  | cons hy _ ih =>
    rw [List.map_cons, List.length_cons, List.range_succ_eq_map, List.map_cons, List.map_map, ih,
      hy.id]
    refine congrArg₂ _ rfl (List.map_congr_left fun n _ => ?_)
    simp only [Draws.drop, Function.comp]
    congr 1
    omega

theorem eventIds_eq (h : Revisions d ps xs) :
    (xs.map fun x => x.2.1.id) = (List.range xs.length).map fun n => d.uuid4 (2 * n + 1) := by
  induction h with
  | nil => rfl
  | cons hy _ ih =>
    rw [List.map_cons, List.length_cons, List.range_succ_eq_map, List.map_cons, List.map_map, ih,
      hy.eventId]
    refine congrArg₂ _ rfl (List.map_congr_left fun n _ => ?_)
    simp only [Draws.drop, Function.comp]
    congr 1
    omega

/-- The revised identifiers are those of the heads. -/
theorem supersedes_eq (h : Revisions d ps xs) :
    (xs.map fun x => x.1.supersedesId) = ps.map fun p => some p.id := by
  induction h with
  | nil => rfl
  | cons hy _ ih => rw [List.map_cons, List.map_cons, ih, hy.supersedes]

end Revisions

end ConflictService

end MemoryPlane
