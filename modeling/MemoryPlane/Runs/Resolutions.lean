import MemoryPlane.Runs.Visibility
import MemoryPlane.Services.ConflictEvidence

/-!
# What an applied decision leaves behind

A decision that applies a winner leaves the slot of its case with heads of the winning value
only, names one of them, and appends nothing but revisions of heads with their events. A
decision that raises leaves the store as it was.
-/

namespace MemoryPlane

open ConflictService InMemoryMemoryStore

/-- What a newly applied decision leaves behind. -/
structure WinnerApplied (rt : Runtime) (s s' : InMemoryMemoryStore) (t w : UUID)
    (case : ConflictCase) (value : String) (decision : ConflictReviewDecision) : Prop where
  /-- The heads of the slot have the winning value. -/
  heads : ∀ i ∈ s'.items.rows, InSlot rt t w case.key i → s'.isRecallableHead t i.id = true →
    (slotOf rt i).value = value
  /-- The decision names one of them. -/
  applied : ∃ i ∈ s'.items.rows, decision.appliedMemoryId = some i.id ∧
    InSlot rt t w case.key i ∧ s'.isRecallableHead t i.id = true ∧ (slotOf rt i).value = value
  /-- Revisions of heads of the slot were appended, each with one event. -/
  appended : ∃ writes : List (MemoryItem × IntegrationEvent),
    s'.items.rows = s.items.rows ++ writes.map Prod.fst ∧
      s'.events = s.events ++ writes.map Prod.snd ∧
        ∀ x ∈ writes, x.2.Announces x.1 ∧ ∃ p ∈ s.items.rows, x.1.supersedesId = some p.id ∧
          InSlot rt t w case.key p ∧ s.isRecallableHead t p.id = true

/-- How a decision was applied. -/
structure Application (rt : Runtime) (s s' : InMemoryMemoryStore) (t w caseId : UUID)
    (value : String) (d : Draws) (case : ConflictCase) (winner : ConflictCandidate)
    (applied : UUID) (writes : List (MemoryItem × IntegrationEvent × ℕ)) : Prop where
  listed : findCase rt s t w caseId = some case
  candidate : winner ∈ case.candidates
  value : winner.value = value
  shape : ResolutionShape case (d.tick 1) (storedEvidence s.toLedger case winner) applied writes
  admitted : s.toLedger.Admits (ledgerWrites writes)
  ledger : s'.toLedger = s.toLedger.commitAll (ledgerWrites writes)

variable {rt : Runtime} {s s' : InMemoryMemoryStore} {t w caseId : UUID} {case : ConflictCase}
  {winner : ConflictCandidate} {d : Draws} {value : String} {applied : UUID}
  {writes : List (MemoryItem × IntegrationEvent × ℕ)} {status : ConflictReviewStatus}
  {winnerValue : Option String} {reason : String} {audit : Option AuditEvent}
  {decision : ConflictReviewDecision}

/-- A decision that raises wrote nothing. -/
theorem ConflictService.DecideOutcome.eq_of_error {e : Exn}
    (h : DecideOutcome rt s t w caseId status winnerValue reason d (.error e) s') : s' = s := by
  cases h with
  | raised => rfl
  | applied _ _ _ _ _ outcome =>
    cases outcome with
    | raised => rfl
    | resolved _ _ _ _ _ _ _ outcome =>
      cases outcome with
      | raised => rfl

/-- A decision that newly names a winner applies it. -/
theorem decide_applies (hs : s.Chained) (hd : d.Fresh (2 * s.items.rows.length) s.usedIds)
    (hstatus : status.appliesWinner = true) (hpending : Pending s t caseId)
    (h : DecideOutcome rt s t w caseId status winnerValue reason d (.ok decision) s') :
    ∃ case winner applied writes,
      Application rt s s' t w caseId (Text.strip (winnerValue.getD "")) d case winner applied
        writes ∧
      decision = { pendingDecision t w caseId status winnerValue reason d with
        appliedMemoryId := some applied } ∧
      s'.conflictReviews = s.conflictReviews.put decision := by
  cases h with
  | found case review listed reviewed happlied =>
    have hid : case.id = caseId := by simpa using List.find?_some listed
    have hrev := listCases_review (List.mem_of_find?_eq_some listed) reviewed
    exact absurd (hpending _ (hid ▸ hrev)) happlied
  | saved _ _ _ plain =>
    rw [plain] at hstatus
    cases hstatus
  | applied case _ _ listed _ outcome =>
    cases outcome with
    | resolved winner applied writes _ _ found built outcome =>
      cases outcome with
      | replayed _ stored happlied => exact absurd (hpending _ stored) happlied
      | committed _ _ checked ledger _ reviews =>
        refine ⟨case, winner, applied, writes, ⟨listed, ?_, ?_, resolutionWrites_shape built, ?_,
          ledger⟩, rfl, reviews⟩
        · exact List.mem_reverse.mp (List.mem_of_find?_eq_some found)
        · simpa using List.find?_some found
        · exact ConflictService.admits_resolution hs hd (List.mem_of_find?_eq_some listed) built
            checked

namespace Application

theorem mem (h : Application rt s s' t w caseId value d case winner applied writes) :
    case ∈ listCases rt s t w true := List.mem_of_find?_eq_some h.listed

theorem rows (h : Application rt s s' t w caseId value d case winner applied writes) :
    s'.items.rows = s.items.rows ++ writes.map Prod.fst := by
  rw [h.ledger, h.admitted.rows_commitAll, ledgerWrites, List.map_map]
  rfl

theorem events (h : Application rt s s' t w caseId value d case winner applied writes) :
    s'.events = s.events ++ writes.map fun x => x.2.1 := by
  rw [h.ledger, Ledger.events_commitAll, ledgerWrites, List.map_map]
  rfl

theorem chained (h : Application rt s s' t w caseId value d case winner applied writes)
    (hs : s.Chained) : s'.Chained := by
  rw [h.ledger]
  exact hs.commitAll h.admitted

/-- The losing heads are the heads of the slot with another value. -/
theorem mem_losers (h : Application rt s s' t w caseId value d case winner applied writes)
    {i : MemoryItem} : i ∈ (storedEvidence s.toLedger case winner).loserHeads ↔
      i ∈ s.items.rows ∧ InSlot rt t w case.key i ∧ s.isRecallableHead t i.id = true ∧
        (slotOf rt i).value ≠ value := by
  have ht := (listCases_evidence h.mem).1
  rw [mem_loserHeads, ht]
  constructor
  · rintro ⟨hi, -, hr, c, hc, hne, hid⟩
    obtain ⟨hin, hv⟩ := (mem_evidence_iff h.mem hc hi).mp hid
    exact ⟨hi, hin, hr, fun he => hne (hv.symm.trans (he.trans h.value.symm))⟩
  · rintro ⟨hi, hin, hr, hne⟩
    obtain ⟨c, hc, hv, hid⟩ := exists_candidate_of_inSlot h.mem hi hin
    exact ⟨hi, hin.tenant, hr, c, hc, fun he => hne (hv.symm.trans (he.trans h.value)), hid⟩

/-- The winning memories are the memories of the slot with the winning value. -/
theorem mem_winners (h : Application rt s s' t w caseId value d case winner applied writes)
    {i : MemoryItem} : i ∈ (storedEvidence s.toLedger case winner).winnerItems ↔
      i ∈ s.items.rows ∧ InSlot rt t w case.key i ∧ (slotOf rt i).value = value := by
  rw [mem_winnerItems_iff h.listed h.candidate]
  constructor
  · rintro ⟨hi, hid⟩
    obtain ⟨hin, hv⟩ := (mem_evidence_iff h.mem h.candidate hi).mp hid
    exact ⟨hi, hin, hv.trans h.value⟩
  · rintro ⟨hi, hin, hv⟩
    exact ⟨hi, (mem_evidence_iff h.mem h.candidate hi).mpr ⟨hin, hv.trans h.value.symm⟩⟩

/-- The revised heads, one for each write. -/
theorem revisions (h : Application rt s s' t w caseId value d case winner applied writes) :
    ∃ parents, parents.Perm (storedEvidence s.toLedger case winner).loserHeads ∧
      Revisions (d.tick 1) parents writes := h.shape.revisions

/-- Every losing head is revised. -/
theorem exists_write (h : Application rt s s' t w caseId value d case winner applied writes)
    {i : MemoryItem} (hi : i ∈ (storedEvidence s.toLedger case winner).loserHeads) :
    ∃ x ∈ writes, x.1.supersedesId = some i.id := by
  obtain ⟨parents, hperm, hrev⟩ := h.revisions
  have hmem : some i.id ∈ writes.map fun x => x.1.supersedesId := by
    rw [hrev.supersedes_eq]
    exact List.mem_map.mpr ⟨i, hperm.mem_iff.mpr hi, rfl⟩
  obtain ⟨x, hx, he⟩ := List.mem_map.mp hmem
  exact ⟨x, hx, he⟩

/-- Every write revises a losing head. -/
theorem exists_loser (h : Application rt s s' t w caseId value d case winner applied writes)
    {x : MemoryItem × IntegrationEvent × ℕ} (hx : x ∈ writes) :
    ∃ p ∈ (storedEvidence s.toLedger case winner).loserHeads, ∃ d', Revises d' p x := by
  obtain ⟨parents, hperm, hrev⟩ := h.revisions
  obtain ⟨p, hp, n, -, hr⟩ := hrev.exists_parent hx
  exact ⟨p, hperm.mem_iff.mp hp, _, hr⟩

/-- A write is a tombstone, or the graft with a winning text. -/
theorem write_cases (h : Application rt s s' t w caseId value d case winner applied writes)
    {x : MemoryItem × IntegrationEvent × ℕ} (hx : x ∈ writes) :
    (x.1.status = .archived ∧ ∃ p ∈ (storedEvidence s.toLedger case winner).loserHeads,
      x.1.supersedesId = some p.id ∧ x.1.text = p.text) ∨
    (x.1.id = applied ∧ x.1.status = .active ∧
      ∃ source ∈ (storedEvidence s.toLedger case winner).winnerItems, x.1.text = source.text) := by
  have hstones : ∀ {losers : List MemoryItem} {d : Draws}
      {xs : List (MemoryItem × IntegrationEvent × ℕ)}, tombstones case d losers = .ok xs →
        losers ⊆ (storedEvidence s.toLedger case winner).loserHeads → x ∈ xs →
          x.1.status = .archived ∧ ∃ p ∈ (storedEvidence s.toLedger case winner).loserHeads,
            x.1.supersedesId = some p.id ∧ x.1.text = p.text := by
    intro losers d xs hst hsub hmem
    obtain ⟨p, hp, hsup, htext⟩ := tombstones_text hst x hmem
    exact ⟨tombstones_status hst x hmem, p, hsub hp, hsup, htext⟩
  cases h.shape with
  | kept _ _ _ stones => exact .inl (hstones stones (List.Subset.refl _) hx)
  | grafted source parent y ys _ newest target graft stones =>
    rcases List.mem_cons.mp hx with rfl | hx
    · obtain ⟨-, htext, hactive⟩ := graft_eq_ok graft
      exact .inr ⟨rfl, hactive, source, List.argmax_mem newest, htext⟩
    · exact .inl (hstones stones (List.erase_subset ..) hx)

/-- A written item belongs to the slot. -/
theorem write_inSlot (h : Application rt s s' t w caseId value d case winner applied writes)
    {x : MemoryItem × IntegrationEvent × ℕ} (hx : x ∈ writes) : InSlot rt t w case.key x.1 := by
  obtain ⟨p, hp, d', hr⟩ := h.exists_loser hx
  obtain ⟨hpm, hpin, -, -⟩ := h.mem_losers.mp hp
  have hkey : (slotOf rt x.1).key = case.key := by
    rcases h.write_cases hx with ⟨-, q, hq, -, htext⟩ | ⟨-, -, source, hsource, htext⟩
    · rw [slotOf_congr htext]
      exact (h.mem_losers.mp hq).2.1.key
    · rw [slotOf_congr htext]
      exact (h.mem_winners.mp hsource).2.1.key
  exact ⟨hr.tenant.trans hpin.tenant, hr.workspace.trans hpin.workspace,
    hr.layer.trans hpin.layer, hkey⟩

/-- After the decision the heads of the slot have the winning value. -/
theorem heads (h : Application rt s s' t w caseId value d case winner applied writes)
    (hs : s.Chained) {i : MemoryItem} (hi : i ∈ s'.items.rows) (hin : InSlot rt t w case.key i)
    (hr : s'.isRecallableHead t i.id = true) : (slotOf rt i).value = value := by
  have hs' := h.chained hs
  have hhead := (hs'.isRecallableHead_iff hi).mp (hin.tenant ▸ hr)
  have hi' := hi
  rw [h.rows] at hi'
  rcases List.mem_append.mp hi' with hold | hnew
  · by_contra hne
    have hun : s.Unreplaced i := fun y hy => hhead.2 y (by
      rw [h.rows]
      exact List.mem_append_left _ hy)
    have hhead' : s.isRecallableHead t i.id = true := by
      have := (hs.isRecallableHead_iff hold).mpr ⟨hhead.1, hun⟩
      rwa [hin.tenant] at this
    obtain ⟨x, hx, hsup⟩ := h.exists_write (h.mem_losers.mpr ⟨hold, hin, hhead', hne⟩)
    refine hhead.2 x.1 ?_ hsup
    rw [h.rows]
    exact List.mem_append_right _ (List.mem_map_of_mem hx)
  · obtain ⟨x, hx, rfl⟩ := List.mem_map.mp hnew
    rcases h.write_cases hx with ⟨hstatus, -⟩ | ⟨-, -, source, hsource, htext⟩
    · rw [hstatus] at hhead
      cases hhead.1
    · rw [slotOf_congr htext]
      exact (h.mem_winners.mp hsource).2.2

/-- Nothing replaces an item that no write revises. -/
theorem unreplaced (h : Application rt s s' t w caseId value d case winner applied writes)
    {i : MemoryItem} (hold : s.Unreplaced i)
    (hnew : ∀ p ∈ (storedEvidence s.toLedger case winner).loserHeads, p.id ≠ i.id) :
    s'.Unreplaced i := by
  intro y hy hp
  rw [h.rows] at hy
  rcases List.mem_append.mp hy with hy | hy
  · exact hold y hy hp
  · obtain ⟨x, hx, rfl⟩ := List.mem_map.mp hy
    obtain ⟨p, hploser, d', hr⟩ := h.exists_loser hx
    have hsup : x.1.supersedesId = some i.id := hp
    rw [hr.supersedes, Option.some.injEq] at hsup
    exact hnew p hploser hsup

/-- The decision names a head of the winning value. -/
theorem applied_head (h : Application rt s s' t w caseId value d case winner applied writes)
    (hs : s.Chained) : ∃ i ∈ s'.items.rows, i.id = applied ∧ InSlot rt t w case.key i ∧
      s'.isRecallableHead t i.id = true ∧ (slotOf rt i).value = value := by
  have hs' := h.chained hs
  have hct := (listCases_evidence h.mem).1
  have hshape := h.shape
  cases hshape with
  | kept kept _ head _ =>
    obtain ⟨hitem, hr⟩ := (mem_winnerHeads h.candidate).mp head
    obtain ⟨hi, hin, hv⟩ := h.mem_winners.mp hitem
    have hmem : kept ∈ s'.items.rows := by
      rw [h.rows]
      exact List.mem_append_left _ hi
    rw [hct, ← hin.tenant] at hr
    obtain ⟨hlive, hun⟩ := (hs.isRecallableHead_iff hi).mp hr
    refine ⟨kept, hmem, rfl, hin, ?_, hv⟩
    rw [← hin.tenant, hs'.isRecallableHead_iff hmem]
    refine ⟨hlive, h.unreplaced hun fun p hp he => ?_⟩
    obtain ⟨hpm, -, -, hne⟩ := h.mem_losers.mp hp
    obtain rfl : p = kept := s.items.eq_of_key_eq hpm hi he
    exact hne hv
  | grafted source parent x xs noHead newest target graft stones =>
    have hx : x ∈ x :: xs := List.mem_cons_self ..
    obtain ⟨hrev, htext, hactive⟩ := graft_eq_ok graft
    have hin := h.write_inSlot hx
    have hmem : x.1 ∈ s'.items.rows := by
      rw [h.rows]
      exact List.mem_append_right _ (List.mem_map_of_mem hx)
    have hfresh : ∀ i ∈ s.items.rows, i.id ≠ x.1.id := by
      have hnone := h.admitted.freshItems ⟨x.1, x.2.1, none⟩ (List.mem_map_of_mem hx)
      exact Table.find_eq_none.mp hnone
    refine ⟨x.1, hmem, rfl, hin, ?_, ?_⟩
    · rw [← hin.tenant, hs'.isRecallableHead_iff hmem]
      refine ⟨by rw [hactive]; rfl, h.unreplaced (fun y hy hp => ?_) fun p hp => ?_⟩
      · obtain ⟨p, hpm, hpid, -⟩ := hs.grounded y hy _ hp
        exact hfresh p hpm hpid
      · exact hfresh p (h.mem_losers.mp hp).1
    · rw [slotOf_congr htext]
      exact (h.mem_winners.mp (List.argmax_mem newest)).2.2

/-- An application has the effect that its decision promises. -/
theorem winnerApplied (h : Application rt s s' t w caseId value d case winner applied writes)
    (hs : s.Chained) (hdec : decision.appliedMemoryId = some applied) :
    WinnerApplied rt s s' t w case value decision where
  heads i hi hin hr := h.heads hs hi hin hr
  applied := by
    obtain ⟨i, hi, rfl, hrest⟩ := h.applied_head hs
    exact ⟨i, hi, hdec, hrest⟩
  appended := by
    refine ⟨writes.map fun x => (x.1, x.2.1), ?_, ?_, ?_⟩
    · rw [h.rows, List.map_map]
      rfl
    · rw [h.events, List.map_map]
      rfl
    · intro x hx
      obtain ⟨y, hy, rfl⟩ := List.mem_map.mp hx
      obtain ⟨p, hp, d', hr⟩ := h.exists_loser hy
      obtain ⟨hpm, hpin, hphead, -⟩ := h.mem_losers.mp hp
      exact ⟨hr.announces, p, hpm, hr.supersedes, hpin, hphead⟩

end Application

/-- A decision that newly applies a winner makes its value the only current one of the slot; a
decision that raises changes nothing. -/
theorem decide_postcondition {env : Deployment} (h : Reachable env s)
    (hd : d.Fresh (2 * s.items.rows.length) s.usedIds) :
    let out := (decide env.runtime t w caseId status winnerValue reason audit d).run s
    (∀ decision, status.appliesWinner = true → Pending s t caseId → out.1 = .ok decision →
      ∃ case, findCase env.runtime s t w caseId = some case ∧
        ∃ winner ∈ case.candidates, winner.value = Text.strip (winnerValue.getD "") ∧
          WinnerApplied env.runtime s out.2 t w case winner.value decision) ∧
    ∀ e, out.1 = .error e → out.2 = s := by
  intro out
  have hout := run_decide env.runtime s t w caseId status winnerValue reason audit d
  have hs := h.consistent.chained
  refine ⟨fun decision hstatus hpending hok => ?_, fun e herr => ?_⟩
  · have hdec : DecideOutcome env.runtime s t w caseId status winnerValue reason d (.ok decision)
        out.2 := hok ▸ hout
    obtain ⟨case, winner, applied, writes, happ, hdecision, -⟩ :=
      decide_applies hs hd hstatus hpending hdec
    refine ⟨case, happ.listed, winner, happ.candidate, happ.value, ?_⟩
    rw [happ.value]
    exact happ.winnerApplied hs (by rw [hdecision])
  · have herr' : DecideOutcome env.runtime s t w caseId status winnerValue reason d (.error e)
        out.2 := herr ▸ hout
    exact herr'.eq_of_error

/-- The vault's case was not resolved before. -/
theorem vaultShared_pending : Pending vaultShared (UUID.ofNat 1)
    (UUID.ofNat 14354832276281309565388398086428626184) := by
  intro review hr
  have hnone : vaultShared.conflictReviews.find (UUID.ofNat 1,
      UUID.ofNat 14354832276281309565388398086428626184) = none := by decide +kernel
  rw [hnone] at hr
  cases hr

/-- The decision on the vault makes its value the only current one. -/
theorem decide_postcondition_example : ∃ decision case,
    (vaultDecision.run vaultShared).1 = .ok decision ∧
      WinnerApplied vaultDeployment.runtime vaultShared (vaultDecision.run vaultShared).2
        (UUID.ofNat 1) (UUID.ofNat 2) case "alice" decision := by
  obtain ⟨decision, hok⟩ := Except.exists_of_isOk (x := (vaultDecision.run vaultShared).1)
    (by decide +kernel)
  obtain ⟨hpost, -⟩ := decide_postcondition vaultShared_reachable (d := drawsFrom 40)
    (by decide +kernel)
  obtain ⟨case, -, winner, -, hvalue, happlied⟩ := hpost decision rfl vaultShared_pending hok
  have hstrip : Text.strip "alice" = "alice" := by decide +kernel
  rw [hvalue, Option.getD_some, hstrip] at happlied
  exact ⟨decision, case, hok, happlied⟩

end MemoryPlane
