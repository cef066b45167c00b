import MemoryPlane.Domain.Visibility
import MemoryPlane.Runs.Chains

/-!
# Visibility of conflict resolutions

A decision may graft the text of the winning memory onto the newest losing head, and the new
revision keeps the scope and owner of that head. Readers of the head thereby see the text,
whoever was allowed to see it before. The condition under which nobody learns a new text is
exact.
-/

namespace MemoryPlane

open ConflictService InMemoryMemoryStore

/-- A successful decision shows no text to new readers. -/
structure KeepsVisibility (rt : Runtime) (s s' : InMemoryMemoryStore) (t w caseId : UUID) :
    Prop where
  /-- An appended item with a text other than its parent's copies it from evidence that all
  its readers could see. -/
  copies : ∀ case, findCase rt s t w caseId = some case →
    ∀ x ∈ s'.items.rows, x ∉ s.items.rows → ∀ p ∈ s.items.rows, x.supersedesId = some p.id →
      x.text ≠ p.text → ∃ e ∈ s.items.rows, e.id ∈ evidenceIds case ∧ e.text = x.text ∧
        ∀ r : Reader, r.Allowed x → r.Allowed e
  /-- A reader sees no text afterwards that the same reader could not see before. -/
  texts : ∀ r : Reader, ∀ x ∈ s'.items.rows, r.Allowed x →
    ∃ e ∈ s.items.rows, r.Allowed e ∧ e.text = x.text

/-- The newest stored item with a property. -/
structure IsNewest (l : Ledger) (P : MemoryItem → Prop) (i : MemoryItem) : Prop where
  stored : i ∈ l.items.rows
  holds : P i
  newest : ∀ j ∈ l.items.rows, P j → recencyKey j ≤ recencyKey i

/-- Evidence of a candidate. -/
def IsEvidence (c : ConflictCandidate) (i : MemoryItem) : Prop := i.id ∈ c.evidenceIds

/-- A recallable head among the evidence of another value. -/
def IsLosingHead (l : Ledger) (case : ConflictCase) (winner : ConflictCandidate)
    (i : MemoryItem) : Prop :=
  l.isRecallableHead case.tenantId i.id = true ∧
    ∃ c ∈ case.candidates, c.value ≠ winner.value ∧ i.id ∈ c.evidenceIds

/-- No resolution was applied to the case before. -/
def Pending (s : InMemoryMemoryStore) (t caseId : UUID) : Prop :=
  ∀ review, s.conflictReviews.find (t, caseId) = some review → review.appliedMemoryId = none

/-- The condition on the state: if a resolution is due and the winning value has no recallable
head left, then the newest losing head has the text of the newest winning memory already, or
some evidence with that text is open to the head's readers. -/
def GraftCovered (rt : Runtime) (s : InMemoryMemoryStore) (t w caseId : UUID)
    (status : ConflictReviewStatus) (winnerValue : Option String) : Prop :=
  status.appliesWinner = true → Pending s t caseId →
    ∀ case, findCase rt s t w caseId = some case →
      ∀ winner ∈ case.candidates, winner.value = Text.strip (winnerValue.getD "") →
        (∀ i ∈ s.items.rows, IsEvidence winner i → s.isRecallableHead t i.id = false) →
          ∀ source parent, IsNewest s.toLedger (IsEvidence winner) source →
            IsNewest s.toLedger (IsLosingHead s.toLedger case winner) parent →
              source.text = parent.text ∨
                ∃ e ∈ s.items.rows, e.id ∈ evidenceIds case ∧ e.text = source.text ∧
                  Covers e parent

variable {rt : Runtime} {s s' : InMemoryMemoryStore} {t w caseId : UUID} {case : ConflictCase}
  {winner : ConflictCandidate} {d : Draws}

theorem recencyKey_injective {i j : MemoryItem} (hi : i ∈ s.items.rows) (hj : j ∈ s.items.rows)
    (h : recencyKey i = recencyKey j) : i = j := by
  have hp := congrArg ofLex h
  exact s.items.eq_of_key_eq hi hj (congrArg (fun k => k.2) hp)

/-- The newest item with a property is what `max` returns on the list of these items. -/
theorem isNewest_iff_argmax {P : MemoryItem → Prop} {xs : List MemoryItem}
    (hxs : ∀ i, i ∈ xs ↔ i ∈ s.items.rows ∧ P i) {i : MemoryItem} :
    xs.argmax recencyKey = some i ↔ IsNewest s.toLedger P i := by
  constructor
  · intro h
    obtain ⟨hi, hp⟩ := (hxs i).mp (List.argmax_mem h)
    exact ⟨hi, hp, fun j hj hpj => List.le_of_mem_argmax ((hxs j).mpr ⟨hj, hpj⟩) h⟩
  · rintro ⟨hi, hp, hn⟩
    cases ha : xs.argmax recencyKey with
    | none =>
      rw [List.argmax_eq_none] at ha
      have hmem := (hxs i).mpr ⟨hi, hp⟩
      rw [ha] at hmem
      cases hmem
    | some j =>
      obtain ⟨hj, hpj⟩ := (hxs j).mp (List.argmax_mem ha)
      have hle := List.le_of_mem_argmax ((hxs i).mpr ⟨hi, hp⟩) ha
      rw [recencyKey_injective hj hi (le_antisymm (hn j hj hpj) hle)]

/-- The winning memories of a listed case. -/
theorem mem_winnerItems_iff (listed : findCase rt s t w caseId = some case)
    (hw : winner ∈ case.candidates) (i : MemoryItem) :
    i ∈ (storedEvidence s.toLedger case winner).winnerItems ↔
      i ∈ s.items.rows ∧ IsEvidence winner i := by
  rw [mem_winnerItems hw]
  constructor
  · rintro ⟨hi, -, hid⟩
    exact ⟨hi, hid⟩
  · rintro ⟨hi, hid⟩
    have hmem := List.mem_of_find?_eq_some listed
    obtain ⟨ht, -, -⟩ := listCases_evidence hmem
    obtain ⟨j, hj, hji, hjt, -⟩ := listCases_evidence_stored hmem
      (List.mem_flatMap.mpr ⟨winner, hw, hid⟩)
    obtain rfl : j = i := s.items.eq_of_key_eq hj hi hji
    exact ⟨hi, hjt.trans ht.symm, hid⟩

/-- The losing heads of a listed case. -/
theorem mem_loserHeads_iff (i : MemoryItem) :
    i ∈ (storedEvidence s.toLedger case winner).loserHeads ↔
      i ∈ s.items.rows ∧ IsLosingHead s.toLedger case winner i := by
  rw [mem_loserHeads]
  constructor
  · rintro ⟨hi, -, hrest⟩
    exact ⟨hi, hrest⟩
  · rintro ⟨hi, hr, hc⟩
    obtain ⟨j, hj, hji, hjt, -⟩ := Ledger.isRecallableHead_iff.mp hr
    obtain rfl : j = i := s.items.eq_of_key_eq hj hi hji
    exact ⟨hi, hjt, hr, hc⟩

/-- What a resolution of a listed case appended. -/
structure Resolved (rt : Runtime) (s s' : InMemoryMemoryStore) (t w caseId : UUID)
    (value : String) (d : Draws) (case : ConflictCase) (winner : ConflictCandidate)
    (writes : List (MemoryItem × IntegrationEvent × ℕ)) : Prop where
  listed : findCase rt s t w caseId = some case
  candidate : winner ∈ case.candidates
  value : winner.value = value
  pending : Pending s t caseId
  shape : ∃ applied, ResolutionShape case (d.tick 1) (storedEvidence s.toLedger case winner)
    applied writes
  rows : s'.items.rows = s.items.rows ++ writes.map Prod.fst

/-- A successful decision appended nothing, or resolved its case. -/
theorem decide_appended (hs : s.Chained) (hd : d.Fresh (2 * s.items.rows.length) s.usedIds)
    {status : ConflictReviewStatus} {winnerValue : Option String} {reason : String}
    {audit : Option AuditEvent} {decision : ConflictReviewDecision}
    (hrun : (decide rt t w caseId status winnerValue reason audit d).run s = (.ok decision, s')) :
    (s'.items.rows = s.items.rows ∧
      ¬ (status.appliesWinner = true ∧ Pending s t caseId ∧
        ∃ case, findCase rt s t w caseId = some case)) ∨
    (status.appliesWinner = true ∧ ∃ case winner writes,
      Resolved rt s s' t w caseId (Text.strip (winnerValue.getD "")) d case winner writes) := by
  have hout := run_decide rt s t w caseId status winnerValue reason audit d
  simp only [hrun] at hout
  cases hout with
  | found case _ listed reviewed applied =>
    refine .inl ⟨rfl, ?_⟩
    rintro ⟨-, hp, -⟩
    have hid : case.id = caseId := by simpa using List.find?_some listed
    have hrev := listCases_review (List.mem_of_find?_eq_some listed) reviewed
    exact applied (hp _ (hid ▸ hrev))
  | saved _ _ _ plain ledger =>
    refine .inl ⟨by rw [ledger], ?_⟩
    rintro ⟨hw, -⟩
    rw [plain] at hw
    cases hw
  | applied case _ _ listed winning outcome =>
    cases outcome with
    | resolved winner applied writes _ _ found built outcome =>
      have hmem := List.mem_of_find?_eq_some listed
      cases outcome with
      | replayed _ stored applied' =>
        refine .inl ⟨rfl, ?_⟩
        rintro ⟨-, hp, -⟩
        exact applied' (hp _ stored)
      | committed _ pending checked ledger =>
        have hadm := ConflictService.admits_resolution hs hd hmem built checked
        refine .inr ⟨winning, case, winner, writes, listed,
          List.mem_reverse.mp (List.mem_of_find?_eq_some found),
          by simpa using List.find?_some found, pending,
          ⟨applied, resolutionWrites_shape built⟩, ?_⟩
        rw [ledger]
        have hrows := hadm.rows_commitAll
        simp only [ledgerWrites, List.map_map] at hrows
        exact hrows

/-- A revision has the readers of the item it revises. -/
theorem allowed_iff_of_revises {p : MemoryItem} {x : MemoryItem × IntegrationEvent × ℕ}
    (h : Revises d p x) (r : Reader) : r.Allowed x.1 ↔ r.Allowed p := by
  constructor
  · rintro ⟨ht, hw, hth, ha⟩
    exact ⟨h.tenant ▸ ht, h.workspace ▸ hw, fun hs => h.thread ▸ hth (h.scope ▸ hs),
      fun hs => h.agent ▸ ha (h.scope ▸ hs)⟩
  · rintro ⟨ht, hw, hth, ha⟩
    exact ⟨h.tenant.trans ht, h.workspace.trans hw,
      fun hs => h.thread.trans (hth (h.scope.symm.trans hs)),
      fun hs => h.agent.trans (ha (h.scope.symm.trans hs))⟩

namespace Resolved

variable {value : String} {writes : List (MemoryItem × IntegrationEvent × ℕ)}

/-- Every write revises a stored item. -/
theorem exists_parent (h : Resolved rt s s' t w caseId value d case winner writes)
    {x : MemoryItem × IntegrationEvent × ℕ} (hx : x ∈ writes) :
    ∃ p ∈ s.items.rows, ∃ d', Revises d' p x := by
  obtain ⟨applied, hshape⟩ := h.shape
  obtain ⟨parents, hperm, hrev⟩ := hshape.revisions
  obtain ⟨p, hp, n, -, hr⟩ := hrev.exists_parent hx
  exact ⟨p, (mem_loserHeads.mp (hperm.mem_iff.mp hp)).1, _, hr⟩

/-- Appended items were not stored before. -/
theorem not_stored (h : Resolved rt s s' t w caseId value d case winner writes)
    {x : MemoryItem × IntegrationEvent × ℕ} (hx : x ∈ writes) : x.1 ∉ s.items.rows := by
  intro hmem
  have hn := s'.items.nodup
  rw [h.rows, List.map_append, List.nodup_append] at hn
  exact hn.2.2 _ (List.mem_map_of_mem hmem) _
    (List.mem_map_of_mem (List.mem_map_of_mem hx)) rfl

/-- Evidence of a resolved case lies in its workspace. -/
theorem evidence_boundary (h : Resolved rt s s' t w caseId value d case winner writes)
    {i : MemoryItem} (hi : i ∈ s.items.rows) (hid : i.id ∈ evidenceIds case) :
    i.tenantId = t ∧ i.workspaceId = w := by
  obtain ⟨j, hj, hji, ht, hw, -⟩ :=
    listCases_evidence_stored (List.mem_of_find?_eq_some h.listed) hid
  obtain rfl : j = i := s.items.eq_of_key_eq hj hi hji
  exact ⟨ht, hw⟩

/-- A losing head is evidence of its case. -/
theorem losingHead_evidence {i : MemoryItem}
    (hi : i ∈ (storedEvidence s.toLedger case winner).loserHeads) :
    i ∈ s.items.rows ∧ i.id ∈ evidenceIds case := by
  obtain ⟨hrow, -, -, c, hc, -, hid⟩ := mem_loserHeads.mp hi
  exact ⟨hrow, List.mem_flatMap.mpr ⟨c, hc, hid⟩⟩

/-- Only the graft changes a text: any write whose text differs from its parent's carries the
newest winning text onto the newest losing head. -/
theorem graft_of_text_ne (h : Resolved rt s s' t w caseId value d case winner writes)
    {x : MemoryItem × IntegrationEvent × ℕ} (hx : x ∈ writes) {p : MemoryItem}
    (hp : p ∈ s.items.rows) (hsup : x.1.supersedesId = some p.id) (hne : x.1.text ≠ p.text) :
    (storedEvidence s.toLedger case winner).winnerHeads = [] ∧
      ∃ source, IsNewest s.toLedger (IsEvidence winner) source ∧ x.1.text = source.text ∧
        p ∈ (storedEvidence s.toLedger case winner).loserHeads ∧
          IsNewest s.toLedger (IsLosingHead s.toLedger case winner) p := by
  have hstone : ∀ {d : Draws} {losers : List MemoryItem}
      {xs : List (MemoryItem × IntegrationEvent × ℕ)},
      losers ⊆ (storedEvidence s.toLedger case winner).loserHeads →
        tombstones case d losers = .ok xs → x ∉ xs := by
    intro d losers xs hsub hs hmem
    obtain ⟨q, hq, hqs, hqt⟩ := tombstones_text hs x hmem
    rw [hsup, Option.some.injEq] at hqs
    obtain rfl : p = q :=
      s.items.eq_of_key_eq hp (losingHead_evidence (hsub hq)).1 hqs
    exact hne hqt
  obtain ⟨applied, hshape⟩ := h.shape
  cases hshape with
  | kept _ _ _ stones => exact absurd hx (hstone (List.Subset.refl _) stones)
  | grafted source parent y ys noHead newest target graft stones =>
    rcases List.mem_cons.mp hx with rfl | hx
    · obtain ⟨hr, htext, -⟩ := graft_eq_ok graft
      have hpar := List.argmax_mem target
      rw [hr.supersedes, Option.some.injEq] at hsup
      obtain rfl : parent = p := s.items.eq_of_key_eq (losingHead_evidence hpar).1 hp hsup
      exact ⟨noHead, source, (isNewest_iff_argmax (mem_winnerItems_iff h.listed h.candidate)).mp
        newest, htext, hpar, (isNewest_iff_argmax mem_loserHeads_iff).mp target⟩
    · exact absurd hx (hstone (List.erase_subset ..) stones)

end Resolved

/-- The condition is enough. -/
theorem Resolved.keepsVisibility {status : ConflictReviewStatus} {winnerValue : Option String}
    {writes : List (MemoryItem × IntegrationEvent × ℕ)}
    (h : Resolved rt s s' t w caseId (Text.strip (winnerValue.getD "")) d case winner writes)
    (hstatus : status.appliesWinner = true)
    (hcov : GraftCovered rt s t w caseId status winnerValue) :
    KeepsVisibility rt s s' t w caseId := by
  have hgraft : ∀ x ∈ writes, ∀ p ∈ s.items.rows, x.1.supersedesId = some p.id →
      x.1.text ≠ p.text → ∃ e ∈ s.items.rows, e.id ∈ evidenceIds case ∧ e.text = x.1.text ∧
        ∀ r : Reader, r.Allowed x.1 → r.Allowed e := by
    intro x hx p hp hsup hne
    obtain ⟨hnone, source, hsource, htext, hploser, hparent⟩ := h.graft_of_text_ne hx hp hsup hne
    have hheads : ∀ i ∈ s.items.rows, IsEvidence winner i → s.isRecallableHead t i.id = false := by
      intro i hi hev
      rw [← Bool.not_eq_true]
      intro hr
      have hct := (listCases_evidence (List.mem_of_find?_eq_some h.listed)).1
      have hmem := (mem_winnerHeads h.candidate).mpr
        ⟨(mem_winnerItems_iff h.listed h.candidate i).mpr ⟨hi, hev⟩, hct ▸ hr⟩
      rw [hnone] at hmem
      cases hmem
    rcases hcov hstatus h.pending case h.listed winner h.candidate h.value hheads source p hsource
      hparent with heq | ⟨e, he, heid, hetext, hcovers⟩
    · exact absurd (htext.trans heq) hne
    · refine ⟨e, he, heid, hetext.trans htext.symm, fun r hr => ?_⟩
      obtain ⟨q, hq, d', hrev⟩ := h.exists_parent hx
      have hsup' := hrev.supersedes
      rw [hsup, Option.some.injEq] at hsup'
      obtain rfl : p = q := s.items.eq_of_key_eq hp hq hsup'
      obtain ⟨het, hew⟩ := h.evidence_boundary he heid
      obtain ⟨hpt, hpw⟩ := h.evidence_boundary hp (losingHead_evidence hploser).2
      exact (covers_iff (het.trans hpt.symm) (hew.trans hpw.symm)).mp hcovers r
        ((allowed_iff_of_revises hrev r).mp hr)
  constructor
  · intro case' hcase' x hx hnew p hp hsup hne
    rw [h.listed] at hcase'
    cases hcase'
    rw [h.rows] at hx
    rcases List.mem_append.mp hx with hx | hx
    · exact absurd hx hnew
    · obtain ⟨y, hy, rfl⟩ := List.mem_map.mp hx
      exact hgraft y hy p hp hsup hne
  · intro r x hx hr
    rw [h.rows] at hx
    rcases List.mem_append.mp hx with hx | hx
    · exact ⟨x, hx, hr, rfl⟩
    · obtain ⟨y, hy, rfl⟩ := List.mem_map.mp hx
      obtain ⟨p, hp, d', hrev⟩ := h.exists_parent hy
      by_cases htext : y.1.text = p.text
      · exact ⟨p, hp, (allowed_iff_of_revises hrev r).mp hr, htext.symm⟩
      · obtain ⟨e, he, -, hetext, hall⟩ := hgraft y hy p hp hrev.supersedes htext
        exact ⟨e, he, hall r hr, hetext⟩

/-- The condition is necessary. -/
theorem Resolved.graftCovered {status : ConflictReviewStatus} {winnerValue : Option String}
    {writes : List (MemoryItem × IntegrationEvent × ℕ)}
    (h : Resolved rt s s' t w caseId (Text.strip (winnerValue.getD "")) d case winner writes)
    (hkeep : KeepsVisibility rt s s' t w caseId) :
    GraftCovered rt s t w caseId status winnerValue := by
  intro _ _ case' hcase' winner' hw' hvalue hheads source parent hsource hparent
  rw [h.listed] at hcase'
  cases hcase'
  have hvals := listCases_values (List.mem_of_find?_eq_some h.listed)
  obtain rfl : winner' = winner :=
    List.inj_on_of_nodup_map hvals hw' h.candidate (hvalue.trans h.value.symm)
  obtain ⟨applied, hshape⟩ := h.shape
  cases hshape with
  | kept kept _ head _ =>
    obtain ⟨hitem, hr⟩ := (mem_winnerHeads hw').mp head
    obtain ⟨hrow, hev⟩ := (mem_winnerItems_iff h.listed hw' kept).mp hitem
    have hct := (listCases_evidence (List.mem_of_find?_eq_some h.listed)).1
    rw [hct, hheads kept hrow hev] at hr
    cases hr
  | grafted source' parent' x xs noHead newest target graft stones =>
    rw [(isNewest_iff_argmax (mem_winnerItems_iff h.listed hw')).mpr hsource] at newest
    rw [(isNewest_iff_argmax mem_loserHeads_iff).mpr hparent] at target
    cases newest
    cases target
    obtain ⟨hrev, htext, -⟩ := graft_eq_ok graft
    by_cases heq : source.text = parent.text
    · exact .inl heq
    · right
      have hx : x ∈ x :: xs := List.mem_cons_self ..
      obtain ⟨e, he, heid, hetext, hall⟩ := hkeep.copies case h.listed x.1
        (by rw [h.rows]; exact List.mem_append_right _ (List.mem_map_of_mem hx))
        (h.not_stored hx) parent hparent.stored hrev.supersedes (htext ▸ heq)
      refine ⟨e, he, heid, hetext.trans htext, ?_⟩
      obtain ⟨het, hew⟩ := h.evidence_boundary he heid
      obtain ⟨c, hc, -, hcid⟩ := hparent.holds.2
      obtain ⟨hpt, hpw⟩ := h.evidence_boundary hparent.stored (List.mem_flatMap.mpr ⟨c, hc, hcid⟩)
      exact (covers_iff (het.trans hpt.symm) (hew.trans hpw.symm)).mpr fun r hr =>
        hall r ((allowed_iff_of_revises hrev r).mpr hr)

/-- A successful decision on a reachable store keeps visibility exactly under the condition. -/
theorem decide_keepsVisibility_iff {env : Deployment} (h : Reachable env s)
    {status : ConflictReviewStatus}
    {winnerValue : Option String} {reason : String} {audit : Option AuditEvent}
    {decision : ConflictReviewDecision} (hd : d.Fresh (2 * s.items.rows.length) s.usedIds)
    (hrun : (decide env.runtime t w caseId status winnerValue reason audit d).run s =
      (.ok decision, s')) :
    KeepsVisibility env.runtime s s' t w caseId ↔
      GraftCovered env.runtime s t w caseId status winnerValue := by
  rcases decide_appended h.consistent.chained hd hrun with ⟨hrows, hnot⟩ | ⟨hstatus, _, _, _, hres⟩
  · constructor
    · intro _ hw hp case hcase
      exact absurd ⟨hw, hp, case, hcase⟩ hnot
    · intro _
      refine ⟨fun _ _ x hx hnew => ?_, fun r x hx hr => ?_⟩
      · rw [hrows] at hx
        exact absurd hx hnew
      · rw [hrows] at hx
        exact ⟨x, hx, hr, rfl⟩
  · exact ⟨hres.graftCovered, hres.keepsVisibility hstatus⟩

/-- The deployment of the runs below, with the identifier of their conflict case. -/
def vaultDeployment : Deployment :=
  plainDeployment (UUID.ofNat 14354832276281309565388398086428626184)

/-- A memory that one agent keeps, in a scope. -/
def vaultKept (scope : MemoryScope) : InMemoryMemoryStore :=
  ((Operation.retain (plainRetain "Alice owns the vault." scope (some (UUID.ofNat 5))) none).run
    vaultDeployment (drawsFrom 10) .empty).2

/-- The agent archives that memory. -/
def vaultArchive : SupersedeMemoryCommand where
  tenantId := UUID.ofNat 1
  itemId := UUID.ofNat 10
  replacementText := "Alice owns the vault."
  expectedRevision := 1
  status := some .archived
  text_nonempty := by decide
  revision_positive := first_revision_positive
  confidence_bounds := no_confidence_bounds

def vaultArchived (scope : MemoryScope) : InMemoryMemoryStore :=
  ((Operation.supersede vaultArchive none).run vaultDeployment (drawsFrom 20) (vaultKept scope)).2

/-- A workspace memory says otherwise. -/
def vaultDisputed (scope : MemoryScope) : InMemoryMemoryStore :=
  ((Operation.retain (plainRetain "Bob owns the vault." .workspace none) none).run
    vaultDeployment (drawsFrom 30) (vaultArchived scope)).2

/-- The archived memory was private. -/
def vaultShared : InMemoryMemoryStore := vaultDisputed .private

/-- The archived memory was open to the workspace. -/
def vaultOpen : InMemoryMemoryStore := vaultDisputed .workspace

theorem vaultShared_reachable : Reachable vaultDeployment vaultShared :=
  .step _ _ (.step _ _ (.step _ _ .empty (by decide +kernel)) (by decide +kernel))
    (by decide +kernel)

theorem vaultOpen_reachable : Reachable vaultDeployment vaultOpen :=
  .step _ _ (.step _ _ (.step _ _ .empty (by decide +kernel)) (by decide +kernel))
    (by decide +kernel)

/-- The decision that the private value wins. -/
def vaultDecision : Proc InMemoryMemoryStore Exn ConflictReviewDecision :=
  decide vaultDeployment.runtime (UUID.ofNat 1) (UUID.ofNat 2)
    (UUID.ofNat 14354832276281309565388398086428626184) .accepted (some "alice") "" none
    (drawsFrom 40)

/-- The decision succeeds and shows the private text to a reader without an agent. -/
theorem decide_widens_visibility :
    Reachable vaultDeployment vaultShared ∧ (vaultDecision.run vaultShared).1.isOk = true ∧
      ¬ KeepsVisibility vaultDeployment.runtime vaultShared (vaultDecision.run vaultShared).2
        (UUID.ofNat 1) (UUID.ofNat 2) (UUID.ofNat 14354832276281309565388398086428626184) := by
  refine ⟨vaultShared_reachable, by decide +kernel, fun h => ?_⟩
  have hleak : ∃ x ∈ (vaultDecision.run vaultShared).2.items.rows,
      Reader.Allowed ⟨UUID.ofNat 1, UUID.ofNat 2, none, none⟩ x ∧
        ∀ e ∈ vaultShared.items.rows,
          Reader.Allowed ⟨UUID.ofNat 1, UUID.ofNat 2, none, none⟩ e → e.text ≠ x.text := by
    decide +kernel
  obtain ⟨x, hx, hallowed, hnone⟩ := hleak
  obtain ⟨e, he, hea, hetext⟩ := h.texts _ x hx hallowed
  exact hnone e he hea hetext

/-- The same decision about a memory that was open to the workspace appends its text and keeps
visibility. -/
theorem decide_keepsVisibility_iff_example :
    (∃ x ∈ (vaultDecision.run vaultOpen).2.items.rows, x ∉ vaultOpen.items.rows ∧
        x.text = "Alice owns the vault.") ∧
      KeepsVisibility vaultDeployment.runtime vaultOpen (vaultDecision.run vaultOpen).2
        (UUID.ofNat 1) (UUID.ofNat 2) (UUID.ofNat 14354832276281309565388398086428626184) := by
  obtain ⟨decision, hok⟩ := Except.exists_of_isOk (x := (vaultDecision.run vaultOpen).1)
    (by decide +kernel)
  refine ⟨by decide +kernel, (decide_keepsVisibility_iff vaultOpen_reachable (by decide +kernel)
    (Prod.ext hok rfl)).mpr ?_⟩
  intro _ _ case _ winner hwinner _ _ source parent hsource hparent
  have hcovers : ∀ e ∈ vaultOpen.items.rows, ∀ p ∈ vaultOpen.items.rows, Covers e p := by
    decide +kernel
  exact .inr ⟨source, hsource.stored, List.mem_flatMap.mpr ⟨winner, hwinner, hsource.holds⟩, rfl,
    hcovers source hsource.stored parent hparent.stored⟩

end MemoryPlane
