import MemoryPlane.Runs.ConflictReviews
import MemoryPlane.Runs.Resolutions

/-!
# Decisions and the values they name

A decision strips the value that it is given before it looks for a candidate, and stores it as it
was given. So the value of a candidate wins when it is offered back if and only if stripping keeps
it, and an applied decision is shown and repeated if and only if its value was given stripped and
is given again in the same spelling.
-/

namespace MemoryPlane

open ConflictService InMemoryMemoryStore

namespace ConflictService

variable {rt : Runtime} {s : InMemoryMemoryStore} {t w : UUID} {case : ConflictCase}
  {winner : ConflictCandidate} {status : ConflictReviewStatus} {winnerValue : Option String}

/-- Every losing head can be archived. -/
theorem exists_tombstones (case : ConflictCase) : ∀ (losers : List MemoryItem) (d : Draws),
    ∃ xs, tombstones case d losers = .ok xs
  | [], d => ⟨[], rfl⟩
  | loser :: rest, d => by
    have hv := MemoryFields.postInit_eq_ok.mp loser.valid
    obtain ⟨stone, hs⟩ : ∃ i, loser.supersede loser.text none (some .archived) (d.uuid4 0)
        (d.now 0) = .ok i :=
      loser.exists_supersede _ _ hv.text hv.confidence fun h => by cases h
    obtain ⟨xs, hxs⟩ := exists_tombstones case rest (d.drop 2)
    have hstone : ∃ x, tombstone case d loser = .ok x := by
      unfold tombstone
      rw [hs]
      exact ⟨_, rfl⟩
    obtain ⟨x, hx⟩ := hstone
    refine ⟨x :: xs, ?_⟩
    rw [tombstones, hx, Except.ok_bind, hxs]
    rfl

/-- Every winning text can be grafted onto a losing head. -/
theorem exists_graft (case : ConflictCase) (d : Draws) (source parent : MemoryItem) :
    ∃ x, graft case d source parent = .ok x := by
  have hv := MemoryFields.postInit_eq_ok.mp source.valid
  obtain ⟨applied, ha⟩ : ∃ i, parent.supersede source.text (some source.confidence)
      (some .active) (d.uuid4 0) (d.now 0) = .ok i :=
    parent.exists_supersede _ _ hv.text hv.confidence fun h => by cases h
  unfold graft
  rw [ha]
  exact ⟨_, rfl⟩

/-- A resolution can be built when there is winning evidence and some head. -/
theorem exists_resolutionWrites (case : ConflictCase) (d : Draws) {e : Evidence}
    (hw : e.winnerItems ≠ []) (hh : e.winnerHeads ≠ [] ∨ e.loserHeads ≠ []) :
    ∃ applied writes, resolutionWrites case d e = .ok (applied, writes) := by
  unfold resolutionWrites
  cases hs : e.winnerItems.argmax recencyKey with
  | none => exact absurd (List.argmax_eq_none.mp hs) hw
  | some source =>
    cases hk : e.winnerHeads.argmax recencyKey with
    | some kept =>
      obtain ⟨xs, hxs⟩ := exists_tombstones case e.loserHeads d
      simp only [hxs]
      exact ⟨_, _, rfl⟩
    | none =>
      cases hp : e.loserHeads.argmax recencyKey with
      | none =>
        rcases hh with hh | hh
        · exact absurd (List.argmax_eq_none.mp hk) hh
        · exact absurd (List.argmax_eq_none.mp hp) hh
      | some parent =>
        obtain ⟨x, hx⟩ := exists_graft case d source parent
        obtain ⟨xs, hxs⟩ := exists_tombstones case (e.loserHeads.erase parent) (d.drop 2)
        simp only [hx, hxs]
        exact ⟨_, _, rfl⟩

variable {value : String} {reason : String} {audit : Option AuditEvent} {d : Draws}
  {caseId : UUID}

/-- A call without a winning value raises. -/
theorem run_decide_of_blank (hstatus : status.appliesWinner = true)
    (hblank : winnerValue.all Text.isBlank = true) :
    ((decide rt t w caseId status winnerValue reason audit d).run s).1.isOk = false := by
  unfold decide
  rw [if_pos ⟨hstatus, hblank⟩]
  rfl

/-- A call on a case whose resolution was applied returns the stored review if it asks for the
same, and raises otherwise. -/
theorem run_decide_of_applied {r : ConflictReviewDecision}
    (hblank : ¬ (status.appliesWinner = true ∧ winnerValue.all Text.isBlank = true))
    (hfind : findCase rt s t w caseId = some case) (hr : case.review = some r)
    (ha : r.appliedMemoryId ≠ none) :
    (decide rt t w caseId status winnerValue reason audit d).run s =
      if r.status = status ∧ r.winnerValue = winnerValue then (.ok r, s)
      else (.error (.valueError "conflict resolution is already applied and immutable"), s) := by
  unfold decide
  rw [if_neg hblank, Proc.run_bind, Proc.run_read]
  simp only [findCase] at hfind
  have hfilter : case.review.filter (fun r => r.appliedMemoryId ≠ none) = some r := by
    rw [hr, Option.filter_some, if_pos (decide_eq_true ha)]
  simp only [hfind, hfilter]
  split <;> rfl

/-- A call on a case without an applied resolution applies its winner. -/
theorem run_decide_of_pending (hstatus : status.appliesWinner = true)
    (hblank : winnerValue.all Text.isBlank = false)
    (hfind : findCase rt s t w caseId = some case)
    (hun : ∀ r, case.review = some r → r.appliedMemoryId = none) :
    (decide rt t w caseId status winnerValue reason audit d).run s =
      (applyWinner case (pendingDecision t w caseId status winnerValue reason d)
        (Text.strip (winnerValue.getD "")) audit (d.tick 1)).run s := by
  unfold decide
  rw [if_neg (by simp [hblank]), Proc.run_bind, Proc.run_read]
  simp only [findCase] at hfind
  have hfilter : case.review.filter (fun r => r.appliedMemoryId ≠ none) = none := by
    rw [Option.filter_eq_none_iff]
    intro r hr
    simp [hun r hr]
  simp only [hfind, hfilter, if_pos hstatus]
  rfl

/-- Applying a winner whose evidence is complete hands the resolution to the store. -/
theorem run_applyWinner_of_built {decision : ConflictReviewDecision}
    (hfound : (case.candidates.reverse.find? fun c => c.value = value) = some winner)
    (hcomplete : ((evidenceIds case).eraseDups.filterMap fun id => s.get case.tenantId id).length =
      (evidenceIds case).eraseDups.length) {applied : UUID}
    {writes : List (MemoryItem × IntegrationEvent × ℕ)}
    (hbuilt : resolutionWrites case d (storedEvidence s.toLedger case winner) =
      .ok (applied, writes)) :
    (applyWinner case decision value audit d).run s =
      s.applyConflictResolution { decision with appliedMemoryId := some applied } writes audit := by
  unfold applyWinner
  simp only [hfound, Proc.run_bind, Proc.run_read]
  rw [if_neg (not_not.mpr hcomplete)]
  simp only [storedEvidence] at hbuilt
  simp only [Proc.run_bind, Proc.run_read, Proc.run_ofExcept, hbuilt, Proc.run_invoke]

/-- The store accepts a checked resolution of a case that has none. -/
theorem applyConflictResolution_of_checked {decision : ConflictReviewDecision}
    {writes : List (MemoryItem × IntegrationEvent × ℕ)}
    (hpending : ∀ r, s.conflictReviews.find (decision.tenantId, decision.caseId) = some r →
      r.appliedMemoryId = none)
    (hchecked : ∀ x ∈ writes, ResolutionWriteOk s decision x.1 x.2.2) :
    (s.applyConflictResolution decision writes audit).1 = .ok decision := by
  have hvalid : (s.validateThenApply decision writes audit).1 = .ok decision := by
    unfold validateThenApply
    rw [checkResolutionWrites_eq_ok.mpr hchecked]
  unfold applyConflictResolution
  cases hf : s.conflictReviews.find (decision.tenantId, decision.caseId) with
  | none => exact hvalid
  | some r =>
    simp only [if_pos (hpending r hf)]
    exact hvalid

end ConflictService

variable {env : Deployment} {s s' : InMemoryMemoryStore} {t w caseId : UUID} {case : ConflictCase}
  {c : ConflictCandidate} {d : Draws} {status : ConflictReviewStatus} {reason : String}
  {audit : Option AuditEvent} {decision : ConflictReviewDecision}

/-- With distinct identifiers, a decision on a listed case finds that case. -/
theorem findCase_of_listed (hdistinct : CasesDistinct env.runtime s.items.rows) {resolved : Bool}
    (hcase : case ∈ listCases env.runtime s t w resolved) :
    findCase env.runtime s t w case.id = some case := by
  have hcase' := listed_resolved hcase
  cases hf : findCase env.runtime s t w case.id with
  | none => simpa using List.find?_eq_none.mp hf case hcase'
  | some other =>
    have hid : other.id = case.id := by simpa using List.find?_some hf
    have hother := List.mem_of_find?_eq_some hf
    obtain ⟨i, hi, hin⟩ := exists_inSlot hcase'
    obtain ⟨j, hj, hjn⟩ := exists_inSlot hother
    have hsame := hdistinct j hj i hi hjn.layer hin.layer (by
      rw [hjn.tenant, hjn.workspace, hin.tenant, hin.workspace, caseId_eq_of_inSlot hother hjn,
        caseId_eq_of_inSlot hcase' hin, hid])
    have hkey : other.key = case.key := by rw [← hjn.key, hsame.2.2, hin.key]
    rw [eq_of_listed_of_key hother hcase' hkey]

/-- The evidence of a listed case is stored. -/
theorem evidence_complete {rt : Runtime} {resolved : Bool}
    (hcase : case ∈ listCases rt s t w resolved) :
    ((evidenceIds case).eraseDups.filterMap fun id => s.get case.tenantId id).length =
      (evidenceIds case).eraseDups.length := by
  have hall : ∀ id ∈ (evidenceIds case).eraseDups, (s.get case.tenantId id).isSome := by
    intro id hid
    obtain ⟨i, hi, hiid, hit, -⟩ := listCases_evidence_stored hcase (List.mem_eraseDups.mp hid)
    rw [Ledger.get_eq_some.mpr ⟨hi, hiid, hit.trans (listCases_evidence hcase).1.symm⟩]
    rfl
  generalize (evidenceIds case).eraseDups = ids at hall
  induction ids with
  | nil => rfl
  | cons id rest ih =>
    obtain ⟨i, hi⟩ := Option.isSome_iff_exists.mp (hall id (List.mem_cons_self ..))
    rw [List.filterMap_cons, hi]
    simp only [List.length_cons, ih fun id' h => hall id' (List.mem_cons_of_mem _ h)]

/-- The store accepts the resolution of a listed case. -/
theorem resolution_checked (hs : s.Chained) {rt : Runtime} {resolved : Bool}
    (hcase : case ∈ listCases rt s t w resolved) {winner : ConflictCandidate} {applied : UUID}
    {writes : List (MemoryItem × IntegrationEvent × ℕ)}
    (hshape : ResolutionShape case d (storedEvidence s.toLedger case winner) applied writes)
    (ht : decision.tenantId = t) (hw : decision.workspaceId = w) :
    ∀ x ∈ writes, ResolutionWriteOk s decision x.1 x.2.2 := by
  intro x hx
  obtain ⟨parents, hperm, hrev⟩ := hshape.revisions
  obtain ⟨p, hp, n, -, hr⟩ := hrev.exists_parent hx
  obtain ⟨hpm, hpt, hphead, cand, hcand, -, hpid⟩ := mem_loserHeads.mp (hperm.mem_iff.mp hp)
  obtain ⟨j, hj, hjid, hjt, hjw, -⟩ := listCases_evidence_stored hcase
    (List.mem_flatMap.mpr ⟨cand, hcand, hpid⟩)
  obtain rfl : j = p := s.items.eq_of_key_eq hj hpm hjid
  rw [(listCases_evidence hcase).1, ← hjt] at hphead
  refine ⟨hr.tenant.trans (hjt.trans ht.symm), hr.workspace.trans (hjw.trans hw.symm), j.id, j,
    hr.supersedes, Ledger.get_eq_some.mpr ⟨hpm, rfl, hr.tenant.symm⟩, ?_⟩
  rw [hs.isCurrent_iff hpm]
  exact ⟨((hs.isRecallableHead_iff hpm).mp hphead).2, hr.expected.symm⟩

/-- Naming the value of a candidate succeeds and makes a memory with that value current. -/
def NamedWins (rt : Runtime) (s : InMemoryMemoryStore) (t w : UUID) (case : ConflictCase)
    (c : ConflictCandidate) (reason : String) (audit : Option AuditEvent) (d : Draws) : Prop :=
  ∃ decision s', (decide rt t w case.id .accepted (some c.value) reason audit d).run s =
      (.ok decision, s') ∧
    ∃ i ∈ s'.items.rows, decision.appliedMemoryId = some i.id ∧ (slotOf rt i).value = c.value

/-- Naming a candidate of an unresolved case that has a recallable head wins if and only if its
value is not empty and has no white space at either end. -/
theorem named_candidate_wins_iff (h : Reachable env s)
    (hd : d.Fresh (2 * s.items.rows.length) s.usedIds)
    (hdistinct : CasesDistinct env.runtime s.items.rows) {resolved : Bool}
    (hcase : case ∈ listCases env.runtime s t w resolved) (hopen : isSettled case.review = false)
    (hhead : ∃ i ∈ s.items.rows, InSlot env.runtime t w case.key i ∧
      s.isRecallableHead t i.id = true) (hc : c ∈ case.candidates) :
    NamedWins env.runtime s t w case c reason audit d ↔
      c.value ≠ "" ∧ Text.strip c.value = c.value := by
  have hs := h.consistent.chained
  have hfind := findCase_of_listed hdistinct hcase
  have happlies : ConflictReviewStatus.appliesWinner .accepted = true := rfl
  have hun : ∀ r, case.review = some r → r.appliedMemoryId = none := by
    intro r hr
    by_contra ha
    have hstored := (listed_review_iff hcase).mp hr
    have happ := (h.reviewSound r (Table.find_eq_some.mp hstored.1).1).applies ha
    rw [hr] at hopen
    simp only [isSettled, Option.any_some, decide_eq_false_iff_not, not_not] at hopen
    rw [hopen] at happ
    cases happ
  have hpending : Pending s t case.id :=
    fun r hr => hun r (review_of_stored h hdistinct hcase hr)
  constructor
  · rintro ⟨decision, s', hrun, i, hi, happ, hv⟩
    have hblank : Text.isBlank c.value = false := by
      by_contra hb
      have hraise : ((decide env.runtime t w case.id .accepted (some c.value) reason audit d).run
          s).1.isOk = false := run_decide_of_blank happlies (by simpa using hb)
      rw [hrun] at hraise
      cases hraise
    have hout := run_decide env.runtime s t w case.id .accepted (some c.value) reason audit d
    simp only [hrun] at hout
    obtain ⟨case', winner, applied, writes, happl, hdec, -⟩ :=
      decide_applies hs hd happlies hpending hout
    obtain ⟨j, hj, hjid, -, -, hjv⟩ := happl.applied_head hs
    rw [hdec, Option.some.injEq] at happ
    obtain rfl : j = i := s'.items.eq_of_key_eq hj hi (hjid.trans happ)
    refine ⟨?_, hjv.symm.trans hv⟩
    rintro he
    rw [he] at hblank
    cases hblank
  · rintro ⟨hne, hstrip⟩
    have hblank : (some c.value).all Text.isBlank = false := by
      rw [Option.all_some, ← Bool.not_eq_true, Text.isBlank_iff, hstrip]
      exact hne
    have hfound : (case.candidates.reverse.find? fun x => x.value = Text.strip c.value) =
        some c := by
      rw [hstrip]
      cases hf : case.candidates.reverse.find? fun x => x.value = c.value with
      | none => simpa using List.find?_eq_none.mp hf c (List.mem_reverse.mpr hc)
      | some x =>
        have hx := List.mem_reverse.mp (List.mem_of_find?_eq_some hf)
        have hxv : x.value = c.value := by simpa using List.find?_some hf
        rw [List.inj_on_of_nodup_map (listCases_values hcase) hx hc hxv]
    have hwin : (storedEvidence s.toLedger case c).winnerItems ≠ [] := by
      obtain ⟨i, hi, hin, hv⟩ := exists_evidence hcase hc
      have hmem := (mem_winnerItems_iff hfind hc i).mpr
        ⟨hi, (mem_evidence_iff hcase hc hi).mpr ⟨hin, hv⟩⟩
      exact List.ne_nil_of_mem hmem
    have hheads : (storedEvidence s.toLedger case c).winnerHeads ≠ [] ∨
        (storedEvidence s.toLedger case c).loserHeads ≠ [] := by
      obtain ⟨i, hi, hin, hr⟩ := hhead
      have ht := (listCases_evidence hcase).1
      obtain ⟨x, hx, hxv, hid⟩ := exists_candidate_of_inSlot hcase hi hin
      by_cases hxc : x.value = c.value
      · obtain rfl := List.inj_on_of_nodup_map (listCases_values hcase) hx hc hxc
        exact .inl (List.ne_nil_of_mem ((mem_winnerHeads hc).mpr
          ⟨(mem_winnerItems_iff hfind hc i).mpr ⟨hi, hid⟩, ht ▸ hr⟩))
      · exact .inr (List.ne_nil_of_mem (mem_loserHeads.mpr
          ⟨hi, hin.tenant.trans ht.symm, ht ▸ hr, x, hx, hxc, hid⟩))
    obtain ⟨applied, writes, hbuilt⟩ := exists_resolutionWrites case (d.tick 1) hwin hheads
    have hok : ((decide env.runtime t w case.id .accepted (some c.value) reason audit d).run
        s).1 = .ok { pendingDecision t w case.id .accepted (some c.value) reason d with
          appliedMemoryId := some applied } := by
      rw [run_decide_of_pending happlies hblank hfind hun, Option.getD_some,
        run_applyWinner_of_built hfound (evidence_complete hcase) hbuilt]
      exact applyConflictResolution_of_checked hpending
        (resolution_checked hs hcase (resolutionWrites_shape hbuilt) rfl rfl)
    have hout := run_decide env.runtime s t w case.id .accepted (some c.value) reason audit d
    simp only [hok] at hout
    obtain ⟨case', winner, applied', writes', happl, hdec, -⟩ :=
      decide_applies hs hd happlies hpending hout
    obtain ⟨j, hj, hjid, -, -, hjv⟩ := happl.applied_head hs
    refine ⟨_, _, Prod.ext hok rfl, j, hj, ?_, hjv.trans hstrip⟩
    rw [hdec, hjid]

/-- The deployment of the runs below, with the identifier of their conflict case. -/
def limitDeployment : Deployment :=
  plainDeployment (UUID.ofNat 3146813253690092887229724582341769741)

/-- A negative and a positive value of one slot. -/
def limitStore : InMemoryMemoryStore :=
  ((Operation.retain (plainRetain "The limit is 7." .workspace none) none).run limitDeployment
    (drawsFrom 20)
    ((Operation.retain (plainRetain "The limit is -5." .workspace none) none).run limitDeployment
      (drawsFrom 10) .empty).2).2

theorem limitStore_reachable : Reachable limitDeployment limitStore :=
  .step _ _ (.step _ _ .empty (by decide +kernel)) (by decide +kernel)

/-- The positive value wins when it is named. -/
theorem named_candidate_wins_iff_example :
    ∃ case ∈ listCases limitDeployment.runtime limitStore (UUID.ofNat 1) (UUID.ofNat 2) false,
      ∃ c ∈ case.candidates, c.value = "7" ∧ NamedWins limitDeployment.runtime limitStore
        (UUID.ofNat 1) (UUID.ofNat 2) case c "" none (drawsFrom 30) := by
  obtain ⟨case, hcase, hopen, hhead, c, hc, hv⟩ : ∃ case ∈ listCases limitDeployment.runtime
      limitStore (UUID.ofNat 1) (UUID.ofNat 2) false, isSettled case.review = false ∧
      (∃ i ∈ limitStore.items.rows, InSlot limitDeployment.runtime (UUID.ofNat 1) (UUID.ofNat 2)
        case.key i ∧ limitStore.isRecallableHead (UUID.ofNat 1) i.id = true) ∧
      ∃ c ∈ case.candidates, c.value = "7" := by decide +kernel
  refine ⟨case, hcase, c, hc, hv, ?_⟩
  refine (named_candidate_wins_iff limitStore_reachable (by decide +kernel) (by decide +kernel)
    hcase hopen hhead hc).mpr ?_
  rw [hv]
  decide +kernel

/-- The negative value is a candidate with white space at its start, and naming it fails. -/
theorem spacedValue_loses : Reachable limitDeployment limitStore ∧
    ∃ case ∈ listCases limitDeployment.runtime limitStore (UUID.ofNat 1) (UUID.ofNat 2) false,
      isSettled case.review = false ∧
      (∃ i ∈ limitStore.items.rows, InSlot limitDeployment.runtime (UUID.ofNat 1) (UUID.ofNat 2)
        case.key i ∧ limitStore.isRecallableHead (UUID.ofNat 1) i.id = true) ∧
      ∃ c ∈ case.candidates, ¬ NamedWins limitDeployment.runtime limitStore (UUID.ofNat 1)
        (UUID.ofNat 2) case c "" none (drawsFrom 30) := by
  refine ⟨limitStore_reachable, ?_⟩
  obtain ⟨case, hcase, hopen, hhead, c, hc, hfails⟩ : ∃ case ∈ listCases limitDeployment.runtime
      limitStore (UUID.ofNat 1) (UUID.ofNat 2) false, isSettled case.review = false ∧
      (∃ i ∈ limitStore.items.rows, InSlot limitDeployment.runtime (UUID.ofNat 1) (UUID.ofNat 2)
        case.key i ∧ limitStore.isRecallableHead (UUID.ofNat 1) i.id = true) ∧
      ∃ c ∈ case.candidates, ((decide limitDeployment.runtime (UUID.ofNat 1) (UUID.ofNat 2)
        case.id .accepted (some c.value) "" none (drawsFrom 30)).run limitStore).1.isOk =
          false := by decide +kernel
  refine ⟨case, hcase, hopen, hhead, c, hc, ?_⟩
  rintro ⟨decision, s', hrun, -⟩
  rw [hrun] at hfails
  cases hfails

/-- The case is listed with the candidate of the value as its only active one. -/
def ShowsWinner (rt : Runtime) (s : InMemoryMemoryStore) (t w caseId : UUID) (value : String) :
    Prop :=
  ∃ case, findCase rt s t w caseId = some case ∧ ∃ c ∈ case.candidates, c.value = value ∧
    ∀ c' ∈ case.candidates, c'.status = "active" ↔ c' = c

/-- What a newly applied decision leaves in the inbox and to later calls, while no memory is
written: the winner is shown if and only if the decision's value was given without white space
at its ends, and a call that names the same winner gets the same decision back if and only if it
spells the value in the same way. -/
theorem applied_decision_reported_iff (h : Reachable env s)
    (hd : d.Fresh (2 * s.items.rows.length) s.usedIds) {value : String}
    (hstatus : status.appliesWinner = true) (hpending : Pending s t caseId)
    (hrun : (decide env.runtime t w caseId status (some value) reason audit d).run s =
      (.ok decision, s')) (hdistinct : CasesDistinct env.runtime s'.items.rows)
    {later : InMemoryMemoryStore} (hlater : Later env s' later) (hsame : later.items = s'.items) :
    (ShowsWinner env.runtime later t w caseId (Text.strip value) ↔ Text.strip value = value) ∧
      ∀ (value' reason' : String) (audit' : Option AuditEvent) (d' : Draws),
        Text.strip value' = Text.strip value →
          ((decide env.runtime t w caseId status (some value') reason' audit' d').run later =
            (.ok decision, later) ↔ value' = value) := by
  have hs := h.consistent.chained
  have hout := run_decide env.runtime s t w caseId status (some value) reason audit d
  simp only [hrun] at hout
  obtain ⟨case, winner, applied, writes, happl, hdec, hreviews⟩ :=
    decide_applies hs hd hstatus hpending hout
  have hs' : Reachable env s' := by
    have hstep := Reachable.step (.decide t w caseId status (some value) reason audit) d h hd
    simp only [Operation.run, Operation.program, Proc.run_wrap, hrun] at hstep
    exact hstep
  have hl := hlater.reachable hs'
  have hdl : CasesDistinct env.runtime later.items.rows := by
    rw [hsame]
    exact hdistinct
  have happ : decision.appliedMemoryId ≠ none := by
    rw [hdec]
    simp
  have hkey : (decision.tenantId, decision.caseId) = (t, caseId) := by rw [hdec]; rfl
  have hstored : later.conflictReviews.find (t, caseId) = some decision := by
    refine hlater.keeps_applied hs' hdl ?_ happ
    rw [hreviews, ← hkey]
    exact Table.find_put_self ..
  -- the case is still listed, for its memories are still stored
  obtain ⟨i, hi, j, hj, hin, hjn, hne⟩ := exists_two_values happl.mem
  have hkeep : ∀ {x}, x ∈ s.items.rows → x ∈ later.items.rows := by
    intro x hx
    rw [hsame, happl.rows]
    exact List.mem_append_left _ hx
  obtain ⟨case', hcase', hk⟩ := exists_listed (hkeep hi) (hkeep hj) hin hjn hne
  have hid : case'.id = caseId := by
    have hcid : case.id = caseId := by simpa using List.find?_some happl.listed
    rw [← hcid, ← caseId_eq_of_inSlot happl.mem hin]
    exact (caseId_eq_of_inSlot hcase' (hk.symm ▸ hin)).symm
  have hfind : findCase env.runtime later t w caseId = some case' := by
    rw [← hid]
    exact findCase_of_listed hdl hcase'
  have hreview : case'.review = some decision :=
    review_of_stored hl hdl hcase' (hid.symm ▸ hstored)
  have hvalue : decision.winnerValue = some value := by
    rw [hdec]
    rfl
  constructor
  · constructor
    · rintro ⟨case₀, hfind₀, c, hc, hcv, hactive⟩
      rw [hfind] at hfind₀
      cases hfind₀
      have hact := (candidate_active_iff hcase' hreview happ hc).mp ((hactive c hc).mpr rfl)
      rw [hvalue, hcv, Option.some.injEq] at hact
      exact hact.symm
    · intro hstrip
      obtain ⟨x, hx, hxin, hxv⟩ := exists_evidence happl.mem happl.candidate
      obtain ⟨c, hc, hcv, -⟩ := exists_candidate_of_inSlot hcase' (hkeep hx) (hk.symm ▸ hxin)
      have hcv' : c.value = Text.strip value := hcv.trans (hxv.trans happl.value)
      refine ⟨case', hfind, c, hc, hcv', fun c' hc' => ?_⟩
      rw [candidate_active_iff hcase' hreview happ hc', hvalue, Option.some.injEq]
      constructor
      · intro he
        exact List.inj_on_of_nodup_map (listCases_values hcase') hc' hc
          (he.symm.trans (hstrip.symm.trans hcv'.symm))
      · rintro rfl
        exact hstrip.symm.trans hcv'.symm
  · intro value' reason' audit' d' hsp
    have hblank : Text.isBlank value = false := by
      by_contra hb
      have hraise : ((decide env.runtime t w caseId status (some value) reason audit d).run
          s).1.isOk = false := run_decide_of_blank hstatus (by simpa using hb)
      rw [hrun] at hraise
      cases hraise
    have hblank' : Text.isBlank value' = false := by
      rw [← Bool.not_eq_true, Text.isBlank_iff, hsp, ← Text.isBlank_iff, Bool.not_eq_true]
      exact hblank
    have hst : decision.status = status := by
      rw [hdec]
      rfl
    rw [run_decide_of_applied (by simp [hblank']) hfind hreview happ, hvalue, hst]
    by_cases hv : value' = value
    · simp [hv]
    · rw [if_neg fun hc => hv (Option.some.inj hc.2).symm]
      constructor
      · intro he
        cases he
      · exact fun he => absurd he hv

/-- The decision that "alice" wins, under any spelling of the value. -/
def vaultDecisionAs (value : String) : Proc InMemoryMemoryStore Exn ConflictReviewDecision :=
  decide vaultDeployment.runtime (UUID.ofNat 1) (UUID.ofNat 2)
    (UUID.ofNat 14354832276281309565388398086428626184) .accepted (some value) "" none
    (drawsFrom 40)

/-- Spelled without white space, the winner is shown, and the same call is answered again. -/
theorem applied_decision_reported_iff_example : ∃ decision,
    ShowsWinner vaultDeployment.runtime ((vaultDecisionAs "alice").run vaultShared).2
      (UUID.ofNat 1) (UUID.ofNat 2) (UUID.ofNat 14354832276281309565388398086428626184) "alice" ∧
    (vaultDecisionAs "alice").run ((vaultDecisionAs "alice").run vaultShared).2 =
      (.ok decision, ((vaultDecisionAs "alice").run vaultShared).2) := by
  obtain ⟨decision, hok⟩ := Except.exists_of_isOk
    (x := ((vaultDecisionAs "alice").run vaultShared).1) (by decide +kernel)
  have hstrip : Text.strip "alice" = "alice" := by decide +kernel
  have hspec := applied_decision_reported_iff vaultShared_reachable (d := drawsFrom 40)
    (by decide +kernel) rfl vaultShared_pending (Prod.ext hok rfl) (by decide +kernel) .refl rfl
  refine ⟨decision, ?_, (hspec.2 "alice" "" none (drawsFrom 40) rfl).mpr rfl⟩
  have hshows := hspec.1.mpr hstrip
  rwa [hstrip] at hshows

/-- Spelled with white space, it is not shown, and the stripped spelling is refused. -/
theorem spacedDecision_unreported : Reachable vaultDeployment vaultShared ∧
    Pending vaultShared (UUID.ofNat 1) (UUID.ofNat 14354832276281309565388398086428626184) ∧
    ((vaultDecisionAs " alice ").run vaultShared).1.isOk = true ∧
    ¬ ShowsWinner vaultDeployment.runtime ((vaultDecisionAs " alice ").run vaultShared).2
      (UUID.ofNat 1) (UUID.ofNat 2) (UUID.ofNat 14354832276281309565388398086428626184) "alice" ∧
    ((vaultDecisionAs "alice").run ((vaultDecisionAs " alice ").run vaultShared).2).1.isOk =
      false := by
  refine ⟨vaultShared_reachable, vaultShared_pending, by decide +kernel, ?_, by decide +kernel⟩
  rintro ⟨case, hfind, c, hc, -, hactive⟩
  have hnone : ∀ case ∈ findCase vaultDeployment.runtime
      ((vaultDecisionAs " alice ").run vaultShared).2 (UUID.ofNat 1) (UUID.ofNat 2)
      (UUID.ofNat 14354832276281309565388398086428626184), ∀ c ∈ case.candidates,
        c.status ≠ "active" := by decide +kernel
  exact hnone case hfind c hc ((hactive c hc).mpr rfl)

end MemoryPlane
