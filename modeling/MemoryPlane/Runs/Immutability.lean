import MemoryPlane.Adapters.PostgresConflicts
import MemoryPlane.Runs.Visibility

/-!
# Interleaved decisions on one case

Decisions whose ledger and repository calls interleave. A resolution looks at the stored review
inside its last call; a plain review trusts what its first call read, so it may replace a
resolution that was applied in between.
-/

namespace MemoryPlane

open ConflictService

/-- One decision on a case, with its arguments. -/
structure DecideCall where
  workspaceId : UUID
  status : ConflictReviewStatus
  winnerValue : Option String
  reason : String
  audit : Option AuditEvent
  draws : Draws

section

variable {σ : Type} (repository : ConflictReviewRepository σ)
  (reviews : σ → Table ConflictReviewDecision fun r => (r.tenantId, r.caseId))
  (admits : σ → ConflictReviewDecision → Option AuditEvent → Prop) (t caseId : UUID)

/-- The calls of a decision. -/
def DecideCall.program (rt : Runtime) (c : DecideCall) : Proc σ Exn ConflictReviewDecision :=
  repository.decide rt t c.workspaceId caseId c.status c.winnerValue c.reason c.audit c.draws

/-- The programs that are left of decisions on one case. -/
inductive Deciding : Proc σ Exn ConflictReviewDecision → Prop
  | reading (next : σ → Proc σ Exn ConflictReviewDecision) (rest : ∀ x, Deciding (next x)) :
      Deciding (.call id next)
  | saving (decision : ConflictReviewDecision) (audit : Option AuditEvent)
      (tenant : decision.tenantId = t) (case : decision.caseId = caseId)
      (plain : decision.appliedMemoryId = none) :
      Deciding (Proc.invoke (repository.save decision audit))
  | applying (decision : ConflictReviewDecision)
      (writes : List (MemoryItem × IntegrationEvent × ℕ)) (audit : Option AuditEvent)
      (tenant : decision.tenantId = t) (case : decision.caseId = caseId) :
      Deciding (Proc.invoke (repository.applyResolution decision writes audit))
  | done (r : ConflictReviewDecision) : Deciding (.done r)
  | raised (e : Exn) : Deciding (.raise e)

/-- The step does not save a plain review of the case while an applied one is stored. -/
def SavesPending (x : σ) (q : Proc σ Exn ConflictReviewDecision) : Prop :=
  ∀ decision audit, q = Proc.invoke (repository.save decision audit) → decision.tenantId = t →
    decision.caseId = caseId → decision.appliedMemoryId = none → admits x decision audit →
      ∀ r, (reviews x).find (t, caseId) = some r → r.appliedMemoryId = none

/-- Along a schedule an applied review of the case stays the stored one, unchanged. -/
def ReviewImmutable {ι : Type} [DecidableEq ι] (c : Pool.Config σ Exn ConflictReviewDecision ι)
    (schedule : List ι) : Prop :=
  ∀ pre mid post, schedule = pre ++ mid ++ post →
    ∀ r, (reviews (Pool.exec c pre).1).find (t, caseId) = some r → r.appliedMemoryId ≠ none →
      (reviews (Pool.exec c (pre ++ mid)).1).find (t, caseId) = some r

end

section

variable {σ : Type} {repository : ConflictReviewRepository σ}
  {reviews : σ → Table ConflictReviewDecision fun r => (r.tenantId, r.caseId)}
  {admits : σ → ConflictReviewDecision → Option AuditEvent → Prop} {t caseId : UUID}

theorem deciding_applyWinner {case : ConflictCase} {decision : ConflictReviewDecision}
    (ht : decision.tenantId = t) (hid : decision.caseId = caseId) (value : String)
    (audit : Option AuditEvent) (d : Draws) :
    Deciding repository t caseId (repository.applyWinner case decision value audit d) := by
  unfold ConflictReviewRepository.applyWinner
  cases case.candidates.reverse.find? fun c => c.value = value with
  | none => exact .raised _
  | some winner =>
    refine .reading _ fun x => ?_
    simp only [Proc.bind]
    split
    · exact .raised _
    · refine .reading _ fun y => ?_
      simp only [Proc.bind]
      generalize resolutionWrites case d _ = r
      cases r with
      | error e => exact .raised e
      | ok r => exact .applying _ r.2 audit ht hid

/-- The programs of decisions. -/
theorem deciding_program (rt : Runtime) (c : DecideCall) :
    Deciding repository t caseId (c.program repository t caseId rt) := by
  unfold DecideCall.program ConflictReviewRepository.decide
  split
  · exact .raised _
  · refine .reading _ fun x => ?_
    simp only [Proc.bind]
    split
    · exact .raised _
    · rename_i case _
      split
      · split
        · exact .done _
        · exact .raised _
      · split
        · exact deciding_applyWinner (by rfl) (by rfl) _ _ _
        · exact .saving _ _ rfl rfl rfl

variable {x : σ} {q : Proc σ Exn ConflictReviewDecision} {act : σ → σ}
  {next : σ → Proc σ Exn ConflictReviewDecision}

/-- The calls of a decision stay calls of a decision. -/
theorem Deciding.remains (h : Deciding repository t caseId q) (hq : q = .call act next) (x : σ) :
    Deciding repository t caseId (next x) := by
  cases h with
  | reading next' rest =>
    cases hq
    exact rest x
  | saving decision audit =>
    cases hq
    simp only
    split
    · exact .done _
    · exact .raised _
  | applying decision writes audit =>
    cases hq
    simp only
    split
    · exact .done _
    · exact .raised _
  | done | raised => cases hq

/-- A step that saves no plain review over an applied one keeps the applied one. -/
theorem Deciding.keeps (laws : ConflictReviewLaws repository reviews admits)
    (h : Deciding repository t caseId q) (hq : q = .call act next)
    (hsafe : SavesPending repository reviews admits t caseId x q) {r : ConflictReviewDecision}
    (hr : (reviews x).find (t, caseId) = some r) (ha : r.appliedMemoryId ≠ none) :
    (reviews (act x)).find (t, caseId) = some r := by
  cases h with
  | reading next' rest =>
    cases hq
    exact hr
  | saving decision audit tenant case plain =>
    cases hq
    by_cases hadm : admits x decision audit
    · exact absurd (hsafe decision audit rfl tenant case plain hadm r hr) ha
    · simp only
      rw [laws.refuses x decision audit hadm]
      exact hr
  | applying decision writes audit tenant case =>
    cases hq
    rcases laws.applies x decision writes audit with hsame | ⟨hpending, -⟩
    · simp only
      rw [hsame]
      exact hr
    · subst tenant case
      exact absurd (hpending r hr) ha
  | done | raised => cases hq

/-- A step that saves a plain review over an applied one replaces it. -/
theorem replaced_of_save (laws : ConflictReviewLaws repository reviews admits)
    (hq : q = .call act next)
    (hreplaces : ¬ SavesPending repository reviews admits t caseId x q) :
    ∃ r r', (reviews x).find (t, caseId) = some r ∧ r.appliedMemoryId ≠ none ∧
      (reviews (act x)).find (t, caseId) = some r' ∧ r'.appliedMemoryId = none := by
  simp only [SavesPending, not_forall] at hreplaces
  obtain ⟨decision, audit, hsave, tenant, case, plain, hadm, r, hr, ha⟩ := hreplaces
  subst tenant case
  refine ⟨r, decision, hr, ha, ?_, plain⟩
  rw [hsave] at hq
  cases hq
  simp only
  rw [laws.saves x decision audit hadm]
  exact Table.find_put_self ..

variable {ι : Type} [DecidableEq ι] {c : Pool.Config σ Exn ConflictReviewDecision ι}

theorem Deciding.step (hc : ∀ j, Deciding repository t caseId (c.2 j)) (i : ι) :
    ∀ j, Deciding repository t caseId ((Pool.step c i).2 j) :=
  (Pool.step_of_calls (J := fun _ => True)
    (fun _ _ hcall => ⟨trivial, (hc i).remains hcall c.1⟩) trivial hc).2

/-- Under the condition an applied review is stored after every schedule. -/
theorem applied_stays (laws : ConflictReviewLaws repository reviews admits)
    (hc : ∀ j, Deciding repository t caseId (c.2 j)) {schedule : List ι}
    (hsafe : Pool.Always (SavesPending repository reviews admits t caseId) c schedule)
    {r : ConflictReviewDecision} (hr : (reviews c.1).find (t, caseId) = some r)
    (ha : r.appliedMemoryId ≠ none) :
    (reviews (Pool.exec c schedule).1).find (t, caseId) = some r := by
  refine (Pool.exec_invariant (I := fun c => (reviews c.1).find (t, caseId) = some r ∧
    ∀ j, Deciding repository t caseId (c.2 j)) (fun c i h hG => ?_) ⟨hr, hc⟩ hsafe).1
  refine Pool.step_of_calls (J := fun x => (reviews x).find (t, caseId) = some r)
    (fun act next hcall => ?_) h.1 h.2
  exact ⟨(h.2 i).keeps laws hcall hG h.1 ha, (h.2 i).remains hcall c.1⟩

/-- Applied reviews are immutable along a schedule exactly when no step of it saves a plain
review over an applied one. -/
theorem reviewImmutable_iff (laws : ConflictReviewLaws repository reviews admits)
    (hc : ∀ j, Deciding repository t caseId (c.2 j)) (schedule : List ι) :
    ReviewImmutable reviews t caseId c schedule ↔
      Pool.Always (SavesPending repository reviews admits t caseId) c schedule := by
  constructor
  · intro h
    induction schedule generalizing c with
    | nil => trivial
    | cons i rest ih =>
      refine ⟨?_, ih (Deciding.step hc i) fun pre mid post he r hr ha => ?_⟩
      · by_contra hreplaces
        cases hq : c.2 i with
        | done r | raise e =>
          refine hreplaces fun decision audit hp => ?_
          rw [hq] at hp
          cases hp
        | call act next =>
          obtain ⟨r, r', hr, ha, hr', ha'⟩ := replaced_of_save laws hq hreplaces
          have hkept := h [] [i] rest rfl r hr ha
          rw [List.nil_append, Pool.exec_cons, Pool.exec_nil, Pool.step_of_call hq, hr',
            Option.some.injEq] at hkept
          rw [hkept] at ha'
          exact ha ha'
      · exact h (i :: pre) mid post (by rw [he]; rfl) r hr ha
  · rintro h pre mid post rfl r hr ha
    rw [List.append_assoc, Pool.always_append] at h
    obtain ⟨hpre, hrest⟩ := h
    rw [Pool.always_append] at hrest
    rw [Pool.exec_append]
    refine applied_stays laws (fun j => ?_) hrest.1 hr ha
    exact Pool.exec_induction (I := fun c => ∀ j, Deciding repository t caseId (c.2 j))
      (fun c i hc => Deciding.step hc i) hc pre j

end

/-- On either adapter, for all calls and all schedules: an applied resolution of the case stays
stored unchanged exactly when no step of the schedule saves a plain review over one. -/
theorem applied_review_immutable_iff (rt : Runtime) (t caseId : UUID) {ι : Type} [DecidableEq ι]
    (calls : ι → DecideCall) (schedule : List ι) :
    (∀ s : InMemoryMemoryStore,
      ReviewImmutable InMemoryMemoryStore.conflictReviews t caseId
          (s, fun i => (calls i).program inMemoryConflicts t caseId rt) schedule ↔
        Pool.Always (SavesPending inMemoryConflicts InMemoryMemoryStore.conflictReviews
            (fun _ _ _ => True) t caseId)
          (s, fun i => (calls i).program inMemoryConflicts t caseId rt) schedule) ∧
    ∀ s : PostgresConflictLedger,
      ReviewImmutable PostgresConflictLedger.conflictReviews t caseId
          (s, fun i => (calls i).program postgresConflicts t caseId rt) schedule ↔
        Pool.Always (SavesPending postgresConflicts PostgresConflictLedger.conflictReviews
            PostgresConflictLedger.AdmitsReview t caseId)
          (s, fun i => (calls i).program postgresConflicts t caseId rt) schedule := by
  constructor
  · intro s
    exact reviewImmutable_iff inMemory_conflictReviewLaws
      (fun i => deciding_program rt (calls i)) schedule
  · intro s
    exact reviewImmutable_iff postgres_conflictReviewLaws
      (fun i => deciding_program rt (calls i)) schedule

/-- One reviewer dismisses the case of the vault, another accepts "alice". -/
def vaultReviewers (accepts : Bool) : DecideCall where
  workspaceId := UUID.ofNat 2
  status := if accepts then .accepted else .dismissed
  winnerValue := if accepts then some "alice" else none
  reason := ""
  audit := none
  draws := if accepts then drawsFrom 40 else drawsFrom 50

/-- The dismissal reads the case before the acceptance is applied and is saved after it: the
applied review is gone. -/
theorem dismissal_replaces_applied : Reachable vaultDeployment vaultShared ∧
    ¬ ReviewImmutable InMemoryMemoryStore.conflictReviews (UUID.ofNat 1)
      (UUID.ofNat 14354832276281309565388398086428626184)
      (vaultShared, fun i => (vaultReviewers i).program inMemoryConflicts (UUID.ofNat 1)
        (UUID.ofNat 14354832276281309565388398086428626184) vaultDeployment.runtime)
      [false, true, true, true, true, false] := by
  refine ⟨vaultShared_reachable, fun h => ?_⟩
  have hlost : ∃ r ∈ (Pool.exec (vaultShared, fun i =>
        (vaultReviewers i).program inMemoryConflicts (UUID.ofNat 1)
          (UUID.ofNat 14354832276281309565388398086428626184) vaultDeployment.runtime)
        [false, true, true, true, true]).1.conflictReviews.find
          (UUID.ofNat 1, UUID.ofNat 14354832276281309565388398086428626184),
      r.appliedMemoryId ≠ none ∧ (Pool.exec (vaultShared, fun i =>
        (vaultReviewers i).program inMemoryConflicts (UUID.ofNat 1)
          (UUID.ofNat 14354832276281309565388398086428626184) vaultDeployment.runtime)
        [false, true, true, true, true, false]).1.conflictReviews.find
          (UUID.ofNat 1, UUID.ofNat 14354832276281309565388398086428626184) ≠ some r := by
    decide +kernel
  obtain ⟨r, hr, happlied, hne⟩ := hlost
  exact hne (h [false, true, true, true, true] [false] [] rfl r hr happlied)

end MemoryPlane
