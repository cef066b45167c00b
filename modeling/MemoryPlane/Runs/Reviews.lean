import MemoryPlane.Adapters.ReviewLaws
import MemoryPlane.Runs.Acceptance

/-!
# Interleaved reviews of one proposal

Acceptances and rejections of one proposal whose repository calls interleave. An acceptance
checks the proposal again inside its second call; a rejection overwrites what it read before,
so it may overwrite an acceptance that came in between.
-/

namespace MemoryPlane

open MemoryProposalService ReviewTables

/-- One review of a proposal. -/
inductive ReviewCall where
  | accept (command : ReviewMemoryProposalCommand) (audit : Option AuditEvent) (d : Draws)
  | reject (command : ReviewMemoryProposalCommand) (audit : Option AuditEvent) (d : Draws)

namespace ReviewCall

def command : ReviewCall → ReviewMemoryProposalCommand
  | .accept command _ _ => command
  | .reject command _ _ => command

/-- The review is of a given proposal. -/
def Of (c : ReviewCall) (t id : UUID) : Prop := c.command.tenantId = t ∧ c.command.proposalId = id

/-- The repository calls of a review. -/
def program {σ : Type} (stores : MemoryStores σ) (privacy : PrivacyGuard) :
    ReviewCall → Proc σ Exn ReviewMemoryProposalResult
  | .accept command audit d => MemoryProposalService.accept stores.proposals privacy command audit d
  | .reject command audit d => MemoryProposalService.reject stores.proposals command audit d

end ReviewCall

section

variable {σ : Type} (repository : MemoryProposalRepository σ) (privacy : PrivacyGuard)

/-- What is left of a rejection after it read the proposal `p`. -/
def saveRejection (command : ReviewMemoryProposalCommand) (audit : Option AuditEvent) (d : Draws)
    (p : MemoryProposal) : Proc σ Exn ReviewMemoryProposalResult := do
  let stored ← Proc.invoke (repository.saveProposalReview (rejectedCopy command p (d.now 0)) audit)
  return ⟨stored, none⟩

/-- What is left of an acceptance after it read `p` and prepared its memory. -/
def saveAcceptance (command : ReviewMemoryProposalCommand) (audit : Option AuditEvent) (d : Draws)
    (p : MemoryProposal) (item : MemoryItem) (event : IntegrationEvent) :
    Proc σ Exn ReviewMemoryProposalResult := do
  let result ← Proc.invoke <|
    repository.acceptProposalWithMemory p item event command.reviewer command.reason
      (acceptKey command p) audit (d.now 3)
  return acceptanceOf event result

/-- What is left of an acceptance after it read `p`. -/
def prepareThenAccept (command : ReviewMemoryProposalCommand) (audit : Option AuditEvent)
    (d : Draws) (p : MemoryProposal) : Proc σ Exn ReviewMemoryProposalResult :=
  match prepareAcceptance privacy command p d with
  | .error e => .raise e
  | .ok (item, event) =>
    saveAcceptance repository command (audit.map fun a => a.replaceScope p.workspaceId p.id.str) d
      p item event

theorem accept_eq_call (command : ReviewMemoryProposalCommand) (audit : Option AuditEvent)
    (d : Draws) :
    accept repository privacy command audit d = .call id fun x =>
      match repository.getProposal x command.tenantId command.proposalId with
      | none => .raise (.keyError "memory proposal not found")
      | some p => prepareThenAccept repository privacy command audit d p := by
  unfold accept prepareThenAccept
  refine congrArg (Proc.call id) (funext fun x => ?_)
  simp only [Proc.bind]
  cases repository.getProposal x command.tenantId command.proposalId with
  | none => rfl
  | some p =>
    simp only
    cases prepareAcceptance privacy command p d with
    | error e => rfl
    | ok r => rfl

theorem reject_eq_call (command : ReviewMemoryProposalCommand) (audit : Option AuditEvent)
    (d : Draws) :
    reject repository command audit d = .call id fun x =>
      match repository.getProposal x command.tenantId command.proposalId with
      | none => .raise (.keyError "memory proposal not found")
      | some p =>
        if p.status = .accepted then .raise (.valueError "accepted proposal cannot be rejected")
        else saveRejection repository command
          (audit.map fun a => a.replaceScope p.workspaceId p.id.str) d p := by
  refine congrArg (Proc.call id) (funext fun x => ?_)
  simp only [Proc.bind]
  cases repository.getProposal x command.tenantId command.proposalId with
  | none => rfl
  | some p => rfl

end

/-- A memory that names the proposal as its origin exists. -/
def HasMemory (v : ReviewTables) (id : UUID) : Prop :=
  ∃ i ∈ v.items.rows, i.provenance.originUri = some (proposalUri id)

/-- The law of reviews: rejected only without a memory, accepted whenever there is one. -/
def ReviewExclusive (v : ReviewTables) (t id : UUID) : Prop :=
  ∀ p ∈ v.getProposal t id,
    (p.status = .rejected → ¬ HasMemory v id) ∧ (HasMemory v id → p.status = .accepted)

/-- The proposal is accepted exactly when its memory exists. -/
def ReviewLinked (v : ReviewTables) (t id : UUID) : Prop :=
  ∀ p ∈ v.getProposal t id, p.status = .accepted ↔ HasMemory v id

/-- The proposal is rejected although its memory exists. -/
def ReviewBroken (v : ReviewTables) (t id : UUID) : Prop :=
  ∃ p ∈ v.getProposal t id, p.status = .rejected ∧ HasMemory v id

theorem ReviewLinked.exclusive {v : ReviewTables} {t id : UUID} (h : ReviewLinked v t id) :
    ReviewExclusive v t id := by
  intro p hp
  refine ⟨fun hrej hmem => ?_, (h p hp).mpr⟩
  have hacc := (h p hp).mpr hmem
  rw [hrej] at hacc
  cases hacc

theorem ReviewBroken.not_exclusive {v : ReviewTables} {t id : UUID} (h : ReviewBroken v t id) :
    ¬ ReviewExclusive v t id := by
  obtain ⟨p, hp, hrej, hmem⟩ := h
  exact fun hex => (hex p hp).1 hrej hmem

section

variable {σ : Type} (stores : MemoryStores σ) (tables : σ → ReviewTables)
  (admits : σ → Option AuditEvent → Prop) (privacy : PrivacyGuard) (t id : UUID)

/-- The programs that are left of reviews of one proposal. -/
inductive Reviewing : Proc σ Exn ReviewMemoryProposalResult → Prop
  | start (c : ReviewCall) (of : c.Of t id) : Reviewing (c.program stores privacy)
  | accepting (command : ReviewMemoryProposalCommand) (audit : Option AuditEvent) (d : Draws)
      (p : MemoryProposal) (item : MemoryItem) (event : IntegrationEvent) (tenant : p.tenantId = t)
      (proposal : p.id = id)
      (prepared : prepareAcceptance privacy command p d = .ok (item, event)) :
      Reviewing (saveAcceptance stores.proposals command audit d p item event)
  | rejecting (command : ReviewMemoryProposalCommand) (audit : Option AuditEvent) (d : Draws)
      (p : MemoryProposal) (tenant : p.tenantId = t) (proposal : p.id = id) :
      Reviewing (saveRejection stores.proposals command audit d p)
  | done (r : ReviewMemoryProposalResult) : Reviewing (.done r)
  | raised (e : Exn) : Reviewing (.raise e)

/-- The step does not save a rejection of the proposal while it is stored as accepted. -/
def RejectsUnaccepted (x : σ) (q : Proc σ Exn ReviewMemoryProposalResult) : Prop :=
  ∀ command audit d p, q = saveRejection stores.proposals command audit d p → p.tenantId = t →
    p.id = id → admits x audit → ∀ current ∈ (tables x).getProposal t id,
      current.status ≠ .accepted

end

section

variable {σ : Type} {stores : MemoryStores σ} {tables : σ → ReviewTables}
  {admits : σ → Option AuditEvent → Prop} {recovers : Bool} {privacy : PrivacyGuard} {t id : UUID}
  {x : σ} {q : Proc σ Exn ReviewMemoryProposalResult} {act : σ → σ}
  {next : σ → Proc σ Exn ReviewMemoryProposalResult}

/-- The calls of a review stay calls of a review. -/
theorem Reviewing.remains (laws : ReviewLaws stores tables admits recovers)
    (h : Reviewing stores privacy t id q) (hq : q = .call act next) (x : σ) :
    Reviewing stores privacy t id (next x) := by
  cases h with
  | start c of =>
    obtain ⟨ht, hid⟩ := of
    cases c with
    | accept command audit d =>
      rw [ReviewCall.program, accept_eq_call] at hq
      cases hq
      beta_reduce
      rw [laws.getProposal]
      cases hg : (tables x).getProposal command.tenantId command.proposalId with
      | none => exact .raised _
      | some p =>
        obtain ⟨-, hpid, hpt⟩ := getProposal_eq_some.mp hg
        simp only [prepareThenAccept]
        cases hp : prepareAcceptance privacy command p d with
        | error e => exact .raised e
        | ok r => exact .accepting command _ d p r.1 r.2 (hpt.trans ht) (hpid.trans hid) hp
    | reject command audit d =>
      rw [ReviewCall.program, reject_eq_call] at hq
      cases hq
      beta_reduce
      rw [laws.getProposal]
      cases hg : (tables x).getProposal command.tenantId command.proposalId with
      | none => exact .raised _
      | some p =>
        obtain ⟨-, hpid, hpt⟩ := getProposal_eq_some.mp hg
        simp only
        split
        · exact .raised _
        · exact .rejecting command _ d p (hpt.trans ht) (hpid.trans hid)
  | accepting command audit d p item event =>
    cases hq
    simp only
    cases (stores.proposals.acceptProposalWithMemory p item event command.reviewer command.reason
      (acceptKey command p) audit (d.now 3) x).1 with
    | error e => exact .raised e
    | ok r => exact .done _
  | rejecting command audit d p =>
    cases hq
    simp only
    cases (stores.proposals.saveProposalReview (rejectedCopy command p (d.now 0)) audit x).1 with
    | error e => exact .raised e
    | ok r => exact .done _
  | done | raised => cases hq

/-- An acceptance links the proposal to its memory or changes nothing. -/
theorem AcceptOutcome.linked_or {v u : ReviewTables} {p : MemoryProposal} {w : Ledger.Write}
    {reviewer reason : String} {now : DateTime}
    {r : Except Exn (MemoryProposal × MemoryItem × Bool)}
    (h : AcceptOutcome v p w
      (fun current => InMemoryMemoryStore.acceptedCopy current w.item reviewer reason now) r u)
    (horigin : w.item.provenance.originUri = some (proposalUri p.id)) :
    u = v ∨ (∃ current, v.getProposal p.tenantId p.id = some current ∧
      current.status ≠ .rejected) ∧ ReviewLinked u p.tenantId p.id := by
  cases h with
  | replayed | recovered | raised => exact .inl rfl
  | committed current _ found unused notRejected notAccepted writes proposals =>
    refine .inr ⟨⟨current, found, notRejected⟩, fun q hq => ?_⟩
    obtain ⟨hqm, hqid, -⟩ := getProposal_eq_some.mp hq
    obtain ⟨-, hcid, -⟩ := getProposal_eq_some.mp found
    have hmem : HasMemory u p.id := by
      refine ⟨w.item, ?_, horigin⟩
      rw [writes.items]
      exact Table.mem_put.mpr (.inl rfl)
    rw [proposals] at hqm
    rcases Table.mem_put.mp hqm with rfl | ⟨-, hne⟩
    · exact ⟨fun _ => hmem, fun _ => rfl⟩
    · exact absurd (hqid.trans hcid.symm) hne

/-- A saved rejection rejects the stored proposal and leaves the items alone. -/
theorem SaveOutcome.rejects_or {v u : ReviewTables} {p : MemoryProposal}
    {r : Except Exn MemoryProposal} (h : SaveOutcome v p r u) (hp : p.status = .rejected) :
    (u = v ∧ r.isOk = false) ∨ (r.isOk = true ∧ u.items = v.items ∧
      ∃ q, u.getProposal p.tenantId p.id = some q ∧ q.status = .rejected) := by
  cases h with
  | raised => exact .inl ⟨rfl, rfl⟩
  | saved current q found id tenant status =>
    refine .inr ⟨rfl, rfl, q, ?_, status.trans hp⟩
    exact getProposal_eq_some.mpr ⟨Table.mem_put.mpr (.inl rfl), id, tenant⟩

/-- The saving call of a rejection. -/
theorem saveRejection_call {command : ReviewMemoryProposalCommand} {audit : Option AuditEvent}
    {d : Draws} {p : MemoryProposal} (laws : ReviewLaws stores tables admits recovers)
    (hq : saveRejection stores.proposals command audit d p = .call act next) (x : σ) :
    (tables (act x) = tables x ∧
        ¬ (((tables x).getProposal p.tenantId p.id).isSome ∧ admits x audit)) ∨
      (admits x audit ∧ (∃ current, (tables x).getProposal p.tenantId p.id = some current) ∧
        (tables (act x)).items = (tables x).items ∧
          ∃ q, (tables (act x)).getProposal p.tenantId p.id = some q ∧ q.status = .rejected) := by
  cases hq
  have hsaves := laws.saves x (rejectedCopy command p (d.now 0)) audit
  rcases (laws.save x (rejectedCopy command p (d.now 0)) audit).rejects_or rfl with
    ⟨hsame, hno⟩ | ⟨hok, hitems, hq⟩
  · refine .inl ⟨hsame, fun hyes => ?_⟩
    rw [hsaves.mpr hyes] at hno
    cases hno
  · obtain ⟨hsome, hadmits⟩ := hsaves.mp hok
    exact .inr ⟨hadmits, Option.isSome_iff_exists.mp hsome, hitems, hq⟩

theorem HasMemory.of_items {v u : ReviewTables} (h : u.items = v.items) :
    HasMemory u id ↔ HasMemory v id := by
  unfold HasMemory
  rw [h]

/-- A step that does not overwrite an acceptance keeps proposal and memory linked. -/
theorem Reviewing.linked (laws : ReviewLaws stores tables admits recovers)
    (h : Reviewing stores privacy t id q) (hq : q = .call act next)
    (hsafe : RejectsUnaccepted stores tables admits t id x q) (hx : ReviewLinked (tables x) t id) :
    ReviewLinked (tables (act x)) t id := by
  cases h with
  | start c of =>
    cases c with
    | accept command audit d =>
      rw [ReviewCall.program, accept_eq_call] at hq
      cases hq
      exact hx
    | reject command audit d =>
      rw [ReviewCall.program, reject_eq_call] at hq
      cases hq
      exact hx
  | accepting command audit d p item event tenant proposal prepared =>
    cases hq
    subst tenant proposal
    obtain ⟨-, -, -, -, -, -, horigin, -⟩ := prepareAcceptance_eq_ok prepared
    rcases (laws.accept x p item event command.reviewer command.reason (acceptKey command p) audit
      (d.now 3)).linked_or horigin with hsame | ⟨-, hlinked⟩
    · change ReviewLinked (tables (stores.proposals.acceptProposalWithMemory p item event
        command.reviewer command.reason (acceptKey command p) audit (d.now 3) x).2) _ _
      rw [hsame]
      exact hx
    · exact hlinked
  | rejecting command audit d p tenant proposal =>
    rcases saveRejection_call laws hq x with
      ⟨hsame, -⟩ | ⟨hadmits, ⟨current, hcur⟩, hitems, r, hr, hrej⟩
    · rw [hsame]
      exact hx
    · have hnot := hsafe command audit d p rfl tenant proposal hadmits
      subst tenant proposal
      intro q' hq'
      obtain rfl : q' = r := Option.some.inj (hq'.symm.trans hr)
      rw [hrej, HasMemory.of_items hitems]
      refine ⟨fun hc => (by cases hc), fun hmem => ?_⟩
      exact absurd ((hx current hcur).mpr hmem) (hnot current hcur)
  | done | raised => cases hq

/-- A step that overwrites an acceptance leaves the memory of a rejected proposal behind. -/
theorem broken_of_overwrite (laws : ReviewLaws stores tables admits recovers)
    (hq : q = .call act next) (hreplaces : ¬ RejectsUnaccepted stores tables admits t id x q)
    (hx : ReviewLinked (tables x) t id) : ReviewBroken (tables (act x)) t id := by
  simp only [RejectsUnaccepted, not_forall, not_not] at hreplaces
  obtain ⟨command, audit, d, p, hp, tenant, proposal, hadmits, current, hcur, hacc⟩ := hreplaces
  subst tenant proposal
  rcases saveRejection_call laws (hp.symm.trans hq) x with ⟨-, hno⟩ | ⟨-, -, hitems, r, hr, hrej⟩
  · exact absurd ⟨Option.isSome_iff_exists.mpr ⟨current, hcur⟩, hadmits⟩ hno
  · exact ⟨r, hr, hrej, (HasMemory.of_items hitems).mpr ((hx current hcur).mp hacc)⟩

/-- A rejected proposal with a memory stays one. -/
theorem Reviewing.broken (laws : ReviewLaws stores tables admits recovers)
    (h : Reviewing stores privacy t id q) (hq : q = .call act next)
    (hx : ReviewBroken (tables x) t id) : ReviewBroken (tables (act x)) t id := by
  obtain ⟨p₀, hp₀, hrej₀, hmem⟩ := hx
  have hx : ReviewBroken (tables x) t id := ⟨p₀, hp₀, hrej₀, hmem⟩
  cases h with
  | start c of =>
    cases c with
    | accept command audit d =>
      rw [ReviewCall.program, accept_eq_call] at hq
      cases hq
      exact hx
    | reject command audit d =>
      rw [ReviewCall.program, reject_eq_call] at hq
      cases hq
      exact hx
  | accepting command audit d p item event tenant proposal prepared =>
    cases hq
    subst tenant proposal
    obtain ⟨-, -, -, -, -, -, horigin, -⟩ := prepareAcceptance_eq_ok prepared
    rcases (laws.accept x p item event command.reviewer command.reason (acceptKey command p) audit
      (d.now 3)).linked_or horigin with hsame | ⟨⟨current, hcur, hnot⟩, -⟩
    · change ReviewBroken (tables (stores.proposals.acceptProposalWithMemory p item event
        command.reviewer command.reason (acceptKey command p) audit (d.now 3) x).2) _ _
      rw [hsame]
      exact hx
    · obtain rfl : current = p₀ := Option.some.inj (hcur.symm.trans hp₀)
      exact absurd hrej₀ hnot
  | rejecting command audit d p tenant proposal =>
    subst tenant proposal
    rcases saveRejection_call laws hq x with ⟨hsame, -⟩ | ⟨-, -, hitems, r, hr, hrej⟩
    · rw [hsame]
      exact hx
    · exact ⟨r, hr, hrej, (HasMemory.of_items hitems).mpr hmem⟩
  | done | raised => cases hq

variable {ι : Type} [DecidableEq ι]

/-- Once a proposal is rejected with a memory, it is so at the end of every schedule. -/
theorem ReviewBroken.exec (laws : ReviewLaws stores tables admits recovers)
    {c : Pool.Config σ Exn ReviewMemoryProposalResult ι}
    (hc : ∀ j, Reviewing stores privacy t id (c.2 j)) (hx : ReviewBroken (tables c.1) t id)
    (schedule : List ι) : ReviewBroken (tables (Pool.exec c schedule).1) t id := by
  refine (Pool.exec_induction (I := fun c : Pool.Config σ Exn ReviewMemoryProposalResult ι =>
    ReviewBroken (tables c.1) t id ∧ ∀ j, Reviewing stores privacy t id (c.2 j))
      (fun c i h => ?_) ⟨hx, hc⟩ schedule).1
  refine Pool.step_of_calls (J := fun x => ReviewBroken (tables x) t id)
    (fun act next hcall => ?_) h.1 h.2
  have hi := h.2 i
  exact ⟨hi.broken laws hcall h.1, hi.remains laws hcall c.1⟩

/-- From a linked proposal, the law holds at the end of a schedule exactly when no step of it
overwrites an acceptance. -/
theorem reviewExclusive_iff (laws : ReviewLaws stores tables admits recovers)
    {c : Pool.Config σ Exn ReviewMemoryProposalResult ι}
    (hc : ∀ j, Reviewing stores privacy t id (c.2 j)) (hx : ReviewLinked (tables c.1) t id)
    (schedule : List ι) :
    ReviewExclusive (tables (Pool.exec c schedule).1) t id ↔
      Pool.Always (RejectsUnaccepted stores tables admits t id) c schedule := by
  induction schedule generalizing c with
  | nil => exact ⟨fun _ => trivial, fun _ => hx.exclusive⟩
  | cons i rest ih =>
    rw [Pool.exec_cons, Pool.Always]
    have hi := hc i
    cases hq : c.2 i with
    | done r | raise e =>
      have hstay : Pool.step c i = c := Pool.step_of_no_call fun act next h => by
        rw [hq] at h
        cases h
      rw [hstay, ih hc hx]
      refine ⟨fun h => ⟨fun command audit d p hp => ?_, h⟩, fun h => h.2⟩
      cases hp
    | call act next =>
      have hstep := Pool.step_of_call hq
      have hc' : ∀ j, Reviewing stores privacy t id ((Pool.step c i).2 j) := by
        intro j
        rw [hstep]
        by_cases hj : j = i
        · subst hj
          simpa using hi.remains laws hq c.1
        · simpa [Function.update_of_ne hj] using hc j
      by_cases hsafe : RejectsUnaccepted stores tables admits t id c.1 (c.2 i)
      · have hlinked : ReviewLinked (tables (Pool.step c i).1) t id := by
          rw [hstep]
          exact hi.linked laws hq hsafe hx
        rw [ih hc' hlinked]
        exact ⟨fun h => ⟨hq ▸ hsafe, h⟩, fun h => h.2⟩
      · have hbroken : ReviewBroken (tables (Pool.step c i).1) t id := by
          rw [hstep]
          exact broken_of_overwrite laws hq hsafe hx
        have hend := (hbroken.exec laws hc' rest).not_exclusive
        exact ⟨fun h => absurd h hend, fun h => absurd (hq ▸ h.1) hsafe⟩

end

/-- In the states that runs lead to, the law links the proposal to its memory. -/
theorem ReviewExclusive.linked {v : ReviewTables} {t id : UUID} (h : ReviewExclusive v t id)
    (hv : v.Sound) : ReviewLinked v t id := by
  intro p hp
  refine ⟨fun hacc => ?_, (h p hp).2⟩
  obtain ⟨hpm, hpid, -⟩ := getProposal_eq_some.mp hp
  obtain ⟨i, hi, has⟩ := hv p hpm hacc
  exact ⟨i, hi, hpid ▸ has.origin⟩

/-- Clients that review one proposal, each at its first call. -/
def reviewPool {σ ι : Type} (stores : MemoryStores σ) (privacy : PrivacyGuard)
    (calls : ι → ReviewCall) (x : σ) : Pool.Config σ Exn ReviewMemoryProposalResult ι :=
  (x, fun j => (calls j).program stores privacy)

/-- For any number of interleaved reviews of one proposal, on either repository and from any
reachable state in which the law holds: it holds after a schedule exactly when no step of the
schedule saves a rejection of the proposal while it is stored as accepted. -/
theorem review_exclusive_iff (privacy : PrivacyGuard) {ι : Type} [DecidableEq ι]
    (calls : ι → ReviewCall) (t id : UUID) (hof : ∀ j, (calls j).Of t id) (schedule : List ι) :
    (∀ s, Leads inMemoryStores InMemoryMemoryStore.tables privacy .empty s →
      ReviewExclusive s.tables t id →
        (ReviewExclusive (Pool.exec (reviewPool inMemoryStores privacy calls s) schedule).1.tables
            t id ↔
          Pool.Always
            (RejectsUnaccepted inMemoryStores InMemoryMemoryStore.tables (fun _ _ => True) t id)
            (reviewPool inMemoryStores privacy calls s) schedule)) ∧
    ∀ items proposals audits s, Leads postgresStores PostgresMemoryLedger.tables privacy
        (.empty items proposals audits) s →
      ReviewExclusive s.tables t id →
        (ReviewExclusive (Pool.exec (reviewPool postgresStores privacy calls s) schedule).1.tables
            t id ↔
          Pool.Always (RejectsUnaccepted postgresStores PostgresMemoryLedger.tables
            PostgresMemoryLedger.AdmitsAudit t id)
            (reviewPool postgresStores privacy calls s) schedule) := by
  constructor
  · intro s hs hlaw
    exact reviewExclusive_iff inMemory_reviewLaws (fun j => .start _ (hof j))
      (hlaw.linked (hs.sound inMemory_reviewLaws sound_empty)) schedule
  · intro _ _ _ s hs hlaw
    exact reviewExclusive_iff postgres_reviewLaws (fun j => .start _ (hof j))
      (hlaw.linked (hs.sound postgres_reviewLaws sound_empty)) schedule

/-- One client accepts the submitted proposal and one rejects it. -/
def acceptAndReject : Bool → ReviewCall
  | true => .accept (acceptUnder none) none (drawsFrom 30)
  | false => .reject (acceptUnder none) none (drawsFrom 40)

/-- The rejection reads, the acceptance runs, the rejection saves. -/
def overwrittenAcceptance : InMemoryMemoryStore :=
  (Pool.exec (reviewPool inMemoryStores { enabled := false } acceptAndReject storeWithProposal)
    [false, true, true, false]).1

/-- The proposal ends as rejected although its memory exists. -/
theorem overwrittenAcceptance_not_exclusive :
    ¬ ReviewExclusive overwrittenAcceptance.tables (UUID.ofNat 1) (UUID.ofNat 20) := by
  refine ReviewBroken.not_exclusive ?_
  have hstatus : (overwrittenAcceptance.tables.getProposal (UUID.ofNat 1) (UUID.ofNat 20)).map
      (fun p => p.status) = some .rejected := by decide +kernel
  obtain ⟨p, hp, hrej⟩ := Option.map_eq_some_iff.mp hstatus
  refine ⟨p, hp, hrej, ?_⟩
  unfold HasMemory
  decide +kernel

/-- While the submitted proposal is open, no step overwrites an acceptance. -/
theorem rejectsUnaccepted_of_open {s : InMemoryMemoryStore}
    {q : Proc InMemoryMemoryStore Exn ReviewMemoryProposalResult}
    (h : (s.tables.getProposal (UUID.ofNat 1) (UUID.ofNat 20)).map (fun p => p.status) =
      some .open) :
    RejectsUnaccepted inMemoryStores InMemoryMemoryStore.tables (fun _ _ => True) (UUID.ofNat 1)
      (UUID.ofNat 20) s q := by
  intro _ _ _ _ _ _ _ _ current hcur hacc
  rw [Option.mem_def] at hcur
  rw [hcur, Option.map_some, hacc] at h
  cases h

/-- An acceptance before the rejection reads keeps the law. -/
theorem review_exclusive_iff_example :
    ReviewExclusive (Pool.exec (reviewPool inMemoryStores { enabled := false } acceptAndReject
      storeWithProposal) [true, true]).1.tables (UUID.ofNat 1) (UUID.ofNat 20) := by
  have hof : ∀ j, (acceptAndReject j).Of (UUID.ofNat 1) (UUID.ofNat 20) := by
    intro j
    cases j <;> exact ⟨rfl, rfl⟩
  have hlaw : ReviewExclusive storeWithProposal.tables (UUID.ofNat 1) (UUID.ofNat 20) := by
    have hmem : ¬ HasMemory storeWithProposal.tables (UUID.ofNat 20) := by
      unfold HasMemory
      decide +kernel
    exact fun p _ => ⟨fun _ => hmem, fun h => absurd h hmem⟩
  refine ((review_exclusive_iff { enabled := false } acceptAndReject (UUID.ofNat 1)
    (UUID.ofNat 20) hof [true, true]).1 storeWithProposal storeWithProposal_reached hlaw).mpr ?_
  exact ⟨rejectsUnaccepted_of_open (by decide +kernel),
    rejectsUnaccepted_of_open (by decide +kernel),
    trivial⟩

end MemoryPlane
