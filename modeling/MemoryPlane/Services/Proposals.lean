import MemoryPlane.Services.Retention

/-!
# Proposal service

Review of proposed memory changes. Accepting builds a memory item from the proposal and hands
both to one call of the repository; rejecting saves a reviewed copy.
-/

namespace MemoryPlane

/-- The repository calls that the service makes, over any repository state. -/
structure MemoryProposalRepository (σ : Type) where
  appendProposal : MemoryProposal → Option String → Option AuditEvent → σ →
    Except Exn (MemoryProposal × Bool) × σ
  getProposal : σ → UUID → UUID → Option MemoryProposal
  saveProposalReview : MemoryProposal → Option AuditEvent → σ → Except Exn MemoryProposal × σ
  acceptProposalWithMemory : MemoryProposal → MemoryItem → IntegrationEvent → String → String →
    String → Option AuditEvent → DateTime → σ →
      Except Exn (MemoryProposal × MemoryItem × Bool) × σ

/-- The in-memory store as a proposal repository. -/
def inMemoryProposals : MemoryProposalRepository InMemoryMemoryStore where
  appendProposal p key audit s := s.appendProposal p key audit
  getProposal := InMemoryMemoryStore.getProposal
  saveProposalReview p a s := s.saveProposalReview p a
  acceptProposalWithMemory p i e reviewer reason key a now s :=
    s.acceptProposalWithMemory p i e reviewer reason key a now

/-- Durable shape of a proposal target; graph proposals have none. -/
def defaultShape : MemoryProposalTarget → Option (MemoryLayer × String)
  | .fact => some (.semantic, "proposed_fact")
  | .preference => some (.social, "proposed_preference")
  | .decision => some (.core, "proposed_decision")
  | .task => some (.episodic, "proposed_task")
  | .procedure => some (.procedural, "proposed_procedure")
  | .auto => some (.semantic, "proposed_memory")
  | .graph => none

/-- Map a proposal target to its durable memory shape. -/
def memoryShape (target : MemoryProposalTarget) (layer : Option MemoryLayer)
    (kind : Option String) : Except Exn (MemoryLayer × String) :=
  match layer, kind.filter (· ≠ "") with
  | some layer, some kind => .ok (layer, kind)
  | layer, kind =>
    match defaultShape target with
    | some (defaultLayer, defaultKind) =>
      .ok (layer.getD defaultLayer, kind.getD defaultKind)
    | none => .error (.keyError target.value)

/-- Bound a text: stripped, cut and marked when it is too long. -/
def trimText (text : String) (limit : ℕ) : String :=
  let value := Text.strip text
  if value.length ≤ limit then value else Text.rstrip (Text.take limit value) ++ "\n..."

/-- Bounded durable memory text from a proposal and its evidence. -/
def acceptedMemoryText (p : MemoryProposal) : String :=
  let text := Text.strip p.proposal
  let evidence := Text.strip p.evidence
  trimText (if evidence = "" then text else "\n".intercalate [text, "", "Evidence:", evidence]) 6000

namespace MemoryProposalService

variable {σ : Type} (repository : MemoryProposalRepository σ) (privacy : PrivacyGuard)

/-- The idempotency key under which a proposal is accepted. -/
def acceptKey (command : ReviewMemoryProposalCommand) (p : MemoryProposal) : String :=
  (command.idempotencyKey.filter (· ≠ "")).getD s!"accept-proposal:{p.id.str}"

/-- `proposal://<id>`. -/
def proposalUri (id : UUID) : String := s!"proposal://{id.str}"

/-- The retention command that an accepted proposal turns into. -/
def retainCommand (command : ReviewMemoryProposalCommand) (p : MemoryProposal)
    (layer : MemoryLayer) (kind : String) : RetainCommand where
  tenantId := p.tenantId
  workspaceId := p.workspaceId
  agentId := p.agentId
  threadId := p.threadId
  layer := layer
  scope := if p.threadId ≠ none then .thread else .workspace
  kind := kind
  text := acceptedMemoryText p
  labels := (["proposal", p.namespace, p.target.value] ++ command.labels).eraseDups
  provenance :=
    { sourceKind := "memory_proposal"
      originUri := some (proposalUri p.id)
      quote := some (trimText (if p.evidence = "" then p.proposal else p.evidence) 1800)
      extractionVersion := "memory-proposal-review-v1" }
  importance := p.importance
  confidence := p.confidence
  metadata :=
    [("proposal_id", .str p.id.str), ("proposal_requester", .str p.requester),
      ("proposal_target", .str p.target.value), ("proposal_namespace", .str p.namespace)]
  idempotencyKey := some (acceptKey command p)

/-- The checks and the item of an acceptance, before the repository is called again. -/
def prepareAcceptance (command : ReviewMemoryProposalCommand) (p : MemoryProposal) (d : Draws) :
    Except Exn (MemoryItem × IntegrationEvent) :=
  if p.status = .rejected then .error (.valueError "rejected proposal cannot be accepted")
  else if p.target = .graph then
    .error (.valueError
      "graph proposals require the dedicated evidence-bound graph review path")
  else do
    let (layer, kind) ← memoryShape p.target command.layer command.kind
    RetentionService.prepare privacy (retainCommand command p layer kind) d

/-- Accept a proposal and create a recallable memory item. -/
def accept (command : ReviewMemoryProposalCommand) (audit : Option AuditEvent) (d : Draws) :
    Proc σ Exn ReviewMemoryProposalResult := do
  match ← Proc.read fun s => repository.getProposal s command.tenantId command.proposalId with
  | none => .raise (.keyError "memory proposal not found")
  | some p =>
    let (item, event) ← Proc.ofExcept (prepareAcceptance privacy command p d)
    let audit := audit.map fun a => a.replaceScope p.workspaceId p.id.str
    let (stored, memory, created) ← Proc.invoke <|
      repository.acceptProposalWithMemory p item event command.reviewer command.reason
        (acceptKey command p) audit (d.now 3)
    return ⟨stored, some ⟨memory, created, if created then [event.id] else []⟩⟩

/-- The reviewed copy that a rejection saves. -/
def rejectedCopy (command : ReviewMemoryProposalCommand) (p : MemoryProposal) (now : DateTime) :
    MemoryProposal :=
  p.reviewed .rejected now (reviewerName command.reviewer)
    (Text.take 1000 (Text.strip command.reason)) p.metadata

/-- Reject a proposal without creating durable memory. -/
def reject (command : ReviewMemoryProposalCommand) (audit : Option AuditEvent) (d : Draws) :
    Proc σ Exn ReviewMemoryProposalResult := do
  match ← Proc.read fun s => repository.getProposal s command.tenantId command.proposalId with
  | none => .raise (.keyError "memory proposal not found")
  | some p =>
    if p.status = .accepted then .raise (.valueError "accepted proposal cannot be rejected")
    else
      let audit := audit.map fun a => a.replaceScope p.workspaceId p.id.str
      let stored ← Proc.invoke <|
        repository.saveProposalReview (rejectedCopy command p (d.now 0)) audit
      return ⟨stored, none⟩

variable {privacy}

/-- The item of an acceptance is new, starts a chain and names the proposal as its origin. -/
theorem prepareAcceptance_eq_ok {command : ReviewMemoryProposalCommand} {p : MemoryProposal}
    {d : Draws} {item : MemoryItem} {event : IntegrationEvent}
    (h : prepareAcceptance privacy command p d = .ok (item, event)) :
    item.id = d.uuid4 0 ∧ event.id = d.uuid4 1 ∧ item.supersedesId = none ∧ item.revision = 1 ∧
      item.tenantId = p.tenantId ∧ item.workspaceId = p.workspaceId ∧
        item.provenance.originUri = some (proposalUri p.id) ∧ event.Announces item := by
  unfold prepareAcceptance at h
  split at h
  · cases h
  split at h
  · cases h
  obtain ⟨⟨layer, kind⟩, -, h⟩ := Except.bind_eq_ok.mp h
  obtain ⟨hid, he, hs, hr, ht, hw, hp, ha⟩ := RetentionService.prepare_eq_ok h
  exact ⟨hid, he, hs, hr, ht, hw, by rw [hp]; rfl, ha⟩

/-- A proposal with a target and text that were acceptable before stays acceptable, whatever
the command and the draws, until it is rejected. -/
theorem exists_prepareAcceptance {command : ReviewMemoryProposalCommand} {p : MemoryProposal}
    {d : Draws} {r : MemoryItem × IntegrationEvent}
    (h : prepareAcceptance privacy command p d = .ok r) {q : MemoryProposal}
    (htarget : q.target = p.target) (htext : acceptedMemoryText q = acceptedMemoryText p)
    (hstatus : q.status ≠ .rejected) (command' : ReviewMemoryProposalCommand) (d' : Draws) :
    ∃ r', prepareAcceptance privacy command' q d' = .ok r' := by
  unfold prepareAcceptance at h ⊢
  split at h
  · cases h
  split at h
  · cases h
  rename_i hgraph
  obtain ⟨⟨layer, kind⟩, -, h⟩ := Except.bind_eq_ok.mp h
  obtain ⟨item, event⟩ := r
  obtain ⟨decision, hdecision, hblank⟩ := RetentionService.prepare_text h
  rw [if_neg hstatus, if_neg (htarget ▸ hgraph)]
  have hshape : ∃ s, memoryShape q.target command'.layer command'.kind = .ok s := by
    rw [htarget]
    unfold memoryShape
    split
    · exact ⟨_, rfl⟩
    · cases ht : p.target with
      | graph => exact absurd ht hgraph
      | auto | fact | preference | decision | task | procedure => exact ⟨_, rfl⟩
  obtain ⟨⟨layer', kind'⟩, hs⟩ := hshape
  rw [hs, Except.ok_bind]
  have hagain : privacy.apply (retainCommand command' q layer' kind').text = .ok decision := by
    simp only [retainCommand, htext] at hdecision ⊢
    exact hdecision
  refine RetentionService.exists_prepare d' hagain hblank q.bounds.2 q.bounds.1 ?_ ?_ ?_
  · intro hscope
    by_contra hnone
    simp only [retainCommand] at hscope hnone
    simp [hnone] at hscope
  · intro hscope
    simp only [retainCommand] at hscope
    split at hscope <;> cases hscope
  · intro hpinned
    simp only [retainCommand] at hpinned
    cases hpinned

/-- The result that the service makes of an acceptance. -/
def acceptanceOf (event : IntegrationEvent) (r : MemoryProposal × MemoryItem × Bool) :
    ReviewMemoryProposalResult :=
  ⟨r.1, some ⟨r.2.1, r.2.2, if r.2.2 then [event.id] else []⟩⟩

variable {repository : MemoryProposalRepository σ} {d : Draws} {x : σ}

variable (repository) in
/-- `accept` of a stored proposal whose memory was prepared makes its second call. -/
theorem run_accept_of_prepared {command : ReviewMemoryProposalCommand} (audit : Option AuditEvent)
    {p : MemoryProposal} {item : MemoryItem} {event : IntegrationEvent}
    (hg : repository.getProposal x command.tenantId command.proposalId = some p)
    (hp : prepareAcceptance privacy command p d = .ok (item, event)) :
    ∃ a, (accept repository privacy command audit d).run x =
      ((repository.acceptProposalWithMemory p item event command.reviewer command.reason
          (acceptKey command p) a (d.now 3) x).1.map (acceptanceOf event),
        (repository.acceptProposalWithMemory p item event command.reviewer command.reason
          (acceptKey command p) a (d.now 3) x).2) := by
  refine ⟨audit.map fun a => a.replaceScope p.workspaceId p.id.str, ?_⟩
  unfold accept
  rw [Proc.run_bind, Proc.run_read]
  simp only [hg, Proc.run_bind, Proc.run_ofExcept, hp, Proc.run_invoke]
  rcases hc : repository.acceptProposalWithMemory p item event _ _ _ _ _ x with ⟨r, t⟩
  cases r <;> rfl

variable (repository privacy d x) in
/-- `accept` raises before its second repository call, or makes it with what it prepared from
the proposal it read. -/
theorem run_accept (command : ReviewMemoryProposalCommand) (audit : Option AuditEvent) :
    (∃ e, (accept repository privacy command audit d).run x = (.error e, x)) ∨
    ∃ p item event, repository.getProposal x command.tenantId command.proposalId = some p ∧
      prepareAcceptance privacy command p d = .ok (item, event) ∧ ∃ a,
        (accept repository privacy command audit d).run x =
          ((repository.acceptProposalWithMemory p item event command.reviewer command.reason
              (acceptKey command p) a (d.now 3) x).1.map (acceptanceOf event),
            (repository.acceptProposalWithMemory p item event command.reviewer command.reason
              (acceptKey command p) a (d.now 3) x).2) := by
  cases hg : repository.getProposal x command.tenantId command.proposalId with
  | none =>
    refine .inl ⟨.keyError "memory proposal not found", ?_⟩
    unfold accept
    rw [Proc.run_bind, Proc.run_read]
    simp [hg]
  | some p =>
    cases hp : prepareAcceptance privacy command p d with
    | error e =>
      refine .inl ⟨e, ?_⟩
      unfold accept
      rw [Proc.run_bind, Proc.run_read]
      simp [hg, Proc.run_bind, hp]
    | ok r =>
      obtain ⟨item, event⟩ := r
      exact .inr ⟨p, item, event, rfl, hp, run_accept_of_prepared _ audit hg hp⟩

variable (repository d x) in
/-- `reject` raises before its second repository call, or saves a reviewed copy of the proposal
it read. -/
theorem run_reject (command : ReviewMemoryProposalCommand) (audit : Option AuditEvent) :
    (∃ e, (reject repository command audit d).run x = (.error e, x)) ∨
    ∃ p, repository.getProposal x command.tenantId command.proposalId = some p ∧
      p.status ≠ .accepted ∧ ∃ a,
        (reject repository command audit d).run x =
          ((repository.saveProposalReview (rejectedCopy command p (d.now 0)) a x).1.map
              fun stored => ⟨stored, none⟩,
            (repository.saveProposalReview (rejectedCopy command p (d.now 0)) a x).2) := by
  unfold reject
  rw [Proc.run_bind, Proc.run_read]
  cases hg : repository.getProposal x command.tenantId command.proposalId with
  | none => exact .inl ⟨_, rfl⟩
  | some p =>
    by_cases hacc : p.status = .accepted
    · exact .inl ⟨.valueError "accepted proposal cannot be rejected", by simp [hacc]⟩
    · refine .inr ⟨p, rfl, hacc, audit.map fun a => a.replaceScope p.workspaceId p.id.str, ?_⟩
      simp only [if_neg hacc, Proc.run_bind, Proc.run_invoke]
      rcases hc : repository.saveProposalReview (rejectedCopy command p (d.now 0)) _ x with ⟨r, t⟩
      cases r <;> rfl

end MemoryProposalService

end MemoryPlane
