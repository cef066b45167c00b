import MemoryPlane.Services.Conversations

/-!
# What a curation does

A curation works on one proposal: the one stored under its key, or else the one it builds from
the turn. A built proposal names its turn, and its quotes are those of the answer of a model that
occur in the joined texts of the turn. Every outcome of a curation is described by the calls it made
for that proposal.
-/

namespace MemoryPlane

open MemoryProposalService

namespace ConversationCurator

/-- The quotes that metadata name as evidence. -/
def quotesOf (metadata : JsonObject) : List Json :=
  match metadata.get "evidence_quotes" with
  | some (.arr quotes) => quotes
  | _ => []

/-- The quotes that a proposal keeps as its evidence. -/
def evidenceQuotes (p : MemoryProposal) : List Json := quotesOf p.metadata

/-- The content of a message of the turn holds the text. -/
def OccursIn (turn : ConversationTurn) (text : String) : Prop :=
  ∃ content ∈ turn.contents, text.toList <:+: content.toList

/-- The proposal names the turn as its source, and each of its quotes occurs in a message of the
turn. -/
structure SourcedIn (turn : ConversationTurn) (p : MemoryProposal) : Prop where
  turnId : p.metadata.get "source_turn_id" = some (.str turn.id.str)
  quotes : ∀ q ∈ evidenceQuotes p, ∃ text, q = .str text ∧ OccursIn turn text

/-- Being sourced depends on two members of the metadata. -/
theorem SourcedIn.congr {turn : ConversationTurn} {p q : MemoryProposal}
    (hturn : q.metadata.get "source_turn_id" = p.metadata.get "source_turn_id")
    (hquotes : q.metadata.get "evidence_quotes" = p.metadata.get "evidence_quotes") :
    SourcedIn turn q ↔ SourcedIn turn p := by
  have heq : evidenceQuotes q = evidenceQuotes p := by
    unfold evidenceQuotes quotesOf
    rw [hquotes]
  constructor
  · exact fun h => ⟨hturn ▸ h.turnId, heq ▸ h.quotes⟩
  · exact fun h => ⟨hturn.symm ▸ h.turnId, heq.symm ▸ h.quotes⟩

section

variable (ops : TextOps) (llm : Option MemoryReasoner) (turn : ConversationTurn)

/-- The quotes of the answer of a model that the joined texts of the turn hold. -/
def modelQuotes : List String :=
  match llm with
  | none => []
  | some chat =>
    match curationPayload ops chat turn with
    | .error _ => []
    | .ok (payload, _) =>
      if curationPayloadToText ops payload = "" then [] else verifiedEvidenceQuotes ops payload turn

variable {ops llm turn}

/-- The summary of a model carries those quotes. -/
theorem quotes_of_llmSummaryText {chat : MemoryReasoner} {answer : Option (String × JsonObject)}
    (h : llmSummaryText ops chat turn = .ok answer) :
    (answer.elim [] fun a => quotesOf a.2) = (modelQuotes ops (some chat) turn).map .str := by
  unfold llmSummaryText at h
  unfold modelQuotes
  simp only
  cases hpayload : curationPayload ops chat turn with
  | error failure =>
    rw [hpayload] at h
    cases h
    rfl
  | ok payload =>
    obtain ⟨payload, chunks⟩ := payload
    rw [hpayload] at h
    simp only at h ⊢
    by_cases htext : curationPayloadToText ops payload = ""
    · rw [if_pos htext] at h
      rw [if_pos htext]
      cases h
      rfl
    · rw [if_neg htext] at h
      rw [if_neg htext]
      obtain ⟨confidence, -, h⟩ := Except.bind_eq_ok.mp h
      cases h
      rfl

/-- So does every summary. -/
theorem quotes_of_summaryText {text : String} {metadata : JsonObject}
    (h : summaryText ops llm turn = .ok (text, metadata)) :
    quotesOf metadata = (modelQuotes ops llm turn).map .str := by
  have hplain : quotesOf [("curator_engine", .str "deterministic"),
      ("curator_version", .str "conversation-curator-v1")] = [] := by
    simp [quotesOf, JsonObject.get_cons]
  unfold summaryText at h
  cases llm with
  | none =>
    rw [← (Prod.mk.inj (Except.ok.inj h)).2, hplain]
    rfl
  | some chat =>
    obtain ⟨answer, hanswer, hmetadata⟩ := Except.map_eq_ok.mp h
    rw [← quotes_of_llmSummaryText hanswer]
    cases answer with
    | none =>
      rw [Option.getD_none] at hmetadata
      rw [← (Prod.mk.inj hmetadata).2, hplain, Option.elim_none]
    | some answer =>
      rw [Option.getD_some] at hmetadata
      rw [hmetadata, Option.elim_some]

end

section

variable (c : ConversationCurator) (command : CurateConversationTurnCommand)
  (turn : ConversationTurn) (d : Draws)

/-- The proposal that a curation builds from the turn. -/
def builtProposal : Except Exn MemoryProposal := do
  let (text, llmMetadata) ← summaryText c.ops c.memoryLlm turn
  buildProposal c.ops c.proposalPrivacy c.proposalLlm
    (submitCommand c.ops command turn text llmMetadata) d

/-- The entry that the key of the curation resolves to. -/
def curationEntry (s : InMemoryMemoryStore) : Option IdempotencyEntry :=
  (scopeIdempotencyKey turn.workspaceId (some (curationKey command turn))).bind fun k =>
    s.proposalIdempotency.find (turn.tenantId, k)

/-- The proposal that a curation works on. -/
def chosenProposal (s : InMemoryMemoryStore) : Option MemoryProposal :=
  match curationEntry command turn s with
  | some e => s.proposals.find e.itemId
  | none => (builtProposal c command turn d).toOption

variable {c command turn d}

/-- A built proposal is open, under the drawn identifier and in the boundary of its turn; it is
sourced in the turn exactly when each quote of the model occurs in a message. -/
theorem builtProposal_eq_ok {p : MemoryProposal} (h : builtProposal c command turn d = .ok p) :
    p.id = d.uuid4 0 ∧ p.status = .open ∧ p.tenantId = turn.tenantId ∧
      p.workspaceId = turn.workspaceId ∧
      (SourcedIn turn p ↔ ∀ quote ∈ modelQuotes c.ops c.memoryLlm turn, OccursIn turn quote) := by
  unfold builtProposal at h
  obtain ⟨⟨text, metadata⟩, hs, h⟩ := Except.bind_eq_ok.mp h
  have hb := buildProposal_eq_ok h
  refine ⟨hb.id, hb.status, hb.tenant, hb.workspace, ?_⟩
  have hturn : p.metadata.get "source_turn_id" = some (.str turn.id.str) := by
    rw [hb.metadata _ (by decide)]
    simp [submitCommand, JsonObject.get_merge, JsonObject.get_cons]
  have hkept : p.metadata.get "evidence_quotes" = metadata.get "evidence_quotes" := by
    rw [hb.metadata _ (by decide)]
    simp [submitCommand, JsonObject.get_merge, JsonObject.get_cons]
  have hquotes : evidenceQuotes p = (modelQuotes c.ops c.memoryLlm turn).map .str := by
    rw [← quotes_of_summaryText hs, evidenceQuotes, quotesOf, quotesOf, hkept]
  constructor
  · intro hsourced quote hquote
    obtain ⟨text, htext, hoccurs⟩ :=
      hsourced.quotes (.str quote) (hquotes ▸ List.mem_map_of_mem hquote)
    cases htext
    exact hoccurs
  · intro hoccurs
    refine ⟨hturn, fun q hq => ?_⟩
    rw [hquotes] at hq
    obtain ⟨quote, hquote, rfl⟩ := List.mem_map.mp hq
    exact ⟨quote, rfl, hoccurs quote hquote⟩

variable (c command turn d) in
/-- What a curation does to the memories and proposals of the store. -/
inductive Proposes (privacy : PrivacyGuard) (s : InMemoryMemoryStore) :
    Except Exn (SubmitMemoryProposalResult × Option ReviewMemoryProposalResult) →
      InMemoryMemoryStore → Prop
  /-- Nothing was stored. -/
  | raised (e : Exn) : Proposes privacy s (.error e) s
  /-- The proposal was stored, or found under the key, and left for review. -/
  | left (p stored : MemoryProposal) (created : Bool) (audit : Option AuditEvent)
      (t : InMemoryMemoryStore) (built : builtProposal c command turn d = .ok p)
      (submitted : s.appendProposal p (some (curationKey command turn)) audit =
        (.ok (stored, created), t))
      (declined : command.autoAccept = true → autoAcceptReason c.ops stored = none) :
      Proposes privacy s (.ok (⟨stored, created⟩, none)) t
  /-- The proposal was to be accepted. -/
  | reviewed (p stored : MemoryProposal) (created : Bool) (audit : Option AuditEvent)
      (t u : InMemoryMemoryStore) (reason : String) (r : Except Exn ReviewMemoryProposalResult)
      (built : builtProposal c command turn d = .ok p)
      (submitted : s.appendProposal p (some (curationKey command turn)) audit =
        (.ok (stored, created), t))
      (automatic : command.autoAccept = true)
      (eligible : autoAcceptReason c.ops stored = some reason)
      (accepted : (accept inMemoryProposals privacy (autoAcceptCommand stored reason) none
        (d.drop 1)).run t = (r, u)) :
      Proposes privacy s (r.map fun r => (⟨stored, created⟩, some r)) u

variable (c command turn d) in
/-- The submission raises, or stores what was built under the key of the curation. -/
theorem run_submitSummary (audit : Option AuditEvent) (s : InMemoryMemoryStore) :
    (∃ e, (submitSummary c command turn audit d).run s = (.error e, s)) ∨
    ∃ p, builtProposal c command turn d = .ok p ∧ ∃ a,
      (submitSummary c command turn audit d).run s =
        ((s.appendProposal p (some (curationKey command turn)) a).1.map fun r => ⟨r.1, r.2⟩,
          (s.appendProposal p (some (curationKey command turn)) a).2) := by
  unfold submitSummary builtProposal
  rw [Proc.run_bind, Proc.run_ofExcept]
  cases hs : summaryText c.ops c.memoryLlm turn with
  | error e => exact .inl ⟨e, rfl⟩
  | ok r =>
    obtain ⟨text, llmMetadata⟩ := r
    exact run_submit inMemoryProposals s c.ops c.proposalPrivacy c.proposalLlm _ audit d

variable (c command turn d) in
theorem run_propose (privacy : PrivacyGuard) (audit : Option AuditEvent)
    (s : InMemoryMemoryStore) :
    Proposes c command turn d privacy s ((propose c privacy command turn audit d).run s).1
      ((propose c privacy command turn audit d).run s).2 := by
  unfold propose
  rw [Proc.run_bind]
  rcases run_submitSummary c command turn d audit s with
    ⟨e, h⟩ | ⟨p, hp, a, h⟩
  · rw [h]
    exact .raised e
  · rw [h]
    rcases hc : s.appendProposal p (some (curationKey command turn)) a with ⟨r, t⟩
    cases r with
    | error e =>
      have ht : t = s := by
        unfold InMemoryMemoryStore.appendProposal at hc
        simp only at hc
        split at hc
        · split at hc <;> cases hc
          rfl
        · cases hc
      rw [ht]
      exact .raised e
    | ok r =>
      obtain ⟨stored, created⟩ := r
      simp only [Except.map, Proc.run_wrap]
      unfold acceptSummary
      by_cases hauto : command.autoAccept = true
      · rw [if_pos hauto, run_autoAccept]
        cases hreason : autoAcceptReason c.ops stored with
        | none => exact .left p stored created a t hp hc fun _ => hreason
        | some reason =>
          simp only
          rcases hr : (accept inMemoryProposals privacy (autoAcceptCommand stored reason) none
            (d.drop 1)).run t with ⟨r, u⟩
          have hout :
              Proposes c command turn d privacy s (r.map fun r => (⟨stored, created⟩, some r)) u :=
            .reviewed p stored created a t u reason r hp hc hauto hreason hr
          cases r <;> exact hout
      · rw [if_neg hauto]
        exact .left p stored created a t hp hc fun h => absurd h hauto

/-- The proposal that was stored or found is the chosen one. -/
theorem chosenProposal_eq {s t : InMemoryMemoryStore} {p stored : MemoryProposal} {created : Bool}
    {audit : Option AuditEvent} (hbuilt : builtProposal c command turn d = .ok p)
    (h : s.appendProposal p (some (curationKey command turn)) audit = (.ok (stored, created), t)) :
    chosenProposal c command turn d s = some stored := by
  obtain ⟨-, -, ht, hw, -⟩ := builtProposal_eq_ok hbuilt
  unfold InMemoryMemoryStore.appendProposal at h
  simp only [ht, hw] at h
  have hentry : ((scopeIdempotencyKey turn.workspaceId (some (curationKey command turn))).bind
      fun k => s.proposalIdempotency.find (turn.tenantId, k)) = curationEntry command turn s := rfl
  rw [hentry] at h
  cases hfound : curationEntry command turn s with
  | some e =>
    simp only [hfound] at h
    cases hq : s.proposals.find e.itemId with
    | none =>
      simp only [hq] at h
      cases h
    | some q =>
      simp only [hq] at h
      cases h
      simp only [chosenProposal, hfound, hq]
  | none =>
    simp only [hfound] at h
    cases h
    simp only [chosenProposal, hfound, hbuilt]
    rfl

end

end ConversationCurator

end MemoryPlane
