import MemoryPlane.Python.Float
import MemoryPlane.Services.Proposals

/-!
# Submission of proposals

Proposed text is sanitized, classified by a reasoning model where one is bound, and stored as an
open proposal. An open proposal may be accepted without a reviewer when its evidence carries a
literal quote and its claim is neither temporal nor uncertain.
-/

namespace MemoryPlane

/-- The result of `float(value)`. -/
inductive FloatValue where
  | finite (q : ℚ)
  | infinite (negative : Bool)
  | nan

/-- Conversions of the language runtime between texts, numbers and decoded values. -/
structure TextOps where
  /-- `str.lower`. -/
  lower : String → String
  /-- `str(value)` of a value that is not a string. -/
  repr : Json → String
  /-- `int(value)`. -/
  int : Json → Except Exn ℤ
  /-- `float(value)`. -/
  float : Json → Except Exn FloatValue
  /-- `json.dumps(value, ensure_ascii=False)`. -/
  dumps : Json → String
  /-- `datetime.isoformat`. -/
  isoformat : DateTime → String

namespace TextOps

variable (ops : TextOps)

/-- `str(value)`. -/
def str : Json → String
  | .str s => s
  | v => ops.repr v

/-- `str(value or "")`. -/
def strOrEmpty (v : Json) : String := if v.truthy then ops.str v else ""

/-- `max(0.0, min(1.0, parsed))`. -/
def unitClamp : FloatValue → ℚ
  | .finite q => max 0 (min 1 q)
  | .infinite negative => if negative then 0 else 1
  | .nan => 1

/-- `_safe_float`: the clamped number, the fallback where there is none; an overflow is not
caught. -/
def safeFloat {α : Type} (value : Json) (number : ℚ → α) (fallback : α) : Except Exn α :=
  match ops.float value with
  | .ok parsed => .ok (number (unitClamp parsed))
  | .error (.typeError _) => .ok fallback
  | .error (.valueError _) => .ok fallback
  | .error e => .error e

end TextOps

/-- A request to a reasoning model: pairs of a role and a text, and the token budget. -/
structure ChatRequest where
  messages : List (String × String)
  temperature : ℚ
  maxTokens : ℕ

/-- A reasoning model: its answer to the n-th request of a call, or the class of its error. -/
abbrev MemoryReasoner := ℕ → ChatRequest → Except String JsonObject

/-- Request to submit a proposed memory change. -/
structure SubmitMemoryProposalCommand where
  tenantId : UUID
  workspaceId : UUID
  «namespace» : String
  requester : String
  proposal : String
  evidence : String := ""
  target : MemoryProposalTarget := .auto
  agentId : Option UUID := none
  threadId : Option UUID := none
  confidence : ℚ := 7 / 10
  importance : ℚ := 1 / 2
  metadata : JsonObject := []
  idempotencyKey : Option String := none

/-- Result of storing one proposal. -/
structure SubmitMemoryProposalResult where
  proposal : MemoryProposal
  created : Bool

namespace MemoryProposalService

/-- `dict(value)` of a decoded value. -/
def asDict : Json → Except Exn JsonObject
  | .obj members => .ok members
  | .arr [] => .ok []
  | .str "" => .ok []
  | _ => .error (.typeError "value is not a mapping")

/-- The entries of a list of texts. -/
def asTexts : Json → Except Exn (List String)
  | .arr xs => xs.mapM fun x =>
    match x with
    | .str s => .ok s
    | _ => .error (.typeError "value is not a text")
  | _ => .error (.typeError "value is not a list")

/-- The member, where it is true, else the other value. -/
def orElse (d : JsonObject) (name : String) (other : Json) : Json :=
  ((d.get name).filter Json.truthy).getD other

/-- Add the counts of one block to those of another. -/
def addCounts (ops : TextOps) (counts right : JsonObject) : Except Exn JsonObject :=
  right.foldlM (fun acc m => do
    let before ← ops.int ((acc.get m.1).getD (.int 0))
    let more ← ops.int m.2
    return acc.set m.1 (.int (before + more))) counts

/-- `_merge_privacy_block`. -/
def mergePrivacyBlock (ops : TextOps) (left right : JsonObject) : Except Exn JsonObject := do
  let leftCounts ← asDict (orElse left "counts" (.obj []))
  let rightCounts ← asDict (orElse right "counts" (.obj []))
  let counts ← addCounts ops leftCounts rightCounts
  let leftKinds ← asTexts ((left.get "finding_kinds").getD (.arr []))
  let rightKinds ← asTexts ((right.get "finding_kinds").getD (.arr []))
  let leftCount ← ops.int (orElse left "finding_count" (.int 0))
  let rightCount ← ops.int (orElse right "finding_count" (.int 0))
  return [("action", orElse right "action" ((left.get "action").getD .null)),
    ("finding_count", .int (leftCount + rightCount)),
    ("finding_kinds", .arr ((sortedBy id (leftKinds ++ rightKinds).eraseDups).map .str)),
    ("counts", .obj counts)]

/-- The value that one member of the guard's metadata merges to; nested counters of the
"privacy" member are added where `blocks` is set. -/
def mergedValue (ops : TextOps) (blocks : Bool) (merged : JsonObject) (name : String)
    (value : Json) : Except Exn Json :=
  match value with
  | .obj block =>
    if blocks ∧ name = "privacy" then do
      let left ← asDict ((merged.get name).getD (.obj []))
      return .obj (← mergePrivacyBlock ops left block)
    else .ok value
  | .int n => do
    let before ← ops.int ((merged.get name).getD (.int 0))
    return .int (before + n)
  | .bool b => do
    let before ← ops.int ((merged.get name).getD (.int 0))
    return .int (before + if b then 1 else 0)
  | .arr xs =>
    match (merged.get name).getD (.arr []) with
    | .arr before => .ok (.arr (before ++ xs))
    | _ => .error (.typeError "value is not a list")
  | _ => .ok value

/-- The two functions `_merge_privacy_metadata`, with and without nested counters. -/
def mergeMetadata (ops : TextOps) (blocks : Bool) (left right : JsonObject) :
    Except Exn JsonObject :=
  right.foldlM (fun merged m => do return merged.set m.1 (← mergedValue ops blocks merged m.1 m.2))
    left

/-- `_merge_privacy_metadata` of the proposal service. -/
def mergePrivacyMetadata (ops : TextOps) (left right : JsonObject) : Except Exn JsonObject :=
  mergeMetadata ops true left right

/-- `_parse_target`. -/
def parseTarget (ops : TextOps) (value : Json) : Option MemoryProposalTarget :=
  let name := ops.lower (Text.strip (ops.strOrEmpty value))
  [.fact, .preference, .decision, .task, .graph, .procedure].find? fun t => t.value = name

/-- The question that a proposal is classified by. -/
def classifyRequest (proposal evidence : String) : ChatRequest where
  messages :=
    [("system", "You are Memory Gateway for Obelisk Memory. Classify a proposed memory update " ++
        "conservatively. Return JSON only. target must be one of: fact, preference, decision, " ++
        "task, graph, procedure. Never accept or reject here; only classify."),
      ("user", trimText ("Classify this proposal. Return keys target, confidence, importance, " ++
        s!"rationale.\n\nproposal: {proposal}\n\nevidence: {evidence}") 12000)]
  temperature := 0
  maxTokens := 900

/-- What a classification settles. -/
structure Classification where
  target : MemoryProposalTarget
  confidence : ℚ
  importance : ℚ
  metadata : JsonObject

/-- `_classify_proposal`: an error of the model leaves the proposal as it was. -/
def classifyProposal (ops : TextOps) (chat : MemoryReasoner) (proposal evidence : String)
    (c : Classification) : Except Exn Classification :=
  match chat 0 (classifyRequest proposal evidence) with
  | .error failure =>
    let metadata := c.metadata.set "gateway_engine" (.str "deterministic_fallback")
    .ok { c with metadata := metadata.set "gateway_llm_error" (.str failure) }
  | .ok payload => do
    let target := (parseTarget ops ((payload.get "target").getD .null)).getD c.target
    let confidence ← ops.safeFloat ((payload.get "confidence").getD .null) id c.confidence
    let importance ← ops.safeFloat ((payload.get "importance").getD .null) id c.importance
    let rationale := trimText (ops.strOrEmpty ((payload.get "rationale").getD .null)) 1000
    let metadata := c.metadata.set "gateway_engine" (.str "memory_llm")
    let metadata := metadata.set "gateway_version" (.str "memory-proposal-classifier-llm-v1")
    return ⟨target, confidence, importance, metadata.set "gateway_rationale" (.str rationale)⟩

section

variable (ops : TextOps) (privacy : PrivacyGuard) (llm : Option MemoryReasoner)

/-- The metadata of a submission with what the guard found in its texts. -/
def guardedMetadata (command : SubmitMemoryProposalCommand) (proposal : PrivacyDecision)
    (evidence : Option PrivacyDecision) : Except Exn JsonObject := do
  let metadata ← mergePrivacyMetadata ops command.metadata proposal.metadata
  match evidence with
  | none => return metadata
  | some decision => mergePrivacyMetadata ops metadata decision.metadata

/-- The evidence is guarded where there is some. -/
def guardedEvidence (evidence : String) : Except Exn (Option PrivacyDecision) :=
  if evidence = "" then .ok none else (privacy.apply evidence).map some

/-- A proposal without a target is classified where a model is bound. -/
def settle (proposal evidence : String) (c : Classification) : Except Exn Classification :=
  match c.target, llm with
  | .auto, some chat => classifyProposal ops chat proposal evidence c
  | _, _ => .ok c

/-- The proposal that a submission builds. -/
def buildProposal (command : SubmitMemoryProposalCommand) (d : Draws) :
    Except Exn MemoryProposal := do
  let proposal ← privacy.apply command.proposal
  let evidence ← guardedEvidence privacy command.evidence
  let metadata ← guardedMetadata ops command proposal evidence
  let evidenceText := (evidence.map fun e => e.text).getD ""
  let given : Classification := ⟨command.target, command.confidence, command.importance, metadata⟩
  let settled ← settle ops llm proposal.text evidenceText given
  MemoryProposal.new
    { tenantId := command.tenantId
      workspaceId := command.workspaceId
      «namespace» := command.namespace
      requester := command.requester
      target := settled.target
      proposal := proposal.text
      evidence := evidenceText
      id := d.uuid4 0
      agentId := command.agentId
      threadId := command.threadId
      confidence := settled.confidence
      importance := settled.importance
      status := .open
      metadata := settled.metadata
      createdAt := d.now 0
      reviewedAt := none
      reviewer := none
      reviewReason := "" }

/-- Store a sanitized proposal for later review. -/
def submit {σ : Type} (repository : MemoryProposalRepository σ)
    (command : SubmitMemoryProposalCommand) (audit : Option AuditEvent) (d : Draws) :
    Proc σ Exn SubmitMemoryProposalResult := do
  let proposal ← Proc.ofExcept (buildProposal ops privacy llm command d)
  let audit := audit.map fun a => a.replaceScope proposal.workspaceId proposal.id.str
  let (stored, created) ← Proc.invoke
    (repository.appendProposal proposal command.idempotencyKey audit)
  return ⟨stored, created⟩

end

/-- Words of a claim about change. -/
def temporalMarkers : List String :=
  ["раньше", "сейчас", "переш", "измен", "before", "formerly", "now ", "changed", "switched"]

/-- The quotes of a proposal that its own evidence carries. -/
def carriedQuotes (ops : TextOps) (p : MemoryProposal) (quotes : List Json) : List String :=
  (quotes.map fun q => Text.strip (ops.str q)).filter fun q =>
    8 ≤ q.length && Text.contains p.evidence q

/-- `_auto_accept_reason`: an audit reason only for evidence that is safe to automate. -/
def autoAcceptReason (ops : TextOps) (p : MemoryProposal) : Option String :=
  let text := ops.lower s!"{p.proposal}\n{p.evidence}"
  if p.target ∉ [.preference, .decision, .task, .procedure] then none
  else if p.confidence < binary64 (9 / 10) ∨ Text.isBlank p.evidence then none
  else if p.metadata.get "curator_engine" = some (.str "deterministic_fallback") then none
  else if ¬ Text.contains p.evidence "source_turn_id:" ∨
    temporalMarkers.any (fun marker => Text.contains text marker) then none
  else
    match p.metadata.get "evidence_quotes" with
    | some (.arr quotes) =>
      if carriedQuotes ops p quotes = [] then none
      else some "auto-accepted: high-confidence claim with source-verified evidence quote"
    | _ => none

/-- The review that accepts a proposal without a reviewer. -/
def autoAcceptCommand (p : MemoryProposal) (reason : String) : ReviewMemoryProposalCommand where
  tenantId := p.tenantId
  proposalId := p.id
  reviewer := "obelisk-auto-policy"
  reason := reason
  idempotencyKey := some s!"auto-accept-proposal:{p.id.str}"

/-- Accept only high-evidence, non-temporal operational claims automatically. -/
def autoAccept {σ : Type} (ops : TextOps) (repository : MemoryProposalRepository σ)
    (privacy : PrivacyGuard) (p : MemoryProposal) (d : Draws) :
    Proc σ Exn (Option ReviewMemoryProposalResult) :=
  match autoAcceptReason ops p with
  | none => return none
  | some reason => do
    return some (← accept repository privacy (autoAcceptCommand p reason) none d)

section

variable {ops : TextOps} {blocks : Bool} {left right merged : JsonObject} {name : String}

/-- A merge leaves members of other names alone. -/
theorem get_of_mergeMetadata (h : mergeMetadata ops blocks left right = .ok merged)
    (hname : ∀ m ∈ right, m.1 ≠ name) : merged.get name = left.get name := by
  unfold mergeMetadata at h
  induction right generalizing left with
  | nil =>
    cases h
    rfl
  | cons m rest ih =>
    rw [List.foldlM_cons] at h
    obtain ⟨next, hnext, h⟩ := Except.bind_eq_ok.mp h
    obtain ⟨value, -, hnext⟩ := Except.bind_eq_ok.mp hnext
    cases hnext
    rw [ih h fun e he => hname e (List.mem_cons_of_mem _ he)]
    exact JsonObject.get_set_of_ne (hname m (List.mem_cons_self ..)) _

/-- The members that a submission adds to the metadata of its command. -/
def addedNames : List String :=
  ["privacy", "gateway_engine", "gateway_llm_error", "gateway_version", "gateway_rationale"]

/-- A classification writes its own members only. -/
theorem get_of_classifyProposal {chat : MemoryReasoner} {proposal evidence : String}
    {c c' : Classification} (h : classifyProposal ops chat proposal evidence c = .ok c')
    (hname : name ∉ addedNames) : c'.metadata.get name = c.metadata.get name := by
  simp only [addedNames, List.mem_cons, List.not_mem_nil, or_false, not_or] at hname
  obtain ⟨-, hengine, herror, hversion, hrationale⟩ := hname
  unfold classifyProposal at h
  split at h
  · cases h
    rw [JsonObject.get_set_of_ne (Ne.symm herror), JsonObject.get_set_of_ne (Ne.symm hengine)]
  · obtain ⟨confidence, -, h⟩ := Except.bind_eq_ok.mp h
    obtain ⟨importance, -, h⟩ := Except.bind_eq_ok.mp h
    cases h
    rw [JsonObject.get_set_of_ne (Ne.symm hrationale), JsonObject.get_set_of_ne (Ne.symm hversion),
      JsonObject.get_set_of_ne (Ne.symm hengine)]

/-- What a submission makes of its command. -/
structure Built (command : SubmitMemoryProposalCommand) (d : Draws) (p : MemoryProposal) :
    Prop where
  id : p.id = d.uuid4 0
  status : p.status = .open
  tenant : p.tenantId = command.tenantId
  workspace : p.workspaceId = command.workspaceId
  metadata : ∀ name ∉ addedNames, p.metadata.get name = command.metadata.get name

theorem buildProposal_eq_ok {privacy : PrivacyGuard} {llm : Option MemoryReasoner}
    {command : SubmitMemoryProposalCommand} {d : Draws} {p : MemoryProposal}
    (h : buildProposal ops privacy llm command d = .ok p) : Built command d p := by
  unfold buildProposal at h
  obtain ⟨proposal, hproposal, h⟩ := Except.bind_eq_ok.mp h
  obtain ⟨evidence, hevidence, h⟩ := Except.bind_eq_ok.mp h
  obtain ⟨metadata, hmetadata, h⟩ := Except.bind_eq_ok.mp h
  obtain ⟨settled, hsettled, h⟩ := Except.bind_eq_ok.mp h
  have hf := MemoryProposal.new_eq_ok.mp h
  constructor
  · rw [hf]
  · rw [hf]
  · rw [hf]
  · rw [hf]
  · intro name hname
    have hprivacy : name ≠ "privacy" := fun he => hname (by simp [addedNames, he])
    have hgiven : metadata.get name = command.metadata.get name := by
      unfold guardedMetadata at hmetadata
      obtain ⟨first, hfirst, hmetadata⟩ := Except.bind_eq_ok.mp hmetadata
      have hfirst' := get_of_mergeMetadata hfirst fun m hm he =>
        hprivacy (he.symm.trans (PrivacyGuard.name_of_apply hproposal m hm))
      cases evidence with
      | none =>
        cases hmetadata
        exact hfirst'
      | some decision =>
        have hdecision : privacy.apply command.evidence = .ok decision := by
          unfold guardedEvidence at hevidence
          split at hevidence
          · cases hevidence
          · cases ha : privacy.apply command.evidence with
            | error e =>
              rw [ha] at hevidence
              cases hevidence
            | ok decision' =>
              rw [ha] at hevidence
              cases hevidence
              rfl
        rw [← hfirst']
        exact get_of_mergeMetadata hmetadata fun m hm he =>
          hprivacy (he.symm.trans (PrivacyGuard.name_of_apply hdecision m hm))
    rw [hf, ← hgiven]
    unfold settle at hsettled
    split at hsettled
    · exact get_of_classifyProposal hsettled hname
    · cases hsettled
      rfl

variable {σ : Type} {repository : MemoryProposalRepository σ} {x : σ}

variable (repository x) in
/-- `submit` raises while building, or makes one repository call with what it built. -/
theorem run_submit (ops : TextOps) (privacy : PrivacyGuard) (llm : Option MemoryReasoner)
    (command : SubmitMemoryProposalCommand) (audit : Option AuditEvent) (d : Draws) :
    (∃ e, (submit ops privacy llm repository command audit d).run x = (.error e, x)) ∨
    ∃ p, buildProposal ops privacy llm command d = .ok p ∧ ∃ a,
      (submit ops privacy llm repository command audit d).run x =
        ((repository.appendProposal p command.idempotencyKey a x).1.map fun r => ⟨r.1, r.2⟩,
          (repository.appendProposal p command.idempotencyKey a x).2) := by
  unfold submit
  rw [Proc.run_bind, Proc.run_ofExcept]
  cases hp : buildProposal ops privacy llm command d with
  | error e => exact .inl ⟨e, rfl⟩
  | ok p =>
    refine .inr ⟨p, rfl, audit.map fun a => a.replaceScope p.workspaceId p.id.str, ?_⟩
    simp only [Proc.run_bind, Proc.run_invoke]
    rcases hc : repository.appendProposal p command.idempotencyKey _ x with ⟨r, y⟩
    cases r <;> rfl

/-- `auto_accept` does nothing without a reason, and else accepts. -/
theorem run_autoAccept (ops : TextOps) (privacy : PrivacyGuard) (p : MemoryProposal) (d : Draws) :
    (autoAccept ops repository privacy p d).run x =
      match autoAcceptReason ops p with
      | none => (.ok none, x)
      | some reason =>
        (((accept repository privacy (autoAcceptCommand p reason) none d).run x).1.map some,
          ((accept repository privacy (autoAcceptCommand p reason) none d).run x).2) := by
  unfold autoAccept
  cases autoAcceptReason ops p with
  | none => rfl
  | some reason => exact Proc.run_wrap _ some x

end

end MemoryProposalService

end MemoryPlane
