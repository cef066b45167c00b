import MemoryPlane.Runs.Conversations
import MemoryPlane.Runs.Ingestion

/-!
# The privacy audit of a turn

A turn carries a block that counts what the guard found in its messages. The blocks of the messages
are merged without their nested counters, so the block of the last message with a finding replaces
the ones before, and the counts add up exactly when no other message had a finding.
-/

namespace MemoryPlane

/-- A decision carries an audit block exactly when something was found. -/
theorem PrivacyGuard.apply_findings {g : PrivacyGuard} {text : String} {d : PrivacyDecision}
    (h : g.apply text = .ok d) : (d.findings = [] ∧ d.metadata = []) ∨
      (d.findings ≠ [] ∧ d.metadata = metadata d.findings g.action) := by
  unfold apply at h
  split at h
  · cases h
    exact .inl ⟨rfl, rfl⟩
  · simp only at h
    split at h
    · cases h
      exact .inl ⟨rfl, rfl⟩
    · rename_i hne
      split at h <;> cases h <;> exact .inr ⟨hne, rfl⟩

/-- The count of a kind among the findings. -/
theorem PrivacyGuard.get_counts (findings : List PrivacyFinding) (kind : String) :
    JsonObject.get (counts findings) kind =
      if ∃ f ∈ findings, f.kind = kind then
        some (.int (findings.countP fun f => f.kind = kind)) else none := by
  unfold JsonObject.get
  split
  · rename_i hex
    obtain ⟨f, hf, rfl⟩ := hex
    obtain ⟨ys, hys, -⟩ : ∃ ys, (f.kind, ys) ∈ groupBy PrivacyFinding.kind findings ∧ f ∈ ys :=
      exists_groupBy hf
    obtain ⟨hfilter, -⟩ := mem_groupBy hys
    have hmem : (f.kind, Json.int ys.length) ∈ counts findings := List.mem_map_of_mem hys
    cases hfound : (counts findings).reverse.find? fun m => m.1 = f.kind with
    | none =>
      have hno := List.find?_eq_none.mp hfound _ (List.mem_reverse.mpr hmem)
      simp at hno
    | some m =>
      have hkey : m.1 = f.kind := by simpa using List.find?_some hfound
      obtain ⟨g, hg, rfl⟩ :=
        List.mem_map.mp (List.mem_reverse.mp (List.mem_of_find?_eq_some hfound))
      have hgroup := (mem_groupBy hg).1
      rw [Option.map_some, List.countP_eq_length_filter, hgroup]
      dsimp only at hkey
      rw [hkey]
  · rename_i hex
    rw [Option.map_eq_none_iff, List.find?_eq_none]
    intro m hm
    obtain ⟨g, hg, rfl⟩ := List.mem_map.mp (List.mem_reverse.mp hm)
    obtain ⟨hfilter, hne⟩ := mem_groupBy hg
    obtain ⟨f, hf⟩ := List.exists_mem_of_ne_nil _ hne
    rw [hfilter, List.mem_filter, decide_eq_true_eq] at hf
    simp only [decide_eq_true_eq]
    intro hkey
    exact hex ⟨f, hf.1, hf.2.trans hkey⟩

/-- The kinds that are counted are those of the findings. -/
theorem PrivacyGuard.mem_kinds {findings : List PrivacyFinding} {kind : String} :
    kind ∈ (counts findings).map Prod.fst ↔ ∃ f ∈ findings, f.kind = kind := by
  simp only [counts, List.map_map, List.mem_map, Function.comp_apply]
  constructor
  · rintro ⟨g, hg, rfl⟩
    obtain ⟨hfilter, hne⟩ := mem_groupBy hg
    obtain ⟨f, hf⟩ := List.exists_mem_of_ne_nil _ hne
    rw [hfilter, List.mem_filter, decide_eq_true_eq] at hf
    exact ⟨f, hf⟩
  · rintro ⟨f, hf, rfl⟩
    obtain ⟨ys, hys, -⟩ : ∃ ys, (f.kind, ys) ∈ groupBy PrivacyFinding.kind findings ∧ f ∈ ys :=
      exists_groupBy hf
    exact ⟨(f.kind, ys), hys, rfl⟩

/-- A turn has the fields it was constructed from. -/
theorem ConversationTurn.new_fields {f : TurnFields} {t : ConversationTurn}
    (h : ConversationTurn.new f = .ok t) : t.toTurnFields = f := by
  unfold ConversationTurn.new at h
  split at h
  · cases h
    rfl
  · cases h

/-- An append that creates stores the turn it was given. -/
theorem ConversationStore.appendTurn_created {x : ConversationStore}
    {turn stored : ConversationTurn}
    {key : Option String} {audit : Option AuditEvent} {event : Option IntegrationEvent}
    (h : (x.appendTurn turn key audit event).1 = .ok (stored, true)) :
    stored = turn ∧ turn ∈ (x.appendTurn turn key audit event).2.turns.rows := by
  unfold ConversationStore.appendTurn at h ⊢
  simp only at h ⊢
  split at h
  · split at h <;> cases h
  · cases h
    exact ⟨rfl, Table.mem_put.mpr (.inl rfl)⟩

namespace ConversationService

variable (service : ConversationService)

/-- What the guard finds in a message. -/
def findingsOf (message : ConversationMessage) : List PrivacyFinding :=
  match service.privacy.apply message.content with
  | .ok decision => decision.findings
  | .error _ => []

/-- The messages with a finding. -/
def flagged (messages : List ConversationMessage) : List ConversationMessage :=
  messages.filter fun m => service.findingsOf m ≠ []

/-- The block counts the findings, in all and by kind, and names their kinds. -/
structure CountsFindings (findings : List PrivacyFinding) (block : JsonObject) : Prop where
  total : block.get "finding_count" = some (.int findings.length)
  counts : ∃ counts, block.get "counts" = some (.obj counts) ∧ ∀ kind,
    JsonObject.get counts kind = if ∃ f ∈ findings, f.kind = kind then
      some (.int (findings.countP fun f => f.kind = kind)) else none
  kinds : ∃ kinds : List String, block.get "finding_kinds" = some (.arr (kinds.map .str)) ∧
    ∀ kind, kind ∈ kinds ↔ ∃ f ∈ findings, f.kind = kind

/-- The turn has an audit block exactly when a message had a finding, and the block counts the
findings of all messages. -/
structure AddsUp (messages : List ConversationMessage) (turn : ConversationTurn) : Prop where
  absent : turn.metadata.get "privacy" = none ↔ ∀ m ∈ messages, service.findingsOf m = []
  counted : ∀ value, turn.metadata.get "privacy" = some value →
    ∃ block, value = .obj block ∧ CountsFindings (messages.flatMap service.findingsOf) block

/-- The guard's own block counts the findings of one text. -/
theorem countsFindings_metadata (findings : List PrivacyFinding) (action : PrivacyAction) :
    ∃ block, PrivacyGuard.metadata findings action = [("privacy", .obj block)] ∧
      CountsFindings findings block := by
  refine ⟨_, rfl, ?_, ?_, ?_⟩
  · simp [JsonObject.get_cons]
  · refine ⟨PrivacyGuard.counts findings, by simp [JsonObject.get_cons], ?_⟩
    exact PrivacyGuard.get_counts findings
  · refine ⟨sortedBy id ((PrivacyGuard.counts findings).map Prod.fst), ?_, fun kind => ?_⟩
    · simp [JsonObject.get_cons]
    · rw [(sortedBy_perm id _).mem_iff, PrivacyGuard.mem_kinds]

/-- Blocks that count different numbers of findings are different. -/
theorem CountsFindings.length_eq {findings findings' : List PrivacyFinding} {block : JsonObject}
    (h : CountsFindings findings block) (h' : CountsFindings findings' block) :
    findings.length = findings'.length := by
  have htotal := h.total.symm.trans h'.total
  simpa using htotal

variable {service} {found found' : JsonObject} {message redacted : ConversationMessage}
  {messages others : List ConversationMessage}

/-- What was found so far is nothing, or the block of one message. -/
def OneBlock (found : JsonObject) : Prop := found = [] ∨ ∃ value, found = [("privacy", value)]

/-- A message with a finding replaces the block of the ones before. -/
theorem redactMessage_found (hfound : OneBlock found)
    (h : redactMessage service found message = .ok (redacted, found')) :
    found' = if service.findingsOf message = [] then found
      else PrivacyGuard.metadata (service.findingsOf message) service.privacy.action := by
  unfold redactMessage at h
  obtain ⟨decision, happly, h⟩ := Except.bind_eq_ok.mp h
  have hfindings : service.findingsOf message = decision.findings := by
    rw [findingsOf, happly]
  rw [hfindings]
  obtain ⟨hnone, hempty⟩ | ⟨hsome, hblock⟩ := PrivacyGuard.apply_findings happly
  · simp only [if_pos hempty] at h
    obtain ⟨next, hnext, h⟩ := Except.bind_eq_ok.mp h
    obtain ⟨made, -, h⟩ := Except.bind_eq_ok.mp h
    cases hnext
    cases h
    rw [if_pos hnone]
  · obtain ⟨block, hmeta, -⟩ :=
      countsFindings_metadata decision.findings service.privacy.action
    rw [hmeta] at hblock
    have hmerge : MemoryProposalService.mergeMetadata service.ops false found decision.metadata =
        .ok (found.set "privacy" (.obj block)) := by
      rw [hblock]
      rfl
    simp only [if_neg (show decision.metadata ≠ [] by simp [hblock]), hmerge] at h
    obtain ⟨next, hnext, h⟩ := Except.bind_eq_ok.mp h
    obtain ⟨made, -, h⟩ := Except.bind_eq_ok.mp h
    cases hnext
    cases h
    rw [if_neg hsome, hmeta]
    obtain rfl | ⟨value, rfl⟩ := hfound <;> simp [JsonObject.set]

theorem oneBlock_metadata (findings : List PrivacyFinding) (action : PrivacyAction) :
    OneBlock (PrivacyGuard.metadata findings action) := .inr ⟨_, rfl⟩

/-- The block that the messages leave is that of the last one with a finding. -/
theorem redactMessages_found (hfound : OneBlock found)
    (h : redactMessages service found messages = .ok (others, found')) :
    found' = (service.flagged messages).getLast?.elim found fun m =>
      PrivacyGuard.metadata (service.findingsOf m) service.privacy.action := by
  induction messages generalizing found others with
  | nil =>
    cases h
    rfl
  | cons message rest ih =>
    rw [redactMessages] at h
    obtain ⟨⟨redacted, next⟩, hfirst, h⟩ := Except.bind_eq_ok.mp h
    obtain ⟨⟨more, last⟩, hrest, h⟩ := Except.bind_eq_ok.mp h
    cases h
    have hnext := redactMessage_found hfound hfirst
    by_cases hclean : service.findingsOf message = []
    · rw [if_pos hclean] at hnext
      have hflagged : service.flagged (message :: rest) = service.flagged rest := by
        rw [flagged, List.filter_cons_of_neg (by simpa using hclean), flagged]
      rw [hflagged, ih (hnext ▸ hfound) hrest, hnext]
    · rw [if_neg hclean] at hnext
      have hflagged : service.flagged (message :: rest) = message :: service.flagged rest := by
        rw [flagged, List.filter_cons_of_pos (by simpa using hclean), flagged]
      rw [hflagged, ih (hnext ▸ oneBlock_metadata _ _) hrest, hnext]
      obtain hnil | hne := eq_or_ne (service.flagged rest) []
      · rw [hnil]
        rfl
      · rw [List.getLast?_cons_of_ne_nil hne, List.getLast?_eq_some_getLast hne]
        rfl

variable {turn : ConversationTurn} {command : AppendConversationTurnCommand} {d : Draws}

/-- The block of a turn is that of its last message with a finding. -/
theorem buildTurn_privacy (h : buildTurn service command d = .ok turn)
    (hclient : command.metadata.get "privacy" = none) : turn.metadata.get "privacy" =
      (service.flagged command.messages).getLast?.bind fun m =>
        JsonObject.get (PrivacyGuard.metadata (service.findingsOf m) service.privacy.action)
          "privacy" := by
  unfold buildTurn at h
  obtain ⟨⟨messages, found⟩, hredacted, h⟩ := Except.bind_eq_ok.mp h
  have hfound := redactMessages_found (.inl rfl) hredacted
  rw [ConversationTurn.new_fields h, JsonObject.get_merge, hclient, Option.or_none, hfound]
  cases (service.flagged command.messages).getLast? with
  | none => rfl
  | some m => rfl

theorem flagged_eq_nil : service.flagged messages = [] ↔
    ∀ m ∈ messages, service.findingsOf m = [] := by
  simp [flagged, List.filter_eq_nil_iff]

/-- The findings of the messages are those of the messages with a finding. -/
theorem flatMap_flagged (messages : List ConversationMessage) :
    (service.flagged messages).flatMap service.findingsOf =
      messages.flatMap service.findingsOf := by
  induction messages with
  | nil => rfl
  | cons m rest ih =>
    by_cases hclean : service.findingsOf m = []
    · rw [flagged, List.filter_cons_of_neg (by simpa using hclean), List.flatMap_cons, hclean,
        List.nil_append]
      exact ih
    · rw [flagged, List.filter_cons_of_pos (by simpa using hclean), List.flatMap_cons,
        List.flatMap_cons]
      exact congrArg _ ih

/-- The audit of a built turn adds up exactly when at most one message had a finding. -/
theorem buildTurn_addsUp_iff (h : buildTurn service command d = .ok turn)
    (hclient : command.metadata.get "privacy" = none) :
    service.AddsUp command.messages turn ↔ (service.flagged command.messages).length ≤ 1 := by
  have hprivacy := buildTurn_privacy h hclient
  obtain hnil | hne := eq_or_ne (service.flagged command.messages) []
  · rw [hnil] at hprivacy ⊢
    refine ⟨fun _ => Nat.zero_le _, fun _ => ⟨?_, ?_⟩⟩
    · exact iff_of_true hprivacy (flagged_eq_nil.mp hnil)
    · intro value hvalue
      rw [hprivacy] at hvalue
      cases hvalue
  · obtain ⟨init, last, hsplit⟩ : ∃ init last, service.flagged command.messages = init ++ [last] :=
      ⟨_, _, (List.dropLast_append_getLast hne).symm⟩
    obtain ⟨block, hmeta, hcounts⟩ :=
      countsFindings_metadata (service.findingsOf last) service.privacy.action
    have hblock : turn.metadata.get "privacy" = some (.obj block) := by
      rw [hprivacy, hsplit, List.getLast?_concat, Option.bind_some, hmeta]
      simp [JsonObject.get_cons]
    have hall : command.messages.flatMap service.findingsOf =
        init.flatMap service.findingsOf ++ service.findingsOf last := by
      rw [← flatMap_flagged, hsplit, List.flatMap_append, List.flatMap_singleton]
    rw [hsplit, List.length_append, List.length_singleton]
    constructor
    · intro hadds
      obtain ⟨block', hsame, hcounts'⟩ := hadds.counted _ hblock
      cases hsame
      have hlength := hcounts'.length_eq hcounts
      rw [hall, List.length_append] at hlength
      -- each message before the last one would have added a finding
      have hinit : init = [] := by
        rw [List.eq_nil_iff_forall_not_mem]
        intro m hm
        have hflagged : m ∈ service.flagged command.messages := by
          rw [hsplit]
          exact List.mem_append_left _ hm
        have hsome : service.findingsOf m ≠ [] := by
          simpa using (List.mem_filter.mp hflagged).2
        have hnone : init.flatMap service.findingsOf = [] := by
          rw [← List.length_eq_zero_iff]
          omega
        exact hsome (List.flatMap_eq_nil_iff.mp hnone m hm)
      rw [hinit]
      exact Nat.le_refl _
    · intro hone
      obtain rfl : init = [] := List.length_eq_zero_iff.mp (by omega)
      refine ⟨iff_of_false (by simp [hblock]) (fun hclean => hne (flagged_eq_nil.mpr hclean)), ?_⟩
      intro value hvalue
      rw [hblock] at hvalue
      cases hvalue
      exact ⟨block, rfl, by simpa [hall] using hcounts⟩

/-- The turn that an append stores has an audit that adds up exactly when at most one of its
messages had a finding; in any case it has one exactly when a message had a finding. -/
theorem appendTurn_addsUp_iff (service : ConversationService)
    (command : AppendConversationTurnCommand) (audit : Option AuditEvent) (d : Draws)
    (x : ConversationStore) (hclient : command.metadata.get "privacy" = none)
    {result : AppendConversationTurnResult}
    (h : (appendTurn service command audit d x).1 = .ok result) (hcreated : result.created = true) :
    (result.turn ∈ (appendTurn service command audit d x).2.turns.rows ∧
      (result.turn.metadata.get "privacy" = none ↔
        ∀ m ∈ command.messages, service.findingsOf m = [])) ∧
    (service.AddsUp command.messages result.turn ↔
      (service.flagged command.messages).length ≤ 1) := by
  unfold appendTurn at h ⊢
  cases hbuilt : buildTurn service command d with
  | error e =>
    rw [hbuilt] at h
    cases h
  | ok turn =>
    rw [hbuilt] at h
    obtain ⟨⟨stored, created⟩, happend, hresult⟩ := Except.map_eq_ok.mp h
    subst hresult
    obtain rfl : created = true := hcreated
    obtain ⟨rfl, hstored⟩ := ConversationStore.appendTurn_created happend
    have habsent : stored.metadata.get "privacy" = none ↔
        ∀ m ∈ command.messages, service.findingsOf m = [] := by
      rw [buildTurn_privacy hbuilt hclient, ← flagged_eq_nil]
      obtain hnil | hne := eq_or_ne (service.flagged command.messages) []
      · simp [hnil]
      · rw [List.getLast?_eq_some_getLast hne]
        simp [hne, PrivacyGuard.metadata, JsonObject.get_cons]
    exact ⟨⟨hstored, habsent⟩, buildTurn_addsUp_iff hbuilt hclient⟩

/-- The conversation service with the guard that detects social security numbers. -/
def ssnService : ConversationService := { plainService with privacy := ssnGuard }

/-- A message with a social security number. -/
def ssnMessage : ConversationMessage := ⟨⟨"user", "ssn 123-45-6789", none, []⟩, by decide⟩

/-- A turn with the given messages. -/
def ssnTurn (messages : List ConversationMessage) : AppendConversationTurnCommand :=
  { stagedTurn with messages }

/-- The turn appended to the empty store. -/
def appendSsn (messages : List ConversationMessage) :
    Except Exn AppendConversationTurnResult × ConversationStore :=
  ssnService.appendTurn (ssnTurn messages) none (drawsFrom 0) .empty

/-- A turn with one message that has a finding adds up. -/
theorem appendTurn_addsUp_ssnMessage : ∃ result, (appendSsn [ssnMessage]).1 = .ok result ∧
    ssnService.AddsUp [ssnMessage] result.turn := by
  have hcreated : (appendSsn [ssnMessage]).1.toOption.any (·.created) = true := by
    decide +kernel
  cases happend : (appendSsn [ssnMessage]).1 with
  | error e =>
    rw [happend] at hcreated
    cases hcreated
  | ok result =>
    rw [happend] at hcreated
    have hadds := (appendTurn_addsUp_iff ssnService (ssnTurn [ssnMessage]) none (drawsFrom 0)
      .empty rfl happend hcreated).2
    refine ⟨result, rfl, hadds.mpr ?_⟩
    decide +kernel

/-- A turn with two such messages counts one finding. -/
theorem two_messages_count_one : ∃ result, (appendSsn [ssnMessage, ssnMessage]).1 = .ok result ∧
    result.created = true ∧ ¬ ssnService.AddsUp [ssnMessage, ssnMessage] result.turn := by
  obtain ⟨block, hmeta, hcounts⟩ :=
    countsFindings_metadata (ssnService.findingsOf ssnMessage) ssnService.privacy.action
  have happended : (appendSsn [ssnMessage, ssnMessage]).1.toOption.any (fun result =>
      result.created && (result.turn.metadata.get "privacy" ==
        JsonObject.get (PrivacyGuard.metadata (ssnService.findingsOf ssnMessage)
          ssnService.privacy.action) "privacy")) = true := by
    decide +kernel
  cases happend : (appendSsn [ssnMessage, ssnMessage]).1 with
  | error e =>
    rw [happend] at happended
    cases happended
  | ok result =>
    rw [happend, hmeta] at happended
    obtain ⟨hcreated, hprivacy⟩ := (Bool.and_eq_true _ _).mp happended
    refine ⟨result, rfl, hcreated, fun hadds => ?_⟩
    obtain ⟨block', hsame, htwo⟩ := hadds.counted _ (beq_iff_eq.mp hprivacy)
    cases hsame
    have hlength := htwo.length_eq hcounts
    have hone : (ssnService.findingsOf ssnMessage).length = 1 := by
      decide +kernel
    rw [List.flatMap_cons, List.flatMap_singleton, List.length_append] at hlength
    omega

end ConversationService

end MemoryPlane
