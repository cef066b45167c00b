import MemoryPlane.Runs.Acceptance
import MemoryPlane.Runs.Conversations

/-!
# Sources of memories accepted by a curation

When the memory that a curation accepts by itself comes from the curated turn. The curation works
on whatever proposal its key resolves to, and the acceptance on whatever item the key of that
proposal resolves to; both keys are open to clients.
-/

namespace MemoryPlane

open ConversationCurator MemoryProposalService ReviewTables

/-- The stores that runs of the services reach, with conversations among them. -/
inductive Conversed (env : Deployment) : ConversationStore → Prop
  | empty : Conversed env .empty
  | memory {x : ConversationStore} (op : Operation) (d : Draws) (before : Conversed env x)
      (fresh : d.Fresh (op.drawCount x.toInMemoryMemoryStore) x.usedIds) :
      Conversed env
        { x with toInMemoryMemoryStore := (op.run env d x.toInMemoryMemoryStore).2 }
  | append {x : ConversationStore} (service : ConversationService)
      (command : AppendConversationTurnCommand) (audit : Option AuditEvent) (d : Draws)
      (before : Conversed env x) : Conversed env (service.appendTurn command audit d x).2
  | curate {x : ConversationStore} (c : ConversationCurator)
      (command : CurateConversationTurnCommand) (audit : Option AuditEvent) (d : Draws)
      (before : Conversed env x) (fresh : d.Fresh 3 x.usedIds) :
      Conversed env (c.curateTurn env.privacy command audit d x).2
  | purge {x : ConversationStore} (tenantId workspaceId : UUID) (now : DateTime) (limit : ℕ)
      (before : Conversed env x) :
      Conversed env (x.purgeExpiredTurns tenantId workspaceId now limit).2

section

variable {env : Deployment} {s t : InMemoryMemoryStore} {d : Draws}

/-- What the runs keep of memories and proposals. -/
structure Kept (env : Deployment) (s : InMemoryMemoryStore) : Prop where
  leads : Leads inMemoryStores InMemoryMemoryStore.tables env.privacy .empty s
  chained : s.Chained

/-- Kept tables are sound. -/
theorem Kept.sound (h : Kept env s) : s.tables.Sound :=
  h.leads.sound inMemory_reviewLaws sound_empty

/-- Every memory operation under fresh draws keeps the tables. -/
theorem Kept.operation (h : Kept env s) (op : Operation)
    (hd : d.Fresh (op.drawCount s) s.usedIds) : Kept env (op.run env d s).2 := by
  refine ⟨h.leads.operation h.chained op hd, ?_⟩
  obtain ⟨ws, hw⟩ := op.run_writes env h.chained hd
  rw [hw.ledger]
  exact h.chained.commitAll hw.admitted

/-- Changes elsewhere in the store do not matter. -/
theorem Kept.elsewhere (h : Kept env s) (hitems : t.items = s.items)
    (hkeys : t.idempotency = s.idempotency) (hproposals : t.proposals = s.proposals) :
    Kept env t := by
  refine ⟨.resolve h.leads (fun i hi => ?_) hkeys hproposals, ?_⟩
  · change i ∈ t.items.rows
    rw [hitems]
    exact hi
  · unfold Ledger.Chained
    rw [hitems]
    exact h.chained

/-- A proposal that was just built is submitted as it is. -/
theorem submitted_eq_self {p : MemoryProposal} {id : UUID} (hid : p.id = id)
    (hstatus : p.status = .open) : p.submitted id = p := by
  obtain ⟨fields, valid⟩ := p
  obtain ⟨⟩ := fields
  simp only at hid hstatus
  subst hid hstatus
  rfl

/-- Submitting appends the proposal under the first identifier drawn. -/
theorem run_submit_store (p : MemoryProposal) (key : Option String) (audit : Option AuditEvent) :
    ((Operation.submit p key audit).run env d s).2 =
      (s.appendProposal (p.submitted (d.uuid4 0)) key audit).2 := by
  simp only [Operation.run, Operation.program, MemoryOperation.program, inMemoryStores,
    inMemoryProposals, Proc.run_bind, Proc.run_invoke]
  rcases s.appendProposal (p.submitted (d.uuid4 0)) key audit with ⟨r, t⟩
  cases r <;> rfl

/-- Submitting a proposal puts its identifier to use, and no other. -/
theorem usedIds_appendProposal (p : MemoryProposal) (key : Option String)
    (audit : Option AuditEvent) :
    ∀ i ∈ (s.appendProposal p key audit).2.usedIds, i = p.id ∨ i ∈ s.usedIds := by
  unfold InMemoryMemoryStore.appendProposal
  simp only
  split
  · split <;> exact fun i hi => .inr hi
  · intro i hi
    have hi' : i ∈ ({ s with proposals := s.proposals.put p } : InMemoryMemoryStore).usedIds := by
      cases audit <;> exact hi
    simp only [InMemoryMemoryStore.usedIds, List.mem_append, List.mem_map, Table.mem_put] at hi' ⊢
    rcases hi' with hi' | ⟨q, rfl | ⟨hq, -⟩, rfl⟩
    · exact .inr (.inl hi')
    · exact .inl rfl
    · exact .inr (.inr ⟨q, hq, rfl⟩)

/-- The draws after the first stay fresh when the first was put to use. -/
theorem Draws.Fresh.drop_one {used used' : List UUID} (h : d.Fresh 3 used)
    (hused : ∀ i ∈ used', i = d.uuid4 0 ∨ i ∈ used) : (d.drop 1).Fresh 2 used' := by
  refine ⟨fun i hi j hj he => ?_, fun i hi hmem => ?_⟩
  · have := h.1 (1 + i) (by omega) (1 + j) (by omega) he
    omega
  · rcases hused _ hmem with he | hmem
    · have := h.1 (1 + i) (by omega) 0 (by omega) he
      omega
    · exact h.2 (1 + i) (by omega) hmem

variable {c : ConversationCurator} {command : CurateConversationTurnCommand}
  {turn : ConversationTurn}

/-- The store after the submission of a curation. -/
theorem Kept.submitted (h : Kept env s) (hd : d.Fresh 3 s.usedIds) {p : MemoryProposal}
    (hbuilt : builtProposal c command turn d = .ok p) (key : Option String)
    (audit : Option AuditEvent) :
    Kept env (s.appendProposal p key audit).2 ∧
      (d.drop 1).Fresh 2 (s.appendProposal p key audit).2.usedIds := by
  obtain ⟨hid, hstatus, -⟩ := builtProposal_eq_ok hbuilt
  constructor
  · have hrun := h.operation (.submit p key audit) (d := d)
      ⟨fun i hi j hj => hd.1 i (by change i < 2 at hi; omega) j (by change j < 2 at hj; omega),
        fun i hi => hd.2 i (by change i < 2 at hi; omega)⟩
    rwa [run_submit_store, submitted_eq_self hid hstatus] at hrun
  · refine hd.drop_one fun i hi => ?_
    rw [← hid]
    exact usedIds_appendProposal p key audit i hi

/-- A curation continues a run. -/
theorem Kept.proposes {out : Except Exn
      (SubmitMemoryProposalResult × Option ReviewMemoryProposalResult)}
    (h : Kept env s) (hd : d.Fresh 3 s.usedIds)
    (hout : Proposes c command turn d env.privacy s out t) : Kept env t := by
  cases hout with
  | raised => exact h
  | left p stored created audit _ built submitted =>
    have hkept := (h.submitted hd built (some (curationKey command turn)) audit).1
    rwa [submitted] at hkept
  | reviewed p stored created audit v _ reason r built submitted automatic eligible accepted =>
    obtain ⟨hkept, hfresh⟩ := h.submitted hd built (some (curationKey command turn)) audit
    rw [submitted] at hkept hfresh
    have hrun := hkept.operation (.accept (autoAcceptCommand stored reason) none) hfresh
    simp only [Operation.run, Operation.program, MemoryOperation.program, inMemoryStores,
      Proc.run_wrap, accepted] at hrun
    exact hrun

/-- A curation under fresh draws keeps the tables. -/
theorem Kept.curateTurn {x : ConversationStore} (h : Kept env x.toInMemoryMemoryStore)
    (audit : Option AuditEvent) (hd : d.Fresh 3 x.usedIds) :
    Kept env (c.curateTurn env.privacy command audit d x).2.toInMemoryMemoryStore := by
  unfold ConversationCurator.curateTurn
  split
  · exact h
  · rename_i turn _
    split
    · exact h
    · have hout := run_propose c command turn d env.privacy
        audit x.toInMemoryMemoryStore
      have hkept := h.proposes hd hout
      generalize (propose c env.privacy command turn audit d).run x.toInMemoryMemoryStore = out
        at hkept
      obtain ⟨r, s⟩ := out
      rcases r with e | ⟨proposal, _ | automatic⟩
      · exact hkept
      · simp only [purgeStaged]
        split
        · have hstore := ConversationStore.purgeContent_store (x := { x with
            toInMemoryMemoryStore := s }) turn.tenantId turn.id "purged_after_curation"
          simp only [ConversationStore.purgeTurnContent]
          rcases hp : ConversationStore.purgeContent { x with toInMemoryMemoryStore := s }
            turn.tenantId turn.id "purged_after_curation" with ⟨confirmed, y⟩
          rw [hp] at hstore
          cases confirmed <;> exact hstore ▸ hkept
        · exact hkept
      · exact hkept

/-- Every conversed store keeps its tables. -/
theorem Conversed.kept {x : ConversationStore} (h : Conversed env x) :
    Kept env x.toInMemoryMemoryStore := by
  induction h with
  | empty => exact ⟨.refl _, Ledger.chained_empty⟩
  | memory op d _ fresh ih => exact ih.operation op fresh
  | @append x service command audit d _ ih =>
    unfold ConversationService.appendTurn
    split
    · exact ih
    · rename_i turn _
      obtain ⟨hitems, hkeys, hproposals⟩ := x.appendTurn_tables turn command.idempotencyKey
        (audit.map fun a => a.replaceResource turn.id.str)
        (some (ConversationService.appendedEvent turn (d.uuid4 1) (d.now 1)))
      exact ih.elsewhere hitems hkeys hproposals
  | curate c command audit d _ fresh ih => exact ih.curateTurn audit fresh
  | purge t w now limit _ ih =>
    rw [ConversationStore.purgeExpiredTurns_store]
    exact ih

/-- The memory comes from an accepted proposal that is sourced in the turn. -/
def Grounded (y : ConversationStore) (turn : ConversationTurn) (i : MemoryItem) : Prop :=
  ∃ q ∈ y.proposals.rows, q.status = .accepted ∧ AcceptedAs q i ∧ SourcedIn turn q

/-- The entry that the key of an automatic acceptance of a proposal resolves to. -/
def autoAcceptEntry (s : InMemoryMemoryStore) (tenantId workspaceId id : UUID) :
    Option IdempotencyEntry :=
  s.tables.keyEntry tenantId
    (scopeIdempotencyKey workspaceId (some s!"auto-accept-proposal:{id.str}"))

/-- An accepted proposal that is sourced in the turn names the memory. -/
def NamedSourced (s : InMemoryMemoryStore) (turn : ConversationTurn) (itemId : UUID) : Prop :=
  ∃ q ∈ s.proposals.rows, q.status = .accepted ∧
    q.metadata.get "accepted_memory_id" = some (.str itemId.str) ∧ SourcedIn turn q

/-- What an automatic acceptance of the proposal returns is sourced in the turn: the proposal
itself where its key is unused, else the accepted proposal whose memory holds the key. -/
def ReturnsSourced (s : InMemoryMemoryStore) (turn : ConversationTurn) (p : MemoryProposal) :
    Prop :=
  match autoAcceptEntry s p.tenantId p.workspaceId p.id with
  | none => SourcedIn turn p
  | some e => NamedSourced s turn e.itemId

/-- What a curation of the turn accepts is sourced in it. Where the key of the curation is used,
this is about the stored proposal; else about the quotes of the model, unless the key of the
acceptance is used already. -/
def CuratesSourced (c : ConversationCurator) (command : CurateConversationTurnCommand)
    (turn : ConversationTurn) (d : Draws) (s : InMemoryMemoryStore) : Prop :=
  match curationEntry command turn s with
  | some e => ∀ p ∈ s.proposals.find e.itemId, ReturnsSourced s turn p
  | none =>
    match autoAcceptEntry s turn.tenantId turn.workspaceId (d.uuid4 0) with
    | none => ∀ quote ∈ modelQuotes c.ops c.memoryLlm turn, OccursIn turn quote
    | some e => NamedSourced s turn e.itemId

/-- Different proposals have different provenance addresses. -/
theorem proposalUri_injective : Function.Injective proposalUri := by
  intro a b h
  have h' : "proposal://" ++ a.str = "proposal://" ++ b.str := h
  have hlist := congrArg String.toList h'
  rw [String.toList_append, String.toList_append] at hlist
  exact UUID.str_injective (String.toList_injective (List.append_cancel_left hlist))

/-- The key of an automatic acceptance names its proposal. -/
theorem acceptKey_autoAcceptCommand (p q : MemoryProposal) (reason : String) :
    acceptKey (autoAcceptCommand p reason) q = s!"auto-accept-proposal:{p.id.str}" := by
  have hne : "auto-accept-proposal:" ++ p.id.str ≠ "" := by
    intro h
    have hlist := congrArg String.toList h
    simp at hlist
  have hkey : s!"auto-accept-proposal:{p.id.str}" ≠ "" := hne
  simp only [acceptKey, autoAcceptCommand, Option.filter_some, decide_eq_true hkey, if_true,
    Option.getD_some]

/-- Two accepted proposals of one memory are the same. -/
theorem eq_of_acceptedAs {v : ReviewTables} {p q : MemoryProposal} {i : MemoryItem}
    (hp : p ∈ v.proposals.rows) (hq : q ∈ v.proposals.rows)
    (horigin : i.provenance.originUri = some (proposalUri p.id)) (h : AcceptedAs q i) : q = p := by
  have huri : proposalUri q.id = proposalUri p.id :=
    Option.some.inj (h.origin.symm.trans horigin)
  exact v.proposals.eq_of_key_eq hq hp (proposalUri_injective huri)

/-- The proposal that was stored or found is found by its identifier, no memory was written, and
the accepted proposals are those from before. -/
theorem appendProposal_found {p stored : MemoryProposal} {created : Bool} {key : Option String}
    {audit : Option AuditEvent} (hopen : p.status = .open) (hnew : s.proposals.find p.id = none)
    (h : s.appendProposal p key audit = (.ok (stored, created), t)) :
    t.tables.getProposal stored.tenantId stored.id = some stored ∧ t.toLedger = s.toLedger ∧
      ∀ q, q.status = .accepted → (q ∈ t.proposals.rows ↔ q ∈ s.proposals.rows) := by
  unfold InMemoryMemoryStore.appendProposal at h
  simp only at h
  split at h
  · split at h
    · cases h
    · rename_i found
      cases h
      exact ⟨getProposal_eq_some.mpr ⟨(Table.find_eq_some.mp found).1, rfl, rfl⟩, rfl,
        fun _ _ => Iff.rfl⟩
  · cases h
    have hrows : ∀ u : InMemoryMemoryStore, (u.appendAuditEvent audit).proposals = u.proposals := by
      intro u
      cases audit <;> rfl
    refine ⟨getProposal_eq_some.mpr ⟨?_, rfl, rfl⟩, by cases audit <;> rfl, fun q hq => ?_⟩
    · rw [InMemoryMemoryStore.tables_proposals, hrows]
      exact Table.mem_put.mpr (.inl rfl)
    · rw [hrows, Table.mem_put]
      constructor
      · rintro (rfl | ⟨hq', -⟩)
        · rw [hopen] at hq
          cases hq
        · exact hq'
      · exact fun hq' => .inr ⟨hq', fun he => Table.find_eq_none.mp hnew q hq' he⟩

/-- Submitting a new proposal does not change what acceptances return. -/
theorem returnsSourced_congr (hledger : t.toLedger = s.toLedger)
    (hrows : ∀ q, q.status = .accepted → (q ∈ t.proposals.rows ↔ q ∈ s.proposals.rows))
    (p : MemoryProposal) : ReturnsSourced t turn p ↔ ReturnsSourced s turn p := by
  have hentry : autoAcceptEntry t p.tenantId p.workspaceId p.id =
      autoAcceptEntry s p.tenantId p.workspaceId p.id := by
    unfold autoAcceptEntry ReviewTables.keyEntry
    rw [InMemoryMemoryStore.tables_toLedger, InMemoryMemoryStore.tables_toLedger, hledger]
  unfold ReturnsSourced
  rw [hentry]
  cases autoAcceptEntry s p.tenantId p.workspaceId p.id with
  | none => exact Iff.rfl
  | some e =>
    constructor
    · rintro ⟨q, hq, hacc, hnamed, hsourced⟩
      exact ⟨q, (hrows q hacc).mp hq, hacc, hnamed, hsourced⟩
    · rintro ⟨q, hq, hacc, hnamed, hsourced⟩
      exact ⟨q, (hrows q hacc).mpr hq, hacc, hnamed, hsourced⟩

/-- The memory of an automatic acceptance is grounded exactly when what its key returns is
sourced in the turn. -/
theorem grounded_of_accepted {p : MemoryProposal} {reason : String} {y : ConversationStore}
    {r : ReviewMemoryProposalResult} {k : RetainResult} (hs : t.tables.Sound)
    (hfound : t.tables.getProposal p.tenantId p.id = some p)
    (haccept : runAccept inMemoryStores env.privacy (autoAcceptCommand p reason) none d t =
      (.ok r, y.toInMemoryMemoryStore)) (hk : r.retained = some k) :
    Grounded y turn k.item ↔ ReturnsSourced t turn p := by
  obtain ⟨p', item, event, result, h, rfl⟩ := runAccept_eq_ok inMemory_reviewLaws haccept
  obtain rfl : p' = p := Option.some.inj (h.found.symm.trans hfound)
  obtain ⟨-, -, -, -, htenant, -, horigin, -⟩ := prepareAcceptance_eq_ok h.prepared
  obtain ⟨hpm, -, -⟩ := getProposal_eq_some.mp hfound
  have hentry : t.tables.keyEntry item.tenantId (scopeIdempotencyKey item.workspaceId
      (some (acceptKey (autoAcceptCommand p' reason) p'))) =
        autoAcceptEntry t p'.tenantId p'.workspaceId p'.id := by
    rw [h.entry_eq, acceptEntry, acceptKey_autoAcceptCommand, autoAcceptEntry]
  have hout := h.outcome
  cases hk
  unfold ReturnsSourced Grounded
  generalize hy : y.toInMemoryMemoryStore.tables = v at hout
  have hrows : y.proposals = v.proposals := congrArg (fun v : ReviewTables => v.proposals) hy
  rw [hrows]
  cases hout with
  | replayed current e i found notRejected entry stored =>
    obtain ⟨him, hid⟩ := Table.find_eq_some.mp stored
    rw [← hentry, entry]
    constructor
    · rintro ⟨q, hq, hacc, has, hsourced⟩
      exact ⟨q, hq, hacc, hid ▸ has.named, hsourced⟩
    · rintro ⟨q, hq, hacc, hnamed, hsourced⟩
      rw [← hid] at hnamed
      exact ⟨q, hq, hacc, AcceptedAs.eq_of_named hs hq hacc him hnamed, hsourced⟩
  | recovered current i found unused accepted named stored =>
    obtain rfl : current = p' := Option.some.inj (found.symm.trans hfound)
    have has := AcceptedAs.eq_of_named hs hpm accepted stored named
    rw [← hentry, unused]
    constructor
    · rintro ⟨q, hq, -, has', hsourced⟩
      rwa [eq_of_acceptedAs hpm hq has.origin has'] at hsourced
    · exact fun hsourced => ⟨current, hpm, accepted, has, hsourced⟩
  | committed current _ found unused notRejected notAccepted writes proposals =>
    obtain rfl : current = p' := Option.some.inj (found.symm.trans hfound)
    rw [← hentry, unused, proposals]
    have hcopy : ∀ reviewer reason now, SourcedIn turn
        (InMemoryMemoryStore.acceptedCopy current item reviewer reason now) ↔
          SourcedIn turn current := by
      intro reviewer reason now
      exact SourcedIn.congr (JsonObject.get_set_of_ne (by decide) _)
        (JsonObject.get_set_of_ne (by decide) _)
    constructor
    · rintro ⟨q, hq, -, has, hsourced⟩
      rcases Table.mem_put.mp hq with rfl | ⟨hq, hne⟩
      · exact (hcopy _ _ _).mp hsourced
      · exact absurd (congrArg (fun p => p.id) (eq_of_acceptedAs hpm hq horigin has)) hne
    · intro hsourced
      exact ⟨_, Table.mem_put.mpr (.inl rfl), rfl,
        ⟨JsonObject.get_set_self .., horigin, htenant⟩, (hcopy _ _ _).mpr hsourced⟩

/-- The condition on the chosen proposal is one on the store before the curation and on the answer
of the model. -/
theorem curatesSourced_iff {p : MemoryProposal} (hbuilt : builtProposal c command turn d = .ok p) :
    (∀ q ∈ chosenProposal c command turn d s, ReturnsSourced s turn q) ↔
      CuratesSourced c command turn d s := by
  obtain ⟨hid, -, htenant, hworkspace, hsourced⟩ := builtProposal_eq_ok hbuilt
  unfold chosenProposal CuratesSourced
  cases curationEntry command turn s with
  | some e => exact Iff.rfl
  | none =>
    simp only [hbuilt, Except.toOption, Option.mem_def, Option.some.injEq, forall_eq',
      ReturnsSourced, htenant, hworkspace, hid]
    cases autoAcceptEntry s turn.tenantId turn.workspaceId (d.uuid4 0) with
    | none => exact hsourced
    | some e => exact Iff.rfl

end

/-- In every store that runs reach, a curation that returns a memory grounds it in the turn exactly
when what it accepts is sourced in the turn. -/
theorem curated_memory_grounded_iff {env : Deployment} {x : ConversationStore}
    (hx : Conversed env x) (c : ConversationCurator) (command : CurateConversationTurnCommand)
    (audit : Option AuditEvent) (d : Draws) (hd : d.Fresh 3 x.usedIds) (turn : ConversationTurn)
    (hturn : x.getTurn command.tenantId command.turnId = some turn)
    (r : CurateConversationTurnResult) (k : RetainResult)
    (hrun : (c.curateTurn env.privacy command audit d x).1 = .ok r) (hk : r.retained = some k) :
    Grounded (c.curateTurn env.privacy command audit d x).2 turn k.item ↔
      CuratesSourced c command turn d x.toInMemoryMemoryStore := by
  have hkept := hx.kept
  unfold ConversationCurator.curateTurn at hrun ⊢
  rw [hturn] at hrun ⊢
  simp only at hrun ⊢
  split at hrun
  · cases hrun
  rename_i hpolicy
  rw [if_neg hpolicy]
  have hout := run_propose c command turn d env.privacy
    audit x.toInMemoryMemoryStore
  generalize (propose c env.privacy command turn audit d).run x.toInMemoryMemoryStore = out
    at hout hrun
  obtain ⟨out, s⟩ := out
  simp only at hout
  cases hout with
  | raised => cases hrun
  | left p stored created audit _ built submitted declined =>
    simp only [purgeStaged] at hrun
    split at hrun
    · split at hrun
      · cases hrun
        cases hk
      · cases hrun
    · cases hrun
      cases hk
  | reviewed p stored created audit t _ reason out built submitted automatic eligible accepted =>
    cases out with
    | error e => cases hrun
    | ok result =>
      cases hrun
      obtain ⟨hkept', -⟩ := hkept.submitted hd built (some (curationKey command turn)) audit
      rw [submitted] at hkept'
      obtain ⟨hid, hopen, -⟩ := builtProposal_eq_ok built
      have hnew : x.proposals.find p.id = none := by
        rw [Table.find_eq_none]
        intro q hq he
        refine hd.2 0 (by omega) ?_
        rw [← hid, ← he]
        exact List.mem_append_right _ (List.mem_map.mpr ⟨q, hq, rfl⟩)
      obtain ⟨hfound, hledger, hrows⟩ := appendProposal_found hopen hnew submitted
      rw [← curatesSourced_iff built, chosenProposal_eq built submitted]
      simp only [Option.mem_def, Option.some.injEq, forall_eq']
      rw [← returnsSourced_congr hledger hrows]
      exact grounded_of_accepted hkept'.sound hfound accepted hk

/-- The deployment of the small runs. -/
def quietDeployment : Deployment := plainDeployment (UUID.ofNat 0)

/-- The example's store is reached by its conversation. -/
theorem storeWithQuoting_conversed : Conversed quietDeployment storeWithQuoting :=
  .memory (.submit quotingProposal _ none) (drawsFrom 20)
    (.append plainService stagedTurn none (drawsFrom 0) .empty) (by decide +kernel)

/-- The example's draws are fresh for its store. -/
theorem storeWithQuoting_fresh : (drawsFrom 30).Fresh 3 storeWithQuoting.usedIds := by
  decide +kernel

/-- No proposal names the turn, so no memory is grounded in it. -/
theorem not_grounded_selfAccepting (turn : ConversationTurn) (i : MemoryItem) :
    ¬ Grounded selfAccepting.2 turn i := by
  rintro ⟨q, hq, -, -, hsourced⟩
  obtain ⟨-, -, -, -, -, hnone⟩ := exists_selfAccepting
  have hturn := hsourced.turnId
  rw [hnone q hq] at hturn
  cases hturn

/-- A proposal that a client put under the key of the curation is accepted in place of the
summary of the turn. -/
theorem client_proposal_accepted :
    Conversed quietDeployment storeWithQuoting ∧ (drawsFrom 30).Fresh 3 storeWithQuoting.usedIds ∧
      ∃ turn r k, storeWithQuoting.getTurn (UUID.ofNat 1) (UUID.ofNat 0) = some turn ∧
        (plainCurator.curateTurn quietDeployment.privacy (curateStaged true) none (drawsFrom 30)
          storeWithQuoting).1 = .ok r ∧ r.retained = some k ∧
        ¬ Grounded (plainCurator.curateTurn quietDeployment.privacy (curateStaged true) none
          (drawsFrom 30) storeWithQuoting).2 turn k.item := by
  obtain ⟨turn, hturn, -⟩ := storeWithQuoting_turn
  obtain ⟨r, k, hr, hk, -⟩ := exists_selfAccepting
  exact ⟨storeWithQuoting_conversed, storeWithQuoting_fresh, turn, r, k, hturn, hr, hk,
    not_grounded_selfAccepting turn k.item⟩

/-- The proposal under the key is indeed not sourced in the turn. -/
theorem curated_memory_grounded_iff_example :
    ∃ turn, storeWithQuoting.getTurn (UUID.ofNat 1) (UUID.ofNat 0) = some turn ∧
      ¬ CuratesSourced plainCurator (curateStaged true) turn (drawsFrom 30)
        storeWithQuoting.toInMemoryMemoryStore := by
  obtain ⟨turn, hturn, -⟩ := storeWithQuoting_turn
  obtain ⟨r, k, hr, hk, -⟩ := exists_selfAccepting
  refine ⟨turn, hturn, fun h => ?_⟩
  exact not_grounded_selfAccepting turn k.item
    ((curated_memory_grounded_iff storeWithQuoting_conversed plainCurator (curateStaged true) none
      (drawsFrom 30) storeWithQuoting_fresh turn hturn r k hr hk).mpr h)

end MemoryPlane
