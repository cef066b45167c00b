import MemoryPlane.Runs.Operations
import MemoryPlane.Services.Curation

/-!
# Purge of staged turns

When a curation leaves a staged turn purged: exactly when it does not accept its proposal by
itself. The automatic acceptance returns before the purge, so the raw texts stay.
-/

namespace MemoryPlane

open ConversationCurator MemoryProposalService

section

variable {c : ConversationCurator} {privacy : PrivacyGuard}
  {command : CurateConversationTurnCommand} {turn : ConversationTurn} {d : Draws}
  {audit : Option AuditEvent} {x : ConversationStore}

/-- The stored turn has the marker for every text and is otherwise as it was. -/
def PurgedIn (y : ConversationStore) (turn : ConversationTurn) : Prop :=
  ∃ u, y.getTurn turn.tenantId turn.id = some u ∧ u.IsPurged ∧ turn.SameShape u

/-- The curation of the turn accepts its proposal by itself. -/
def AcceptsBySelf (c : ConversationCurator) (command : CurateConversationTurnCommand)
    (turn : ConversationTurn) (d : Draws) (s : InMemoryMemoryStore) : Prop :=
  command.autoAccept = true ∧
    ∃ p ∈ chosenProposal c command turn d s, autoAcceptReason c.ops p ≠ none

/-- The outcome of a curation of a staged turn. -/
inductive StagedOutcome (c : ConversationCurator) (command : CurateConversationTurnCommand)
    (turn : ConversationTurn) (d : Draws) (x : ConversationStore) :
    Except Exn CurateConversationTurnResult × ConversationStore → Prop
  | raised (e : Exn) (y : ConversationStore) (turns : y.turns = x.turns) :
      StagedOutcome c command turn d x (.error e, y)
  | accepted (r : CurateConversationTurnResult) (y : ConversationStore) (turns : y.turns = x.turns)
      (self : AcceptsBySelf c command turn d x.toInMemoryMemoryStore) :
      StagedOutcome c command turn d x (.ok r, y)
  | purged (r : CurateConversationTurnResult) (y : ConversationStore)
      (stored : y.getTurn turn.tenantId turn.id = some (turn.purged "purged_after_curation"))
      (self : ¬ AcceptsBySelf c command turn d x.toInMemoryMemoryStore) :
      StagedOutcome c command turn d x (.ok r, y)

variable (c privacy audit d) in
theorem curateTurn_staged (hturn : x.getTurn command.tenantId command.turnId = some turn)
    (hpolicy : turn.retentionPolicy = .curatedOnly) :
    StagedOutcome c command turn d x (curateTurn c privacy command audit d x) := by
  unfold curateTurn
  rw [hturn]
  simp only [hpolicy, reduceCtorEq, if_false]
  have hout := run_propose c command turn d privacy audit
    x.toInMemoryMemoryStore
  generalize (propose c privacy command turn audit d).run x.toInMemoryMemoryStore = out at hout
  obtain ⟨r, s⟩ := out
  simp only at hout
  cases hout with
  | raised e => exact .raised e _ rfl
  | left p stored created a t built submitted declined =>
    have hchosen := chosenProposal_eq built submitted
    have hself : ¬ AcceptsBySelf c command turn d x.toInMemoryMemoryStore := by
      rintro ⟨hauto, q, hq, hreason⟩
      rw [Option.mem_def, hchosen] at hq
      cases hq
      exact hreason (declined hauto)
    obtain ⟨hm, hid, ht⟩ := ConversationStore.getTurn_eq_some.mp hturn
    have hfound : ({ x with toInMemoryMemoryStore := s } : ConversationStore).getTurn turn.tenantId
        turn.id = some turn := ConversationStore.getTurn_eq_some.mpr ⟨hm, rfl, rfl⟩
    obtain ⟨hconfirmed, hpurged⟩ :=
      ConversationStore.purgeContent_of_getTurn "purged_after_curation" hfound
    simp only [purgeStaged, hpolicy, if_true, ConversationStore.purgeTurnContent]
    rcases hp : ({ x with toInMemoryMemoryStore := s } : ConversationStore).purgeContent
      turn.tenantId turn.id "purged_after_curation" with ⟨confirmed, y⟩
    rw [hp] at hconfirmed hpurged
    simp only at hconfirmed hpurged
    rw [hconfirmed]
    exact .purged _ y hpurged hself
  | reviewed p stored created a t u reason r built submitted automatic eligible accepted =>
    have hself : AcceptsBySelf c command turn d x.toInMemoryMemoryStore :=
      ⟨automatic, stored, chosenProposal_eq built submitted, by simp [eligible]⟩
    cases r with
    | error e => exact .raised e _ rfl
    | ok r => exact .accepted _ _ rfl hself

/-- A curation of a staged turn that raises keeps the turns as they were. One that returns leaves
the turn purged exactly when it does not accept the proposal by itself, or the turn was purged
before. -/
theorem staged_turn_purged_iff (c : ConversationCurator) (privacy : PrivacyGuard)
    (command : CurateConversationTurnCommand) (audit : Option AuditEvent) (d : Draws)
    (x : ConversationStore) (turn : ConversationTurn)
    (hturn : x.getTurn command.tenantId command.turnId = some turn)
    (hpolicy : turn.retentionPolicy = .curatedOnly) :
    (∀ e, (curateTurn c privacy command audit d x).1 = .error e →
      (curateTurn c privacy command audit d x).2.turns = x.turns) ∧
    ∀ r, (curateTurn c privacy command audit d x).1 = .ok r →
      (PurgedIn (curateTurn c privacy command audit d x).2 turn ↔
        (AcceptsBySelf c command turn d x.toInMemoryMemoryStore → turn.IsPurged)) := by
  have hout := curateTurn_staged c privacy d audit hturn hpolicy
  generalize curateTurn c privacy command audit d x = out at hout
  obtain ⟨hm, -, -⟩ := ConversationStore.getTurn_eq_some.mp hturn
  cases hout with
  | raised e y turns =>
    refine ⟨fun _ _ => turns, ?_⟩
    intro r hr
    cases hr
  | accepted r y turns self =>
    refine ⟨fun e he => (by cases he), ?_⟩
    intro r' _
    have hstays : y.getTurn turn.tenantId turn.id = some turn :=
      ConversationStore.getTurn_eq_some.mpr ⟨turns ▸ hm, rfl, rfl⟩
    constructor
    · rintro ⟨u, hu, hpurged, -⟩ -
      rw [hstays] at hu
      cases hu
      exact hpurged
    · intro h
      exact ⟨turn, hstays, h self, .refl turn⟩
  | purged r y stored self =>
    refine ⟨fun e he => (by cases he), ?_⟩
    intro r' _
    constructor
    · exact fun _ h => absurd h self
    · exact fun _ => ⟨_, stored, turn.isPurged_purged _, turn.sameShape_purged _⟩

end

/-- Conversions on ASCII texts and plain numbers. -/
def plainOps : TextOps where
  lower s := String.ofList (s.toList.map Char.toLower)
  repr _ := ""
  int
    | .int n => .ok n
    | _ => .error (.typeError "int() argument must be a number")
  float
    | .float q => .ok (.finite q)
    | .int n => .ok (.finite n)
    | _ => .error (.typeError "float() argument must be a number")
  dumps _ := ""
  isoformat _ := "1970-01-01T00:00:00+00:00"

/-- A conversation service with its guard switched off. -/
def plainService : ConversationService where
  ops := plainOps
  privacy := { enabled := false }
  ttl_bounds := by decide

/-- A staged turn with one message. -/
def stagedTurn : AppendConversationTurnCommand where
  tenantId := UUID.ofNat 1
  workspaceId := UUID.ofNat 2
  threadId := UUID.ofNat 3
  messages := [⟨⟨"user", "hi", none, []⟩, by decide⟩]
  «namespace» := "n"
  retentionPolicy := .curatedOnly

/-- The store with the staged turn, under the identifier 0. -/
def storeWithTurn : ConversationStore :=
  (plainService.appendTurn stagedTurn none (drawsFrom 0) .empty).2

/-- A client's proposal that the policy accepts by itself: it quotes its own evidence. -/
def quotingProposal : MemoryProposal where
  tenantId := UUID.ofNat 1
  workspaceId := UUID.ofNat 2
  «namespace» := "n"
  requester := "agent"
  target := .decision
  proposal := "Deploy."
  evidence := "source_turn_id: we agree"
  id := UUID.ofNat 0
  agentId := none
  threadId := none
  confidence := 1
  importance := 1 / 2
  status := .open
  metadata := [("evidence_quotes", .arr [.str "we agree"])]
  createdAt := DateTime.ofMicros 0
  reviewedAt := none
  reviewer := none
  reviewReason := ""
  valid := by decide +kernel

/-- The store after the client submitted it under the key that a curation of the turn uses. -/
def storeWithQuoting : ConversationStore :=
  let key := s!"curate-conversation-turn:{(UUID.ofNat 0).str}"
  { storeWithTurn with
    toInMemoryMemoryStore := ((Operation.submit quotingProposal (some key) none).run
      (plainDeployment (UUID.ofNat 0)) (drawsFrom 20) storeWithTurn.toInMemoryMemoryStore).2 }

/-- A curator whose model summarizes without quotes. -/
def plainCurator : ConversationCurator where
  ops := plainOps
  proposalPrivacy := { enabled := false }
  memoryLlm := some fun _ _ => .ok [("summary", .str "ok")]

/-- A request to curate the staged turn. -/
def curateStaged (autoAccept : Bool) : CurateConversationTurnCommand where
  tenantId := UUID.ofNat 1
  turnId := UUID.ofNat 0
  autoAccept := autoAccept

/-- The curation that accepts the client's proposal by itself. -/
def selfAccepting : Except Exn CurateConversationTurnResult × ConversationStore :=
  plainCurator.curateTurn { enabled := false } (curateStaged true) none (drawsFrom 30)
    storeWithQuoting

theorem storeWithQuoting_turn :
    ∃ turn, storeWithQuoting.getTurn (UUID.ofNat 1) (UUID.ofNat 0) = some turn ∧
      turn.retentionPolicy = .curatedOnly := by
  have hfound : (storeWithQuoting.getTurn (UUID.ofNat 1) (UUID.ofNat 0)).map
      (fun t => t.retentionPolicy) = some .curatedOnly := by decide +kernel
  cases hturn : storeWithQuoting.getTurn (UUID.ofNat 1) (UUID.ofNat 0) with
  | none =>
    rw [hturn] at hfound
    cases hfound
  | some turn =>
    rw [hturn] at hfound
    exact ⟨turn, rfl, Option.some.inj hfound⟩

/-- A curation returned a memory, the turn keeps its text and no proposal names the turn. -/
def acceptedUnpurged : Except Exn CurateConversationTurnResult × ConversationStore → Bool
  | (.ok r, y) => r.retained.isSome &&
    (y.getTurn (UUID.ofNat 1) (UUID.ofNat 0)).all (fun t => !decide t.IsPurged) &&
      y.proposals.rows.all fun p => decide (p.metadata.get "source_turn_id" = none)
  | _ => false

/-- That curation returns a memory; the turn keeps its text, and no proposal names the turn. -/
theorem exists_selfAccepting :
    ∃ r k, selfAccepting.1 = .ok r ∧ r.retained = some k ∧
      (∀ turn, selfAccepting.2.getTurn (UUID.ofNat 1) (UUID.ofNat 0) = some turn →
        ¬ turn.IsPurged) ∧
      ∀ p ∈ selfAccepting.2.proposals.rows, p.metadata.get "source_turn_id" = none := by
  have hrun : acceptedUnpurged selfAccepting = true := by decide +kernel
  generalize selfAccepting = out at hrun ⊢
  obtain ⟨r, y⟩ := out
  cases r with
  | error e => cases hrun
  | ok r =>
    simp only [acceptedUnpurged, Bool.and_eq_true, Option.all_eq_true, List.all_eq_true,
      Bool.not_eq_true', decide_eq_false_iff_not, decide_eq_true_eq] at hrun
    obtain ⟨⟨hk, hturn⟩, hproposals⟩ := hrun
    obtain ⟨k, hk⟩ := Option.isSome_iff_exists.mp hk
    exact ⟨r, k, rfl, hk, hturn, hproposals⟩

/-- It returns, and the raw text of the staged turn stays. -/
theorem selfAccepting_keeps_text :
    ∃ turn r, storeWithQuoting.getTurn (UUID.ofNat 1) (UUID.ofNat 0) = some turn ∧
      turn.retentionPolicy = .curatedOnly ∧ selfAccepting.1 = .ok r ∧
        ¬ PurgedIn selfAccepting.2 turn := by
  obtain ⟨turn, hturn, hpolicy⟩ := storeWithQuoting_turn
  obtain ⟨r, -, hr, -, hkeeps, -⟩ := exists_selfAccepting
  refine ⟨turn, r, hturn, hpolicy, hr, ?_⟩
  rintro ⟨u, hu, hpurged, -⟩
  obtain ⟨-, hid, htenant⟩ := ConversationStore.getTurn_eq_some.mp hturn
  rw [hid, htenant] at hu
  exact hkeeps u hu hpurged

/-- Without automatic acceptance the same turn is purged. -/
theorem staged_turn_purged_iff_example :
    ∃ turn r, storeWithQuoting.getTurn (UUID.ofNat 1) (UUID.ofNat 0) = some turn ∧
      (plainCurator.curateTurn { enabled := false } (curateStaged false) none (drawsFrom 30)
        storeWithQuoting).1 = .ok r ∧
      PurgedIn (plainCurator.curateTurn { enabled := false } (curateStaged false) none
        (drawsFrom 30) storeWithQuoting).2 turn := by
  obtain ⟨turn, hturn, hpolicy⟩ := storeWithQuoting_turn
  obtain ⟨r, hr⟩ := Except.exists_of_isOk
    (x := (plainCurator.curateTurn { enabled := false } (curateStaged false) none
      (drawsFrom 30) storeWithQuoting).1) (by decide +kernel)
  refine ⟨turn, r, hturn, hr, ?_⟩
  refine ((staged_turn_purged_iff plainCurator { enabled := false } (curateStaged false) none
    (drawsFrom 30) storeWithQuoting turn hturn hpolicy).2 r hr).mpr ?_
  rintro ⟨hauto, -⟩
  cases hauto

end MemoryPlane
