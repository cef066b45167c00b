import MemoryPlane.Adapters.ReviewLaws
import MemoryPlane.Runs.Writes
import MemoryPlane.Services.Reviews

/-!
# Acceptance of a proposal

When an acceptance does what it says: exactly when its key is unused, or already belongs to the
memory of this proposal. A key that an unrelated write used makes both adapters return the
unrelated item and leave the proposal as it was.
-/

namespace MemoryPlane

open MemoryProposalService ReviewTables

section

variable {σ : Type} (stores : MemoryStores σ) (tables : σ → ReviewTables) (privacy : PrivacyGuard)

/-- The acceptance alone on a state. -/
def runAccept (command : ReviewMemoryProposalCommand) (audit : Option AuditEvent) (d : Draws)
    (x : σ) : Except Exn ReviewMemoryProposalResult × σ :=
  (accept stores.proposals privacy command audit d).run x

/-- The entry that the key of an acceptance resolves to. -/
def acceptEntry (v : ReviewTables) (command : ReviewMemoryProposalCommand) (p : MemoryProposal) :
    Option IdempotencyEntry :=
  v.keyEntry p.tenantId (scopeIdempotencyKey p.workspaceId (some (acceptKey command p)))

/-- The key of the acceptance is unused or belongs to the memory of this proposal. -/
def KeyOwn (v : ReviewTables) (command : ReviewMemoryProposalCommand) : Prop :=
  ∀ p ∈ v.getProposal command.tenantId command.proposalId, ∀ e ∈ acceptEntry v command p,
    p.status = .accepted ∧ p.metadata.get "accepted_memory_id" = some (.str e.itemId.str)

/-- The proposal is stored as accepted, and the returned item is its durable memory. -/
def AcceptExact (v : ReviewTables) (command : ReviewMemoryProposalCommand)
    (r : ReviewMemoryProposalResult) : Prop :=
  ∃ p k, v.getProposal command.tenantId command.proposalId = some p ∧ p.status = .accepted ∧
    r.retained = some k ∧ k.item ∈ v.items.rows ∧ AcceptedAs p k.item

/-- An acceptance of the same proposal that returns the same item and creates nothing. -/
def AcceptsAgain (r : ReviewMemoryProposalResult)
    (out : Except Exn ReviewMemoryProposalResult × σ) : Prop :=
  ∃ r' k k', out.1 = .ok r' ∧ r'.retained = some k' ∧ r.retained = some k ∧ k'.item = k.item ∧
    k'.created = false

/-- The key of a later acceptance belongs to the item, or is unused where unused keys do. -/
def KeyRecalls (recovers : Bool) (v : ReviewTables) (command : ReviewMemoryProposalCommand)
    (r : ReviewMemoryProposalResult) : Prop :=
  ∀ p ∈ v.getProposal command.tenantId command.proposalId, ∀ k ∈ r.retained,
    match acceptEntry v command p with
    | some e => e.itemId = k.item.id
    | none => recovers = true

/-- The acceptance returned and reported a new item. -/
def Creates (out : Except Exn ReviewMemoryProposalResult × σ) : Prop :=
  ∃ r k, out.1 = .ok r ∧ r.retained = some k ∧ k.created = true

/-- When acceptances from a state, and from the states it leads to, are exact. -/
structure AcceptanceLaw (recovers : Bool) (x : σ) : Prop where
  /-- An acceptance that returns is exact when its key is its own, and only then. -/
  exact_iff : ∀ command audit d, d.Fresh 2 (tables x).usedIds → ∀ r y,
    runAccept stores privacy command audit d x = (.ok r, y) →
      (AcceptExact (tables y) command r ↔ KeyOwn (tables x) command)
  /-- After an exact acceptance every later one returns the same item when its key recalls the
  item, and only then. -/
  again_iff : ∀ command audit d, d.Fresh 2 (tables x).usedIds → ∀ r y,
    runAccept stores privacy command audit d x = (.ok r, y) → AcceptExact (tables y) command r →
      ∀ z, Leads stores tables privacy y z → ∀ command' audit' d',
        command'.tenantId = command.tenantId → command'.proposalId = command.proposalId →
          (AcceptsAgain r (runAccept stores privacy command' audit' d' z) ↔
            KeyRecalls recovers (tables z) command' r)
  /-- A proposal gets at most one item: after an acceptance that created one, none does. -/
  once : ∀ command audit d, d.Fresh 2 (tables x).usedIds →
    Creates (runAccept stores privacy command audit d x) → ∀ z,
      Leads stores tables privacy (runAccept stores privacy command audit d x).2 z →
        ∀ command' audit' d', command'.tenantId = command.tenantId →
          command'.proposalId = command.proposalId →
            ¬ Creates (runAccept stores privacy command' audit' d' z)

end

section

variable {σ : Type} {stores : MemoryStores σ} {tables : σ → ReviewTables}
  {admits : σ → Option AuditEvent → Prop} {recovers : Bool} {privacy : PrivacyGuard}
  {command : ReviewMemoryProposalCommand} {audit : Option AuditEvent} {d : Draws} {x y : σ}
  {r : ReviewMemoryProposalResult}

/-- What an acceptance that returns has read, prepared and done. -/
structure Returned (tables : σ → ReviewTables) (privacy : PrivacyGuard)
    (command : ReviewMemoryProposalCommand) (d : Draws) (x : σ) (p : MemoryProposal)
    (item : MemoryItem) (event : IntegrationEvent)
    (result : MemoryProposal × MemoryItem × Bool) (y : σ) : Prop where
  found : (tables x).getProposal command.tenantId command.proposalId = some p
  prepared : prepareAcceptance privacy command p d = .ok (item, event)
  outcome : AcceptOutcome (tables x) p
    ⟨item, event, scopeIdempotencyKey item.workspaceId (some (acceptKey command p))⟩
    (fun current => InMemoryMemoryStore.acceptedCopy current item command.reviewer command.reason
      (d.now 3)) (.ok result) (tables y)

theorem runAccept_eq_ok (laws : ReviewLaws stores tables admits recovers)
    (h : runAccept stores privacy command audit d x = (.ok r, y)) :
    ∃ p item event result, Returned tables privacy command d x p item event result y ∧
      r = acceptanceOf event result := by
  rcases run_accept privacy stores.proposals d x command audit with
    ⟨e, hrun⟩ | ⟨p, item, event, hg, hp, a, hrun⟩
  · rw [runAccept, hrun] at h
    cases h
  · rw [runAccept, hrun] at h
    have hout := laws.accept x p item event command.reviewer command.reason (acceptKey command p) a
      (d.now 3)
    rcases hc : stores.proposals.acceptProposalWithMemory p item event command.reviewer
      command.reason (acceptKey command p) a (d.now 3) x with ⟨out, z⟩
    rw [hc] at h hout
    cases out with
    | error e => cases h
    | ok result =>
      cases h
      exact ⟨p, item, event, result, ⟨laws.getProposal .. ▸ hg, hp, hout⟩, rfl⟩

variable {p : MemoryProposal} {item : MemoryItem} {event : IntegrationEvent}
  {result : MemoryProposal × MemoryItem × Bool}

theorem getProposal_unique {v : ReviewTables} {q : MemoryProposal}
    (hp : v.getProposal command.tenantId command.proposalId = some p)
    (hq : v.getProposal p.tenantId p.id = some q) : q = p := by
  obtain ⟨hpm, -, -⟩ := getProposal_eq_some.mp hp
  obtain ⟨hqm, hid, -⟩ := getProposal_eq_some.mp hq
  exact v.proposals.eq_of_key_eq hqm hpm hid

/-- The memory of an accepted proposal is the only item that the proposal names. -/
theorem AcceptedAs.eq_of_named {v : ReviewTables} (hv : v.Sound) (hp : p ∈ v.proposals.rows)
    (ha : p.status = .accepted) {i : MemoryItem} (hi : i ∈ v.items.rows)
    (hn : p.metadata.get "accepted_memory_id" = some (.str i.id.str)) : AcceptedAs p i := by
  obtain ⟨j, hj, hacc⟩ := hv p hp ha
  have hstr : j.id.str = i.id.str := by
    have h := hacc.named.symm.trans hn
    simpa using h
  have hij : j = i := v.items.eq_of_key_eq hj hi (UUID.str_injective hstr)
  exact hij ▸ hacc

namespace Returned

/-- The key of the prepared item is the key of the acceptance. -/
theorem entry_eq (h : Returned tables privacy command d x p item event result y) :
    (tables x).keyEntry item.tenantId
      (scopeIdempotencyKey item.workspaceId (some (acceptKey command p))) =
        acceptEntry (tables x) command p := by
  obtain ⟨-, -, -, -, ht, hw, -⟩ := prepareAcceptance_eq_ok h.prepared
  rw [ht, hw, acceptEntry]

/-- An acceptance with its own key is exact. -/
theorem acceptExact (h : Returned tables privacy command d x p item event result y)
    (hx : (tables x).Sound) (hd : d.Fresh 2 (tables x).usedIds)
    (hkey : KeyOwn (tables x) command) :
    AcceptExact (tables y) command (acceptanceOf event result) := by
  have hentry := h.entry_eq
  obtain ⟨hid, -, -, -, ht, -, horigin, -⟩ := prepareAcceptance_eq_ok h.prepared
  obtain ⟨hpm, hpid, hpt⟩ := getProposal_eq_some.mp h.found
  have hout := h.outcome
  generalize hty : tables y = t at hout
  cases hout with
  | replayed current e i found notRejected entry stored =>
    obtain rfl := getProposal_unique h.found found
    obtain ⟨hacc, hnamed⟩ := hkey current h.found e (hentry.symm.trans entry)
    obtain ⟨him, hie⟩ := Table.find_eq_some.mp stored
    rw [← hie] at hnamed
    exact ⟨current, _, h.found, hacc, rfl, him, AcceptedAs.eq_of_named hx hpm hacc him hnamed⟩
  | recovered current i found unused accepted named stored =>
    obtain rfl := getProposal_unique h.found found
    exact ⟨current, _, h.found, accepted, rfl, stored,
      AcceptedAs.eq_of_named hx hpm accepted stored named⟩
  | committed current _ found unused notRejected notAccepted writes proposals =>
    obtain rfl := getProposal_unique h.found found
    refine ⟨InMemoryMemoryStore.acceptedCopy current item command.reviewer command.reason (d.now 3),
      _, ?_, rfl, rfl, ?_, JsonObject.get_set_self .., horigin, ht⟩
    · rw [getProposal_eq_some, proposals]
      exact ⟨Table.mem_put.mpr (.inl rfl), hpid, hpt⟩
    · exact (writes.mem_items (hid ▸ find_item_of_fresh hd (by omega))).mpr (.inr rfl)

/-- An exact acceptance had its own key. -/
theorem keyOwn (h : Returned tables privacy command d x p item event result y)
    (hexact : AcceptExact (tables y) command (acceptanceOf event result)) :
    KeyOwn (tables x) command := by
  have hentry := h.entry_eq
  have hout := h.outcome
  intro q hq e he
  obtain rfl : q = p := by
    rw [Option.mem_def, h.found] at hq
    exact (Option.some.inj hq).symm
  generalize hty : tables y = t at hout hexact
  cases hout with
  | replayed current e' i found notRejected entry stored =>
    have hee : e = e' := by
      rw [Option.mem_def, ← hentry, entry] at he
      exact (Option.some.inj he).symm
    subst hee
    obtain ⟨p', k, hp', hacc, hk, -, hnames⟩ := hexact
    obtain rfl : p' = q := Option.some.inj (hp'.symm.trans h.found)
    cases hk
    obtain ⟨-, hie⟩ := Table.find_eq_some.mp stored
    rw [← hie]
    exact ⟨hacc, hnames.named⟩
  | recovered current i found unused =>
    rw [Option.mem_def, ← hentry, unused] at he
    cases he
  | committed current _ found unused =>
    rw [Option.mem_def, ← hentry, unused] at he
    cases he

/-- An acceptance leaves the content of the proposal alone. -/
theorem content (h : Returned tables privacy command d x p item event result y) {q : MemoryProposal}
    (hq : (tables y).getProposal command.tenantId command.proposalId = some q) :
    q.target = p.target ∧ acceptedMemoryText q = acceptedMemoryText p := by
  have hout := h.outcome
  obtain ⟨hpm, hpid, hpt⟩ := getProposal_eq_some.mp h.found
  generalize hty : tables y = t at hout hq
  cases hout with
  | replayed | recovered =>
    obtain rfl : q = p := Option.some.inj (hq.symm.trans h.found)
    exact ⟨rfl, rfl⟩
  | committed current _ found unused notRejected notAccepted writes proposals =>
    obtain rfl := getProposal_unique h.found found
    obtain ⟨hqm, hqid, -⟩ := getProposal_eq_some.mp hq
    rw [proposals] at hqm
    rcases Table.mem_put.mp hqm with rfl | ⟨-, hne⟩
    · exact ⟨rfl, rfl⟩
    · exact absurd (hqid.trans hpid.symm) hne

end Returned

/-- No acceptance of an accepted proposal creates an item. -/
theorem not_creates_of_accepted (laws : ReviewLaws stores tables admits recovers)
    (hp : (tables x).getProposal command.tenantId command.proposalId = some p)
    (ha : p.status = .accepted) : ¬ Creates (runAccept stores privacy command audit d x) := by
  rintro ⟨r, k, hr, hk, hc⟩
  obtain ⟨q, item, event, result, h, hres⟩ := runAccept_eq_ok laws (Prod.ext hr rfl)
  obtain rfl : q = p := Option.some.inj (h.found.symm.trans hp)
  have hout := h.outcome
  generalize tables (runAccept stores privacy command audit d x).2 = t at hout
  cases hout with
  | replayed | recovered =>
    rw [hres] at hk
    cases hk
    cases hc
  | committed current _ found unused notRejected notAccepted =>
    obtain rfl := getProposal_unique hp found
    exact notAccepted ha

/-- An acceptance of an accepted proposal returns its item exactly when the key recalls it. -/
theorem acceptsAgain_iff (laws : ReviewLaws stores tables admits recovers)
    (hp : (tables x).getProposal command.tenantId command.proposalId = some p)
    (ha : p.status = .accepted) {k : RetainResult} (hr : r.retained = some k)
    (hk : k.item ∈ (tables x).items.rows) (hacc : AcceptedAs p k.item)
    (hprep : prepareAcceptance privacy command p d = .ok (item, event)) :
    AcceptsAgain r (runAccept stores privacy command audit d x) ↔
      KeyRecalls recovers (tables x) command r := by
  have hg : stores.proposals.getProposal x command.tenantId command.proposalId = some p :=
    (laws.getProposal ..).trans hp
  obtain ⟨a, hrun⟩ := run_accept_of_prepared stores.proposals audit hg hprep
  obtain ⟨hid, -, -, -, ht, hw, horigin, hann⟩ := prepareAcceptance_eq_ok hprep
  obtain ⟨hpm, hpid, hpt⟩ := getProposal_eq_some.mp hp
  have hself : (tables x).getProposal p.tenantId p.id = some p :=
    getProposal_eq_some.mpr ⟨hpm, rfl, rfl⟩
  have hrej : p.status ≠ .rejected := by simp [ha]
  have hentry : (tables x).keyEntry item.tenantId
      (scopeIdempotencyKey item.workspaceId (some (acceptKey command p))) =
        acceptEntry (tables x) command p := by rw [ht, hw, acceptEntry]
  have hrecalls : KeyRecalls recovers (tables x) command r ↔
      (match acceptEntry (tables x) command p with
        | some e => e.itemId = k.item.id
        | none => recovers = true) := by
    simp [KeyRecalls, hp, hr]
  rw [hrecalls, runAccept, hrun]
  cases he : acceptEntry (tables x) command p with
  | some e =>
    simp only
    constructor
    · rintro ⟨r', k₀, k', hr', hk', hk₀, hitem, -⟩
      have hout := laws.accept x p item event command.reviewer command.reason (acceptKey command p)
        a (d.now 3)
      rcases hc : stores.proposals.acceptProposalWithMemory p item event command.reviewer
        command.reason (acceptKey command p) a (d.now 3) x with ⟨out, z⟩
      rw [hc] at hout hr'
      simp only at hout hr'
      generalize tables z = t at hout
      cases hout with
      | raised => cases hr'
      | replayed current e' i found notRejected entry stored =>
        cases hr'
        cases hk'
        obtain rfl : k₀ = k := Option.some.inj (hk₀.symm.trans hr)
        have hee : e' = e := by
          rw [hentry, he] at entry
          exact (Option.some.inj entry).symm
        obtain ⟨-, hie⟩ := Table.find_eq_some.mp stored
        rw [← hee, ← hie]
        exact congrArg (fun i : MemoryItem => i.id) hitem
      | recovered current i found unused =>
        rw [hentry, he] at unused
        cases unused
      | committed current _ found unused =>
        rw [hentry, he] at unused
        cases unused
    · intro hkey
      have hfind : (tables x).items.find e.itemId = some k.item :=
        Table.find_eq_some.mpr ⟨hk, hkey.symm⟩
      rw [laws.replays x p item event _ _ _ a _ p e k.item hann hself hrej (hentry.trans he) hfind
        (hacc.tenant.trans ht.symm)]
      exact ⟨_, k, _, rfl, rfl, hr, rfl, rfl⟩
  | none =>
    simp only
    rw [laws.recovery x p item event _ _ _ a _ p k.item hann hself ha hacc.named (hentry.trans he)
      hk]
    cases recovers with
    | true => exact ⟨fun _ => rfl, fun _ => ⟨_, k, _, rfl, rfl, hr, rfl, rfl⟩⟩
    | false =>
      refine ⟨?_, fun h => (by cases h)⟩
      rintro ⟨_, _, _, hok, -⟩
      cases hok

/-- Acceptances are exact in every state whose accepted proposals have their memories. -/
theorem ReviewTables.Sound.acceptanceLaw (hx : (tables x).Sound)
    (laws : ReviewLaws stores tables admits recovers) :
    AcceptanceLaw stores tables privacy recovers x where
  exact_iff command audit d hd r y hrun := by
    obtain ⟨p, item, event, result, h, rfl⟩ := runAccept_eq_ok laws hrun
    exact ⟨h.keyOwn, h.acceptExact hx hd⟩
  again_iff command audit d _ r y hrun hexact z hz command' audit' d' ht hid := by
    obtain ⟨p, item, event, result, h, rfl⟩ := runAccept_eq_ok laws hrun
    obtain ⟨q, k, hq, ha, hr, hk, hacc⟩ := hexact
    obtain ⟨htarget, htext⟩ := h.content hq
    obtain ⟨hqm, hqid, hqt⟩ := getProposal_eq_some.mp hq
    have hkeeps := hz.keeps laws
    have hqz : (tables z).getProposal command'.tenantId command'.proposalId = some q :=
      getProposal_eq_some.mpr ⟨hkeeps.accepted q hqm ha, hqid.trans hid.symm, hqt.trans ht.symm⟩
    obtain ⟨⟨item', event'⟩, hprep⟩ := exists_prepareAcceptance h.prepared htarget htext
      (by simp [ha]) command' d'
    exact acceptsAgain_iff laws hqz ha hr (hkeeps.items _ hk) hacc hprep
  once command audit d hd hcreates z hz command' audit' d' ht hid := by
    obtain ⟨r, k, hr, hk, hc⟩ := hcreates
    obtain ⟨p, item, event, result, h, rfl⟩ := runAccept_eq_ok laws (Prod.ext hr rfl)
    have hown : KeyOwn (tables x) command := by
      have hout := h.outcome
      have hentry := h.entry_eq
      generalize tables (runAccept stores privacy command audit d x).2 = t at hout
      cases hout with
      | replayed | recovered =>
        cases hk
        cases hc
      | committed current _ found unused =>
        intro q hq e he
        obtain rfl : q = p := Option.some.inj (hq.symm.trans h.found)
        rw [Option.mem_def, ← hentry, unused] at he
        cases he
    obtain ⟨q, -, hq, ha, -⟩ := h.acceptExact hx hd hown
    obtain ⟨hqm, hqid, hqt⟩ := getProposal_eq_some.mp hq
    refine not_creates_of_accepted laws ?_ ha
    exact getProposal_eq_some.mpr
      ⟨(hz.keeps laws).accepted q hqm ha, hqid.trans hid.symm, hqt.trans ht.symm⟩

end

/-- In every reachable state of either repository an acceptance is exact when its key is its own,
and only then; later ones return the same item when their key recalls it, and only then. -/
theorem acceptance_exact_iff (privacy : PrivacyGuard) :
    (∀ s, Leads inMemoryStores InMemoryMemoryStore.tables privacy .empty s →
      AcceptanceLaw inMemoryStores InMemoryMemoryStore.tables privacy true s) ∧
    ∀ items proposals audits s, Leads postgresStores PostgresMemoryLedger.tables privacy
        (.empty items proposals audits) s →
      AcceptanceLaw postgresStores PostgresMemoryLedger.tables privacy false s :=
  ⟨fun _ h => (h.sound inMemory_reviewLaws sound_empty).acceptanceLaw inMemory_reviewLaws,
    fun _ _ _ _ h => (h.sound postgres_reviewLaws sound_empty).acceptanceLaw postgres_reviewLaws⟩

/-- An operation on a store with a well-formed history continues a run. -/
theorem Leads.operation {env : Deployment} {x s : InMemoryMemoryStore} {d : Draws}
    (h : Leads inMemoryStores InMemoryMemoryStore.tables env.privacy x s) (hs : s.Chained)
    (op : Operation) (hd : d.Fresh (op.drawCount s) s.usedIds) :
    Leads inMemoryStores InMemoryMemoryStore.tables env.privacy x (op.run env d s).2 := by
  cases op with
  | memory op =>
    refine .call op d h ⟨hd.1, fun i hi hmem => hd.2 i hi ?_⟩
    rcases List.mem_append.mp hmem with hmem | hmem
    · exact List.mem_append_left _ (List.mem_append_left _ hmem)
    · exact List.mem_append_right _ hmem
  | decide tenantId workspaceId caseId status winnerValue reason audit =>
    have hout := (ConflictService.run_decide env.runtime s tenantId workspaceId caseId status
      winnerValue reason audit d).untouched
    refine .resolve h (Operation.keeps_items _ env hs hd) ?_ ?_
    · simp only [Operation.run, Operation.program, Proc.run_wrap]
      exact hout.1
    · simp only [Operation.run, Operation.program, Proc.run_wrap]
      exact hout.2

/-- The stores that runs of all operations reach are among those of these results. -/
theorem Reachable.leads {env : Deployment} {s : InMemoryMemoryStore} (h : Reachable env s) :
    Leads inMemoryStores InMemoryMemoryStore.tables env.privacy .empty s := by
  induction h with
  | empty => exact .refl _
  | step op d hs hd ih => exact ih.operation hs.consistent.chained op hd

/-- An open proposal. -/
def openProposal : MemoryProposal where
  tenantId := UUID.ofNat 1
  workspaceId := UUID.ofNat 2
  «namespace» := "default"
  requester := "agent"
  target := .fact
  proposal := "The queue is drained at midnight."
  evidence := ""
  id := UUID.ofNat 0
  agentId := none
  threadId := none
  confidence := 7 / 10
  importance := 1 / 2
  status := .open
  metadata := []
  createdAt := DateTime.ofMicros 0
  reviewedAt := none
  reviewer := none
  reviewReason := ""
  valid := by decide +kernel

/-- Two calls: a memory is retained under the key "k1" and a proposal is submitted. -/
def keyedThenSubmitted : List (MemoryOperation × Draws) :=
  [(.retain { plainRetain "The service listens on port 8080." .workspace none with
      idempotencyKey := some "k1" } none, drawsFrom 10),
    (.submit openProposal none none, drawsFrom 20)]

/-- The state after several calls. -/
def afterCalls {σ : Type} (stores : MemoryStores σ) (x : σ)
    (calls : List (MemoryOperation × Draws)) :
    σ := calls.foldl (fun y c => ((c.1.program stores { enabled := false } c.2).run y).2) x

/-- An acceptance of the submitted proposal under a chosen key. -/
def acceptUnder (key : Option String) : ReviewMemoryProposalCommand where
  tenantId := UUID.ofNat 1
  proposalId := UUID.ofNat 20
  idempotencyKey := key

/-- The in-memory store with a memory under the key "k1" and an open proposal. -/
def storeWithProposal : InMemoryMemoryStore := afterCalls inMemoryStores .empty keyedThenSubmitted

theorem storeWithProposal_reached :
    Leads inMemoryStores InMemoryMemoryStore.tables { enabled := false } .empty storeWithProposal :=
  .call _ _ (.call _ _ (.refl _) (by decide +kernel)) (by decide +kernel)

/-- The acceptance of the open proposal under the key of the other memory. -/
def foreignAcceptance : Except Exn ReviewMemoryProposalResult × InMemoryMemoryStore :=
  runAccept inMemoryStores { enabled := false } (acceptUnder (some "k1")) none (drawsFrom 30)
    storeWithProposal

/-- It returns normally, yet the proposal stays open. -/
theorem foreignAcceptance_inexact :
    ∃ r, foreignAcceptance.1 = .ok r ∧
      ¬ AcceptExact foreignAcceptance.2.tables (acceptUnder (some "k1")) r := by
  obtain ⟨r, hr⟩ := Except.exists_of_isOk (x := foreignAcceptance.1) (by decide +kernel)
  refine ⟨r, hr, ?_⟩
  rintro ⟨p, k, hp, ha, -⟩
  have hopen : (foreignAcceptance.2.tables.getProposal (UUID.ofNat 1) (UUID.ofNat 20)).map
      (fun p => p.status) = some .open := by decide +kernel
  change foreignAcceptance.2.tables.getProposal (UUID.ofNat 1) (UUID.ofNat 20) = some p at hp
  rw [hp, Option.map_some, ha] at hopen
  cases hopen

/-- Under an unused key the same proposal is accepted exactly. -/
theorem acceptance_exact_iff_example :
    ∃ r, (runAccept inMemoryStores { enabled := false } (acceptUnder none) none (drawsFrom 30)
        storeWithProposal).1 = .ok r ∧
      AcceptExact (runAccept inMemoryStores { enabled := false } (acceptUnder none) none
        (drawsFrom 30) storeWithProposal).2.tables (acceptUnder none) r := by
  obtain ⟨r, hr⟩ := Except.exists_of_isOk
    (x := (runAccept inMemoryStores { enabled := false } (acceptUnder none) none (drawsFrom 30)
      storeWithProposal).1) (by decide +kernel)
  refine ⟨r, hr, ?_⟩
  refine (((acceptance_exact_iff { enabled := false }).1 storeWithProposal
    storeWithProposal_reached).exact_iff _ none (drawsFrom 30) (by decide +kernel) r _
      (Prod.ext hr rfl)).mpr ?_
  intro p hp e he
  have hnone : ((storeWithProposal.tables.getProposal (UUID.ofNat 1) (UUID.ofNat 20)).bind
      fun p => acceptEntry storeWithProposal.tables (acceptUnder none) p) = none := by
    decide +kernel
  change storeWithProposal.tables.getProposal (UUID.ofNat 1) (UUID.ofNat 20) = some p at hp
  rw [hp, Option.bind_some] at hnone
  rw [Option.mem_def, hnone] at he
  cases he

end MemoryPlane
