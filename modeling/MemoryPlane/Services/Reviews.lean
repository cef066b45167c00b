import MemoryPlane.Services.MemoryStores

/-!
# Reviews in a run

What the write operations keep of an earlier acceptance: items stay stored, an accepted
proposal stays as it is, and it names an item that names it. Everything here holds of every
repository that keeps the review laws.
-/

namespace MemoryPlane

open MemoryProposalService

/-- Identifiers in use by items and proposals. -/
def ReviewTables.usedIds (v : ReviewTables) : List UUID :=
  v.items.rows.map (fun i => i.id) ++ v.proposals.rows.map fun p => p.id

/-- The proposal names the item as its durable memory, and the item names the proposal. -/
structure AcceptedAs (p : MemoryProposal) (i : MemoryItem) : Prop where
  named : p.metadata.get "accepted_memory_id" = some (.str i.id.str)
  origin : i.provenance.originUri = some (proposalUri p.id)
  tenant : i.tenantId = p.tenantId

/-- Every accepted proposal has its durable memory. -/
def ReviewTables.Sound (v : ReviewTables) : Prop :=
  ∀ p ∈ v.proposals.rows, p.status = .accepted → ∃ i ∈ v.items.rows, AcceptedAs p i

/-- What later tables keep. -/
structure ReviewTables.Keeps (v t : ReviewTables) : Prop where
  items : ∀ i ∈ v.items.rows, i ∈ t.items.rows
  accepted : ∀ p ∈ v.proposals.rows, p.status = .accepted → p ∈ t.proposals.rows

namespace ReviewTables

variable {v t u : ReviewTables} {d : Draws} {n : ℕ}

theorem sound_empty : empty.Sound := fun p hp => absurd hp (by simp [empty])

theorem Keeps.refl (v : ReviewTables) : v.Keeps v := ⟨fun _ h => h, fun _ h _ => h⟩

theorem Keeps.trans (h : v.Keeps t) (h' : t.Keeps u) : v.Keeps u :=
  ⟨fun i hi => h'.items i (h.items i hi), fun p hp ha => h'.accepted p (h.accepted p hp ha) ha⟩

theorem find_item_of_fresh (h : d.Fresh n v.usedIds) {i : ℕ} (hi : i < n) :
    v.items.find (d.uuid4 i) = none := by
  rw [Table.find_eq_none]
  intro x hx he
  refine h.2 i hi ?_
  rw [← he]
  exact List.mem_append_left _ (List.mem_map.mpr ⟨x, hx, rfl⟩)

theorem find_proposal_of_fresh (h : d.Fresh n v.usedIds) {i : ℕ} (hi : i < n) :
    v.proposals.find (d.uuid4 i) = none := by
  rw [Table.find_eq_none]
  intro p hp he
  refine h.2 i hi ?_
  rw [← he]
  exact List.mem_append_right _ (List.mem_map.mpr ⟨p, hp, rfl⟩)

/-- A write under a new identifier adds its item. -/
theorem Writes.mem_items {w : Ledger.Write} (h : v.Writes w t)
    (hnew : v.items.find w.item.id = none) {i : MemoryItem} :
    i ∈ t.items.rows ↔ i ∈ v.items.rows ∨ i = w.item := by
  rw [h.items, Table.rows_put_of_fresh hnew, List.mem_append, List.mem_singleton]

/-- What an operation may do to the tables. -/
structure Step (v t : ReviewTables) : Prop where
  keeps : v.Keeps t
  /-- A proposal that is accepted now was accepted before, or has its memory. -/
  accepts : ∀ p ∈ t.proposals.rows, p.status = .accepted →
    p ∈ v.proposals.rows ∨ ∃ i ∈ t.items.rows, AcceptedAs p i

theorem Step.refl (v : ReviewTables) : v.Step v := ⟨.refl v, fun _ h _ => .inl h⟩

theorem Step.sound (h : v.Step t) (hv : v.Sound) : t.Sound := by
  intro p hp ha
  rcases h.accepts p hp ha with hp | hi
  · obtain ⟨i, hi, hacc⟩ := hv p hp ha
    exact ⟨i, h.keeps.items i hi, hacc⟩
  · exact hi

/-- Adding items is a step. -/
theorem step_of_items (hitems : ∀ i ∈ v.items.rows, i ∈ t.items.rows)
    (hproposals : t.proposals = v.proposals) : v.Step t := by
  refine ⟨⟨hitems, fun p hp _ => ?_⟩, fun p hp _ => .inl ?_⟩
  · rw [hproposals]
    exact hp
  · rw [hproposals] at hp
    exact hp

/-- Replacing a proposal that was not accepted by one that is not, is a step. -/
theorem step_of_put {q : MemoryProposal} (hq : q.status ≠ .accepted)
    (hold : ∀ p ∈ v.proposals.rows, p.id = q.id → p.status ≠ .accepted) :
    v.Step { v with proposals := v.proposals.put q } := by
  refine ⟨⟨fun _ h => h, fun p hp ha => ?_⟩, fun p hp ha => ?_⟩
  · exact Table.mem_put.mpr (.inr ⟨hp, fun hid => hold p hp hid ha⟩)
  · rcases Table.mem_put.mp hp with rfl | ⟨hp, -⟩
    · exact absurd ha hq
    · exact .inl hp

end ReviewTables

open ReviewTables

/-- A call that writes one new item is a step. -/
theorem WriteOutcome.step {v t : ReviewTables} {w : Ledger.Write}
    {r : Except Exn (MemoryItem × Bool)} (h : WriteOutcome v w r t)
    (hnew : v.items.find w.item.id = none) : v.Step t := by
  cases h with
  | replayed | raised => exact .refl _
  | committed _ _ writes proposals =>
    exact step_of_items (fun i hi => (writes.mem_items hnew).mpr (.inl hi)) proposals

/-- Saving a review of a proposal that was not accepted is a step. -/
theorem SaveOutcome.step {v t : ReviewTables} {p : MemoryProposal} {r : Except Exn MemoryProposal}
    (h : SaveOutcome v p r t) (hp : p.status ≠ .accepted)
    (hold : ∀ q ∈ v.proposals.rows, q.id = p.id → q.status ≠ .accepted) : v.Step t := by
  cases h with
  | raised => exact .refl _
  | saved current q found id tenant status =>
    exact step_of_put (status ▸ hp) fun p' hp' hid => hold p' hp' (hid.trans id)

/-- Submitting an open proposal under a new identifier is a step. -/
theorem SubmitOutcome.step {v t : ReviewTables} {p : MemoryProposal}
    {r : Except Exn (MemoryProposal × Bool)} (h : SubmitOutcome v p r t)
    (hp : p.status ≠ .accepted) (hnew : v.proposals.find p.id = none) : v.Step t := by
  cases h with
  | replayed | raised => exact .refl _
  | stored =>
    exact step_of_put hp fun q hq hid => absurd hid (Table.find_eq_none.mp hnew q hq)

/-- An acceptance under a new identifier, of an item that names the proposal, is a step. -/
theorem AcceptOutcome.step {v t : ReviewTables} {p : MemoryProposal} {w : Ledger.Write}
    {reviewer reason : String} {now : DateTime}
    {r : Except Exn (MemoryProposal × MemoryItem × Bool)}
    (h : AcceptOutcome v p w
      (fun current => InMemoryMemoryStore.acceptedCopy current w.item reviewer reason now) r t)
    (hnew : v.items.find w.item.id = none)
    (horigin : w.item.provenance.originUri = some (proposalUri p.id))
    (htenant : w.item.tenantId = p.tenantId) : v.Step t := by
  cases h with
  | replayed | recovered | raised => exact .refl _
  | committed current _ found unused notRejected notAccepted writes proposals =>
    obtain ⟨hm, hid, ht⟩ := getProposal_eq_some.mp found
    refine ⟨⟨fun i hi => (writes.mem_items hnew).mpr (.inl hi), fun q hq ha => ?_⟩,
      fun q hq ha => ?_⟩
    · rw [proposals]
      refine Table.mem_put.mpr (.inr ⟨hq, fun he => ?_⟩)
      obtain rfl : q = current := v.proposals.eq_of_key_eq hq hm he
      exact notAccepted ha
    · rw [proposals] at hq
      rcases Table.mem_put.mp hq with rfl | ⟨hq, -⟩
      · refine .inr ⟨w.item, (writes.mem_items hnew).mpr (.inr rfl), ?_, ?_, ?_⟩
        · exact JsonObject.get_set_self ..
        · rw [horigin, ← hid]
          rfl
        · rw [htenant, ← ht]
          rfl
      · exact .inl hq

section

variable {σ : Type} {stores : MemoryStores σ} {tables : σ → ReviewTables}
  {admits : σ → Option AuditEvent → Prop} {recovers : Bool} {privacy : PrivacyGuard}

/-- Every write operation is a step on the tables. -/
theorem ReviewLaws.step (laws : ReviewLaws stores tables admits recovers) (op : MemoryOperation)
    {d : Draws} {x : σ} (hd : d.Fresh 2 (tables x).usedIds) :
    (tables x).Step (tables ((op.program stores privacy d).run x).2) := by
  cases op with
  | retain command audit =>
    simp only [MemoryOperation.program, Proc.run_wrap]
    rcases RetentionService.run_retain privacy stores.retention d x command audit with
      ⟨e, -, h⟩ | ⟨item, event, hp, a, h⟩
    · rw [h]
      exact .refl _
    · obtain ⟨hid, -⟩ := RetentionService.prepare_eq_ok hp
      rw [h]
      exact (laws.retain ..).step (hid ▸ find_item_of_fresh hd (by omega))
  | supersede command audit =>
    simp only [MemoryOperation.program, Proc.run_wrap]
    rcases RetentionService.run_supersede privacy stores.retention d x command audit with
      ⟨e, h⟩ | ⟨current, item, event, -, hp, a, h⟩
    · rw [h]
      exact .refl _
    · obtain ⟨hid, -⟩ := RetentionService.prepareReplacement_eq_ok hp
      rw [h]
      exact (laws.supersede ..).step (hid ▸ find_item_of_fresh hd (by omega))
  | submit proposal key audit =>
    simp only [MemoryOperation.program, Proc.run_bind, Proc.run_invoke]
    have hs := (laws.submit x (proposal.submitted (d.uuid4 0)) key audit).step
      (by simp [MemoryProposal.submitted]) (find_proposal_of_fresh hd (by omega))
    rcases hc : stores.proposals.appendProposal (proposal.submitted (d.uuid4 0)) key audit x with
      ⟨r, y⟩
    rw [hc] at hs
    cases r <;> exact hs
  | accept command audit =>
    simp only [MemoryOperation.program, Proc.run_wrap]
    rcases run_accept privacy stores.proposals d x command audit with
      ⟨e, h⟩ | ⟨p, item, event, -, hp, a, h⟩
    · rw [h]
      exact .refl _
    · obtain ⟨hid, -, -, -, ht, -, horigin, -⟩ := prepareAcceptance_eq_ok hp
      rw [h]
      exact (laws.accept ..).step (hid ▸ find_item_of_fresh hd (by omega)) horigin ht
  | reject command audit =>
    simp only [MemoryOperation.program, Proc.run_wrap]
    rcases run_reject stores.proposals d x command audit with ⟨e, h⟩ | ⟨p, hg, hacc, a, h⟩
    · rw [h]
      exact .refl _
    · rw [h]
      rw [laws.getProposal] at hg
      obtain ⟨hm, -, -⟩ := getProposal_eq_some.mp hg
      refine (laws.save x (rejectedCopy command p (d.now 0)) a).step (fun h => (by cases h))
        fun q hq hid => ?_
      obtain rfl : q = p := (tables x).proposals.eq_of_key_eq hq hm hid
      exact hacc

variable (stores tables privacy) in
/-- The states that runs lead to. A conflict resolution adds items and touches neither keys nor
proposals. -/
inductive Leads : σ → σ → Prop
  | refl (x : σ) : Leads x x
  | call {x y : σ} (op : MemoryOperation) (d : Draws) (before : Leads x y)
      (fresh : d.Fresh 2 (tables y).usedIds) : Leads x ((op.program stores privacy d).run y).2
  | resolve {x y z : σ} (before : Leads x y)
      (items : ∀ i ∈ (tables y).items.rows, i ∈ (tables z).items.rows)
      (idempotency : (tables z).idempotency = (tables y).idempotency)
      (proposals : (tables z).proposals = (tables y).proposals) : Leads x z

/-- A run keeps items and acceptances. -/
theorem Leads.keeps (laws : ReviewLaws stores tables admits recovers) {x y : σ}
    (h : Leads stores tables privacy x y) : (tables x).Keeps (tables y) := by
  induction h with
  | refl => exact .refl _
  | call op d _ fresh ih => exact ih.trans (laws.step op fresh).keeps
  | resolve _ items _ proposals ih => exact ih.trans (step_of_items items proposals).keeps

/-- A run keeps the durable memory of every accepted proposal. -/
theorem Leads.sound (laws : ReviewLaws stores tables admits recovers) {x y : σ}
    (h : Leads stores tables privacy x y) (hx : (tables x).Sound) : (tables y).Sound := by
  induction h with
  | refl => exact hx
  | call op d _ fresh ih => exact (laws.step op fresh).sound ih
  | resolve _ items _ proposals ih => exact (step_of_items items proposals).sound ih

end

end MemoryPlane
