import MemoryPlane.Adapters.Versions
import MemoryPlane.Runs.Operations
import MemoryPlane.Services.ConflictWrites

/-!
# What an operation writes

Every operation, on a store with a well-formed history and with fresh draws, commits a list of
writes that the ledger admits, and an empty list unless it reports a creation. The invariant
of the ledger follows for every run.
-/

namespace MemoryPlane

open InMemoryMemoryStore

variable {env : Deployment} {s t : InMemoryMemoryStore} {d : Draws}

theorem Draws.Fresh.item {n i : ℕ} (h : d.Fresh n s.usedIds) (hi : i < n) :
    s.items.find (d.uuid4 i) = none := by
  rw [Table.find_eq_none]
  intro x hx he
  refine h.2 i hi ?_
  rw [← he]
  simp only [usedIds, List.mem_append]
  exact .inl (.inl (List.mem_map.mpr ⟨x, hx, rfl⟩))

theorem Draws.Fresh.event {n i : ℕ} (h : d.Fresh n s.usedIds) (hi : i < n) :
    ∀ e ∈ s.events, e.id ≠ d.uuid4 i := by
  intro e he heq
  refine h.2 i hi ?_
  rw [← heq]
  simp only [usedIds, List.mem_append]
  exact .inl (.inr (List.mem_map.mpr ⟨e, he, rfl⟩))

/-- One write under a fresh identifier that starts a chain or replaces a current item. -/
theorem Ledger.admits_single {l : Ledger} {w : Ledger.Write} (hitem : l.items.find w.item.id = none)
    (hevent : ∀ e ∈ l.events, e.id ≠ w.event.id) (hann : w.event.Announces w.item)
    (hscope : ∀ k, w.key = some k → ∃ raw, some k = scopeIdempotencyKey w.item.workspaceId raw)
    (hunused : ∀ k, w.key = some k → l.idempotency.find (w.item.tenantId, k) = none)
    (hroot : ∀ p, w.item.supersedesId = some p → ∃ x ∈ l.items.rows, x.id = p ∧
      w.item.revision = x.revision + 1 ∧ SameBoundary x w.item ∧ l.Unreplaced x) :
    l.Admits [w] := by
  constructor <;> simp_all

/-- How an operation changed the ledger: by admitted writes, and by none unless it reports a
creation. -/
structure Committed (s : InMemoryMemoryStore) (r : Except Exn Reply) (t : InMemoryMemoryStore)
    (ws : List Ledger.Write) : Prop where
  admitted : s.toLedger.Admits ws
  ledger : t.toLedger = s.toLedger.commitAll ws
  reported : ws ≠ [] → ∃ reply, r = .ok reply ∧ reply.reportsCreated = true

theorem Committed.nothing {r : Except Exn Reply} (h : t.toLedger = s.toLedger) :
    Committed s r t [] := ⟨Ledger.admits_nil, h, fun hne => absurd rfl hne⟩

theorem replayed_eq_none {tenantId : UUID} {key : Option String} :
    s.replayed tenantId key = none ↔
      ∀ k, key = some k → s.idempotency.find (tenantId, k) = none := by
  cases key with
  | none => simp [replayed]
  | some k => simp [replayed]

/-- A call that writes one item commits it or changes nothing. -/
theorem WriteOutcome.committed_or {item : MemoryItem} {event : IntegrationEvent}
    {key : Option String} {r : Except Exn (MemoryItem × Bool)} {f : MemoryItem × Bool → Reply}
    (h : WriteOutcome s.tables ⟨item, event, scopeIdempotencyKey item.workspaceId key⟩ r t.tables)
    (hitem : s.items.find item.id = none) (hevent : ∀ e ∈ s.events, e.id ≠ event.id)
    (hann : event.Announces item)
    (hroot : r = .ok (item, true) → ∀ p, item.supersedesId = some p → ∃ x ∈ s.items.rows,
      x.id = p ∧ item.revision = x.revision + 1 ∧ SameBoundary x item ∧ s.Unreplaced x)
    (hf : (f (item, true)).reportsCreated = true) :
    ∃ ws, Committed s (r.map f) t ws := by
  generalize hv : t.tables = v at h
  cases h with
  | replayed e i entry stored => exact ⟨[], .nothing (congrArg ReviewTables.toLedger hv)⟩
  | raised e => exact ⟨[], .nothing (congrArg ReviewTables.toLedger hv)⟩
  | committed _ unused writes proposals =>
    have hledger : t.toLedger = _ :=
      (congrArg ReviewTables.toLedger hv).trans (writes.ledger hevent)
    refine ⟨[⟨item, event, scopeIdempotencyKey item.workspaceId key⟩], ?_, hledger, ?_⟩
    · refine Ledger.admits_single hitem hevent hann ?_ (replayed_eq_none.mp unused) (hroot rfl)
      exact fun k hk => ⟨key, hk.symm⟩
    · exact fun _ => ⟨_, rfl, hf⟩

namespace ConflictService

variable {rt : Runtime} {case : ConflictCase} {winner : ConflictCandidate}
  {decision : ConflictReviewDecision}
  {writes : List (MemoryItem × IntegrationEvent × ℕ)}

/-- The writes of a resolution, as ledger writes. -/
def ledgerWrites (writes : List (MemoryItem × IntegrationEvent × ℕ)) : List Ledger.Write :=
  writes.map fun x => ⟨x.1, x.2.1, none⟩

/-- A resolution writes at most once for each stored memory. -/
theorem ResolutionShape.length_le {t w applied : UUID} {d : Draws}
    (h : ResolutionShape case d (storedEvidence s.toLedger case winner) applied writes)
    (listed : case ∈ listCases rt s t w true) : writes.length ≤ s.items.rows.length := by
  obtain ⟨parents, hperm, hrev⟩ := h.revisions
  obtain ⟨-, -, hev⟩ := listCases_evidence listed
  have hpn : (parents.map fun p => p.id).Nodup :=
    (hperm.map _).nodup_iff.mpr (loserHeads_nodup hev)
  have hsub : parents.Subperm s.items.rows :=
    List.subperm_of_subset (List.Nodup.of_map _ hpn) fun p hp =>
      (mem_loserHeads.mp (hperm.mem_iff.mp hp)).1
  rw [hrev.length_eq]
  exact hsub.length_le

/-- The ledger admits the checked writes of a listed case. -/
theorem admits_resolution {t w applied : UUID} (hs : s.Chained)
    (hd : d.Fresh (2 * s.items.rows.length) s.usedIds)
    (listed : case ∈ listCases rt s t w true)
    (built : resolutionWrites case (d.tick 1) (storedEvidence s.toLedger case winner) =
      .ok (applied, writes))
    (checked : ∀ x ∈ writes, ResolutionWriteOk s decision x.1 x.2.2) :
    s.toLedger.Admits (ledgerWrites writes) := by
  obtain ⟨parents, hperm, hrev⟩ := (resolutionWrites_shape built).revisions
  obtain ⟨-, -, hev⟩ := listCases_evidence listed
  have hpn : (parents.map fun p => p.id).Nodup :=
    (hperm.map _).nodup_iff.mpr (loserHeads_nodup hev)
  have hxlen := hrev.length_eq
  have hlen : parents.length ≤ s.items.rows.length :=
    hxlen ▸ (resolutionWrites_shape built).length_le listed
  have hdrawn : ∀ x ∈ writes, ∃ n < 2 * s.items.rows.length, x.1.id = d.uuid4 n := by
    intro x hx
    obtain ⟨p, -, n, hn, hr⟩ := hrev.exists_parent hx
    exact ⟨2 * n, by omega, hr.id⟩
  have hdrawnEvent : ∀ x ∈ writes, ∃ n < 2 * s.items.rows.length, x.2.1.id = d.uuid4 n := by
    intro x hx
    obtain ⟨p, -, n, hn, hr⟩ := hrev.exists_parent hx
    exact ⟨2 * n + 1, by omega, hr.eventId⟩
  constructor
  · simp only [ledgerWrites, List.forall_mem_map]
    intro x hx
    obtain ⟨n, hn, he⟩ := hdrawn x hx
    rw [he]
    exact hd.item hn
  · simp only [ledgerWrites, List.map_map]
    change (writes.map fun x => x.1.id).Nodup
    rw [hrev.ids_eq]
    refine List.Nodup.map_on ?_ List.nodup_range
    intro m hm n hn he
    rw [List.mem_range] at hm hn
    have := hd.1 (2 * m) (by omega) (2 * n) (by omega) he
    omega
  · simp only [ledgerWrites, List.forall_mem_map]
    intro x hx
    obtain ⟨n, hn, he⟩ := hdrawnEvent x hx
    rw [he]
    exact hd.event hn
  · simp only [ledgerWrites, List.map_map]
    change (writes.map fun x => x.2.1.id).Nodup
    rw [hrev.eventIds_eq]
    refine List.Nodup.map_on ?_ List.nodup_range
    intro m hm n hn he
    rw [List.mem_range] at hm hn
    have := hd.1 (2 * m + 1) (by omega) (2 * n + 1) (by omega) he
    omega
  · simp only [ledgerWrites, List.forall_mem_map]
    intro x hx
    obtain ⟨p, -, n, -, hr⟩ := hrev.exists_parent hx
    exact hr.announces
  · simp only [ledgerWrites, List.forall_mem_map]
    intro x _ k hk
    cases hk
  · simp only [ledgerWrites, List.forall_mem_map]
    intro x _ k hk
    cases hk
  · simp only [ledgerWrites, List.forall_mem_map]
    intro x hx q hq
    obtain ⟨p, hp, n, -, hr⟩ := hrev.exists_parent hx
    obtain ⟨hpm, -, -, -⟩ := mem_loserHeads.mp (hperm.mem_iff.mp hp)
    rw [hr.supersedes] at hq
    cases hq
    obtain ⟨parentId, parent, hpar, hget, hc⟩ := (checked x hx).parent
    rw [hr.supersedes] at hpar
    cases hpar
    obtain ⟨hm, hid, -⟩ := Ledger.get_eq_some.mp hget
    obtain rfl : parent = p := s.items.eq_of_key_eq hm hpm hid
    exact ⟨parent, hm, rfl, hr.revision,
      ⟨hr.tenant.symm, hr.workspace.symm, hr.layer.symm, hr.scope.symm⟩,
      ((hs.isCurrent_iff hm).mp hc).1⟩
  · simp only [ledgerWrites, List.forall_mem_map]
    intro x hx y hy p hp hq
    have hsup : (writes.map fun x => x.1.supersedesId).Nodup := by
      rw [hrev.supersedes_eq]
      have := hpn.map (f := some) (Option.some_injective _)
      rwa [List.map_map] at this
    rw [List.inj_on_of_nodup_map hsup hx hy (hp.trans hq.symm)]

end ConflictService

namespace Operation

theorem retain_writes {command : RetainCommand} {audit : Option AuditEvent}
    (hd : d.Fresh 2 s.usedIds) :
    ∃ ws, Committed s ((retain command audit).run env d s).1
      ((retain command audit).run env d s).2 ws := by
  simp only [run, program, MemoryOperation.program, inMemoryStores, Proc.run_wrap]
  rcases RetentionService.run_retain env.privacy inMemoryRetention d s command audit
    with
    ⟨e, -, h⟩ | ⟨item, event, hp, a, h⟩
  · rw [h]
    exact ⟨[], .nothing rfl⟩
  · obtain ⟨hid, heid, hroot, -, -, -, -, hann⟩ := RetentionService.prepare_eq_ok hp
    have hevent : ∀ e ∈ s.events, e.id ≠ event.id := heid ▸ hd.event (by omega)
    rw [h, Except.map_map]
    exact (retain_outcome s item event command.idempotencyKey a).committed_or
      (hid ▸ hd.item (by omega)) hevent hann
      (fun _ p hp' => by rw [hroot] at hp'; cases hp') rfl

theorem supersede_writes (hs : s.Chained) {command : SupersedeMemoryCommand}
    {audit : Option AuditEvent} (hd : d.Fresh 2 s.usedIds) :
    ∃ ws, Committed s ((supersede command audit).run env d s).1
      ((supersede command audit).run env d s).2 ws := by
  simp only [run, program, MemoryOperation.program, inMemoryStores, Proc.run_wrap]
  rcases RetentionService.run_supersede env.privacy inMemoryRetention d s command audit
    with ⟨e, h⟩ | ⟨current, item, event, hg, hp, a, h⟩
  · rw [h]
    exact ⟨[], .nothing rfl⟩
  · obtain ⟨hid, heid, hsup, hrev, ht, hw, hl, hsc, -, hann⟩ :=
      RetentionService.prepareReplacement_eq_ok hp
    have hevent : ∀ e ∈ s.events, e.id ≠ event.id := heid ▸ hd.event (by omega)
    obtain ⟨hout, hcur⟩ := supersedeIfCurrent_outcome s item event command.expectedRevision
      command.idempotencyKey a
    rw [h, Except.map_map]
    refine hout.committed_or (hid ▸ hd.item (by omega)) hevent hann ?_ rfl
    intro hok p hp'
    obtain ⟨parentId, parent, hpar, hget, hc⟩ := hcur item hok
    rw [hsup] at hpar hp'
    cases hpar
    cases hp'
    obtain ⟨hcm, hcid, -⟩ := Ledger.get_eq_some.mp hg
    obtain ⟨hpm, hpid, -⟩ := Ledger.get_eq_some.mp hget
    obtain rfl : parent = current := s.items.eq_of_key_eq hpm hcm hpid
    exact ⟨parent, hcm, rfl, hrev, ⟨ht.symm, hw.symm, hl.symm, hsc.symm⟩,
      ((hs.isCurrent_iff hcm).mp hc).1⟩

theorem accept_writes {command : ReviewMemoryProposalCommand} {audit : Option AuditEvent}
    (hd : d.Fresh 2 s.usedIds) :
    ∃ ws, Committed s ((accept command audit).run env d s).1
      ((accept command audit).run env d s).2 ws := by
  simp only [run, program, MemoryOperation.program, inMemoryStores, Proc.run_wrap]
  rcases MemoryProposalService.run_accept env.privacy inMemoryProposals d s command audit with
    ⟨e, h⟩ | ⟨p, item, event, -, hp, a, h⟩
  · rw [h]
    exact ⟨[], .nothing rfl⟩
  · obtain ⟨hid, heid, hroot, -, -, -, -, hann⟩ := MemoryProposalService.prepareAcceptance_eq_ok hp
    have hevent : ∀ e ∈ s.events, e.id ≠ event.id := heid ▸ hd.event (by omega)
    rw [h, Except.map_map]
    have hout := acceptProposalWithMemory_outcome s p item event command.reviewer command.reason
      (MemoryProposalService.acceptKey command p) a (d.now 3)
    simp only [inMemoryProposals]
    generalize (s.acceptProposalWithMemory p item event command.reviewer command.reason
      (MemoryProposalService.acceptKey command p) a (d.now 3)) = out at hout
    obtain ⟨r, t⟩ := out
    simp only at hout ⊢
    generalize hv : t.tables = v at hout
    cases hout with
    | replayed | recovered | raised => exact ⟨[], .nothing (congrArg ReviewTables.toLedger hv)⟩
    | committed current _ found unused notRejected notAccepted writes proposals =>
      have hledger : t.toLedger = _ :=
        (congrArg ReviewTables.toLedger hv).trans (writes.ledger hevent)
      refine ⟨[⟨item, event, _⟩], ?_, hledger, fun _ => ⟨_, rfl, rfl⟩⟩
      refine Ledger.admits_single (hid ▸ hd.item (by omega)) hevent hann ?_
        (replayed_eq_none.mp unused) fun p hp' => by rw [hroot] at hp'; cases hp'
      exact fun k hk => ⟨some (MemoryProposalService.acceptKey command p), hk.symm⟩

/-- A submission leaves the memories alone. -/
theorem submit_toLedger {proposal : MemoryProposal} {key : Option String}
    {audit : Option AuditEvent} :
    ((submit proposal key audit).run env d s).2.toLedger = s.toLedger := by
  simp only [run, program, MemoryOperation.program, inMemoryStores, inMemoryProposals,
    Proc.run_bind, Proc.run_invoke]
  have hl : (s.appendProposal (proposal.submitted (d.uuid4 0)) key audit).2.toLedger =
      s.toLedger := by
    unfold appendProposal
    simp only
    split
    · split <;> rfl
    · simp
  rcases hc : s.appendProposal (proposal.submitted (d.uuid4 0)) key audit with ⟨r, t⟩
  rw [hc] at hl
  cases r <;> exact hl

/-- So does a rejection. -/
theorem reject_toLedger {command : ReviewMemoryProposalCommand} {audit : Option AuditEvent} :
    ((reject command audit).run env d s).2.toLedger = s.toLedger := by
  simp only [run, program, MemoryOperation.program, inMemoryStores, Proc.run_wrap]
  rcases MemoryProposalService.run_reject inMemoryProposals d s command audit with
    ⟨e, h⟩ | ⟨p, -, -, a, h⟩
  · rw [h]
  · rw [h]
    simp only [inMemoryProposals, saveProposalReview]
    split <;> simp

theorem decide_writes (hs : s.Chained) {tenantId workspaceId caseId : UUID}
    {status : ConflictReviewStatus} {winnerValue : Option String} {reason : String}
    {audit : Option AuditEvent} (hd : d.Fresh (2 * s.items.rows.length) s.usedIds) :
    let op := decide tenantId workspaceId caseId status winnerValue reason audit
    ∃ ws, Committed s (op.run env d s).1 (op.run env d s).2 ws := by
  intro op
  simp only [op, run, program, Proc.run_wrap]
  have hout := ConflictService.run_decide env.runtime s tenantId workspaceId caseId status
    winnerValue reason audit d
  generalize (ConflictService.decide env.runtime tenantId workspaceId caseId status winnerValue
    reason audit d).run s = out at hout
  obtain ⟨r, t⟩ := out
  simp only at hout ⊢
  cases hout with
  | raised | found => exact ⟨[], .nothing rfl⟩
  | saved _ _ _ _ ledger => exact ⟨[], .nothing ledger⟩
  | applied case _ _ listed _ outcome =>
    cases outcome with
    | raised => exact ⟨[], .nothing rfl⟩
    | resolved winner applied writes _ _ _ built outcome =>
      cases outcome with
      | replayed | raised => exact ⟨[], .nothing rfl⟩
      | committed _ _ checked ledger =>
        exact ⟨_, ConflictService.admits_resolution hs hd (List.mem_of_find?_eq_some listed) built
          checked, ledger, fun _ => ⟨_, rfl, rfl⟩⟩

/-- Every operation commits admitted writes, and none unless it reports a creation. -/
theorem run_writes (env : Deployment) (op : Operation) (hs : s.Chained)
    (hd : d.Fresh (op.drawCount s) s.usedIds) :
    ∃ ws, Committed s (op.run env d s).1 (op.run env d s).2 ws := by
  cases op with
  | memory op =>
    cases op with
    | retain => exact retain_writes hd
    | supersede => exact supersede_writes hs hd
    | submit => exact ⟨[], .nothing submit_toLedger⟩
    | accept => exact accept_writes hd
    | reject => exact ⟨[], .nothing reject_toLedger⟩
  | decide => exact decide_writes hs hd

end Operation

/-- An operation on a consistent ledger keeps every item. -/
theorem Operation.keeps_items (op : Operation) (env : Deployment) {s : InMemoryMemoryStore}
    {d : Draws} (hs : s.Chained) (hd : d.Fresh (op.drawCount s) s.usedIds) :
    ∀ i ∈ s.items.rows, i ∈ (op.run env d s).2.items.rows := by
  obtain ⟨ws, hw⟩ := op.run_writes env hs hd
  intro i hi
  rw [hw.ledger, hw.admitted.rows_commitAll]
  exact List.mem_append_left _ hi

/-- The ledger of every reachable store is consistent. -/
theorem Reachable.consistent (h : Reachable env s) : s.toLedger.Consistent := by
  induction h with
  | empty => exact Ledger.consistent_empty
  | step op d _ hd ih =>
    obtain ⟨ws, hw⟩ := op.run_writes env ih.chained hd
    rw [hw.ledger]
    exact ih.commitAll hw.admitted

end MemoryPlane
