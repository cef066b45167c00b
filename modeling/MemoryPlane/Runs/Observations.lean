import MemoryPlane.Runs.Writes
import MemoryPlane.Services.Observations

/-!
# Observations in every run

Runs of memory operations with strictly increasing creation times, mixed with reflection. Every
observation stays a picture of one value of a slot: its evidence lies in the slot, and a stale one
was overtaken by a memory outside its evidence. Observations stay consistent as long as no
reflection finds that the newest value of a slot differs from one that it recorded as current.
-/

namespace MemoryPlane

open ConflictService ReflectionService InMemoryMemoryStore

variable {env : Deployment} {s : InMemoryMemoryStore} {d : Draws}

/-- The first `n` readings of the clock come after the given times and increase. -/
def Draws.Timely (d : Draws) (n : ℕ) (times : List DateTime) : Prop :=
  (∀ i < n, ∀ x ∈ times, x < d.now i) ∧ ∀ j < n, ∀ i < j, d.now i < d.now j

instance (d : Draws) (n : ℕ) (times : List DateTime) : Decidable (d.Timely n times) := by
  unfold Draws.Timely
  infer_instance

/-- A bound on the readings of the clock that an operation takes. -/
def Operation.clockCount (s : InMemoryMemoryStore) : Operation → ℕ
  | .memory _ => 4
  | .decide .. => 2 * s.items.rows.length + 1

/-- When the stored memories were created. -/
def Ledger.times (l : Ledger) : List DateTime := l.items.rows.map fun i => i.createdAt

/-- The stores that runs reach. Reflections are made in states that meet the condition `G`. -/
inductive Observed (env : Deployment) (G : UUID → UUID → ObservationStore → Prop) :
    ObservationStore → Prop
  | empty : Observed env G .empty
  | memory {x : ObservationStore} (op : Operation) (d : Draws) (before : Observed env G x)
      (fresh : d.Fresh (op.drawCount x.toInMemoryMemoryStore) x.usedIds)
      (timely : d.Timely (op.clockCount x.toInMemoryMemoryStore) x.times) :
      Observed env G
        { x with toInMemoryMemoryStore := (op.run env d x.toInMemoryMemoryStore).2 }
  | reflect {x : ObservationStore} (t w : UUID) (actor actorType : String) (d : Draws)
      (before : Observed env G x) (admitted : G t w x) :
      Observed env G (reflect env.runtime t w actor actorType d x).2

/-- New memories were created at increasing readings of the clock. -/
def Grows (d : Draws) (n : ℕ) (s s' : InMemoryMemoryStore) : Prop :=
  ∃ news, s'.items.rows = s.items.rows ++ news ∧
    (news.map fun i => i.createdAt).Pairwise (· < ·) ∧
    ∀ i ∈ news, ∃ m < n, i.createdAt = d.now m

/-- A write that leaves the items alone grows them by nothing. -/
theorem Grows.refl {n : ℕ} {s' : InMemoryMemoryStore} (h : s'.items = s.items) :
    Grows d n s s' := ⟨[], by simp [h], by simp, by simp⟩

/-- Putting one new item grows the items by one stamped moment. -/
theorem Grows.single {n m : ℕ} {s' : InMemoryMemoryStore} {i : MemoryItem}
    (h : s'.items = s.items.put i) (hi : s.items.find i.id = none) (hm : m < n)
    (ht : i.createdAt = d.now m) : Grows d n s s' := by
  refine ⟨[i], ?_, by simp, ?_⟩
  · rw [h]
    exact Table.rows_put_of_fresh hi
  · intro j hj
    rw [List.mem_singleton.mp hj]
    exact ⟨m, hm, ht⟩

/-- Distinct creation times stay distinct. -/
theorem Grows.times {n : ℕ} {s' : InMemoryMemoryStore} (h : Grows d n s s')
    (ht : d.Timely n s.times) (hs : s.times.Nodup) : s'.times.Nodup := by
  obtain ⟨news, hrows, hinc, hclock⟩ := h
  unfold Ledger.times at hs ⊢
  rw [hrows, List.map_append]
  refine hs.append (hinc.imp fun h => h.ne) fun a ha hb => ?_
  obtain ⟨i, hi, rfl⟩ := List.mem_map.mp hb
  obtain ⟨m, hm, he⟩ := hclock i hi
  have hlt := ht.1 m hm _ ha
  rw [he] at hlt
  exact lt_irrefl _ hlt

/-- A call that writes one item adds it or nothing. -/
theorem WriteOutcome.grows {n m : ℕ} {s' : InMemoryMemoryStore} {w : Ledger.Write}
    {r : Except Exn (MemoryItem × Bool)} (h : WriteOutcome s.tables w r s'.tables)
    (hi : s.items.find w.item.id = none) (hm : m < n) (ht : w.item.createdAt = d.now m) :
    Grows d n s s' := by
  generalize hv : s'.tables = v at h
  cases h with
  | replayed | raised => exact .refl (congrArg (fun v : ReviewTables => v.items) hv)
  | committed _ _ writes _ =>
    refine .single ?_ hi hm ht
    rw [← hv] at writes
    exact writes.items

/-- A retained memory carries the second moment drawn. -/
theorem RetentionService.prepare_createdAt {privacy : PrivacyGuard} {command : RetainCommand}
    {item : MemoryItem} {event : IntegrationEvent}
    (h : prepare privacy command d = .ok (item, event)) : item.createdAt = d.now 1 := by
  unfold prepare at h
  obtain ⟨decision, -, h⟩ := Except.bind_eq_ok.mp h
  obtain ⟨i, hn, h⟩ := Except.bind_eq_ok.mp h
  cases h
  rw [MemoryItem.new_eq_ok.mp hn]

/-- A replacement carries the first moment drawn. -/
theorem RetentionService.prepareReplacement_createdAt {privacy : PrivacyGuard}
    {command : SupersedeMemoryCommand} {current item : MemoryItem} {event : IntegrationEvent}
    (h : prepareReplacement privacy command current d = .ok (item, event)) :
    item.createdAt = d.now 0 := by
  unfold prepareReplacement at h
  obtain ⟨decision, -, h⟩ := Except.bind_eq_ok.mp h
  obtain ⟨i, hn, h⟩ := Except.bind_eq_ok.mp h
  cases h
  simp [MemoryItem.replaceMetadata, MemoryItem.supersede_eq_ok.mp hn]

/-- An accepted proposal's memory carries the second moment drawn. -/
theorem MemoryProposalService.prepareAcceptance_createdAt {privacy : PrivacyGuard}
    {command : ReviewMemoryProposalCommand} {p : MemoryProposal} {item : MemoryItem}
    {event : IntegrationEvent} (h : prepareAcceptance privacy command p d = .ok (item, event)) :
    item.createdAt = d.now 1 := by
  unfold prepareAcceptance at h
  split at h
  · cases h
  split at h
  · cases h
  obtain ⟨_, -, h⟩ := Except.bind_eq_ok.mp h
  exact RetentionService.prepare_createdAt h

namespace ConflictService

variable {case : ConflictCase}

/-- A tombstone carries the moment of its writing. -/
theorem tombstone_createdAt {loser : MemoryItem} {x : MemoryItem × IntegrationEvent × ℕ}
    (h : tombstone case d loser = .ok x) : x.1.createdAt = d.now 0 := by
  unfold tombstone at h
  obtain ⟨i, hi, h⟩ := Except.bind_eq_ok.mp h
  cases h
  simp [MemoryItem.replaceMetadata, MemoryItem.supersede_eq_ok.mp hi]

/-- A grafted revision carries the moment of its writing. -/
theorem graft_createdAt {source parent : MemoryItem} {x : MemoryItem × IntegrationEvent × ℕ}
    (h : graft case d source parent = .ok x) : x.1.createdAt = d.now 0 := by
  unfold graft at h
  obtain ⟨i, hi, h⟩ := Except.bind_eq_ok.mp h
  cases h
  simp [MemoryItem.replaceProvenance, MemoryItem.supersede_eq_ok.mp hi]

/-- The times of successive writes. -/
def writeTimes (d : Draws) (n : ℕ) : List DateTime := (List.range n).map fun k => d.now (2 * k)

/-- Each written item uses up two moments, the first being its own. -/
theorem writeTimes_succ (d : Draws) (n : ℕ) :
    writeTimes d (n + 1) = d.now 0 :: writeTimes (d.drop 2) n := by
  unfold writeTimes
  rw [List.range_succ_eq_map, List.map_cons, List.map_map]
  refine congrArg _ (List.map_congr_left fun k _ => ?_)
  simp only [Draws.drop, Function.comp]
  congr 1
  omega

/-- The tombstones are stamped in the order they are written. -/
theorem tombstones_times : ∀ {losers : List MemoryItem} {d : Draws}
    {xs : List (MemoryItem × IntegrationEvent × ℕ)}, tombstones case d losers = .ok xs →
      (xs.map fun x => x.1.createdAt) = writeTimes d xs.length
  | [], d, xs, h => by
    cases h
    rfl
  | loser :: rest, d, xs, h => by
    obtain ⟨x, hx, h⟩ := Except.bind_eq_ok.mp h
    obtain ⟨ys, hys, h⟩ := Except.bind_eq_ok.mp h
    cases h
    rw [List.map_cons, List.length_cons, writeTimes_succ, tombstone_createdAt hx,
      tombstones_times hys]

/-- The items of a resolution are stamped in the order they are written. -/
theorem ResolutionShape.times {e : Evidence} {applied : UUID}
    {xs : List (MemoryItem × IntegrationEvent × ℕ)} (h : ResolutionShape case d e applied xs) :
    (xs.map fun x => x.1.createdAt) = writeTimes d xs.length := by
  cases h with
  | kept _ _ _ stones => exact tombstones_times stones
  | grafted source parent x ys _ _ _ graft stones =>
    rw [List.map_cons, List.length_cons, writeTimes_succ, graft_createdAt graft,
      tombstones_times stones]

variable {rt : Runtime} {t w applied : UUID} {winner : ConflictCandidate}
  {writes : List (MemoryItem × IntegrationEvent × ℕ)} {s' : InMemoryMemoryStore}

/-- The writes of a resolution are created one after the other. -/
theorem ResolutionShape.grows (ht : d.Timely (2 * s.items.rows.length + 1) s.times)
    (listed : case ∈ listCases rt s t w true)
    (shape : ResolutionShape case (d.tick 1) (storedEvidence s.toLedger case winner) applied
      writes)
    (admitted : s.toLedger.Admits (ledgerWrites writes))
    (ledger : s'.toLedger = s.toLedger.commitAll (ledgerWrites writes)) :
    Grows d (2 * s.items.rows.length + 1) s s' := by
  have hlen := shape.length_le listed
  have htimes : ((writes.map Prod.fst).map fun i => i.createdAt) =
      writeTimes (d.tick 1) writes.length := by
    rw [List.map_map]
    exact shape.times
  refine ⟨writes.map Prod.fst, ?_, ?_, fun i hi => ?_⟩
  · rw [ledger, admitted.rows_commitAll, ledgerWrites, List.map_map]
    rfl
  · rw [htimes, writeTimes, List.pairwise_map]
    refine List.pairwise_lt_range.imp_of_mem fun {a b} ha hb hab => ?_
    rw [List.mem_range] at ha hb
    exact ht.2 (1 + 2 * b) (by omega) (1 + 2 * a) (by omega)
  · have hmem : i.createdAt ∈ writeTimes (d.tick 1) writes.length := by
      rw [← htimes]
      exact List.mem_map_of_mem hi
    obtain ⟨k, hk, he⟩ := List.mem_map.mp hmem
    rw [List.mem_range] at hk
    exact ⟨1 + 2 * k, by omega, he.symm⟩

end ConflictService

namespace Operation

/-- Whatever the operation, its new items carry moments it drew. -/
theorem memory_grows (op : MemoryOperation) (hd : d.Fresh 2 s.usedIds) :
    Grows d 4 s ((Operation.memory op).run env d s).2 := by
  cases op with
  | retain command audit =>
    simp only [run, program, MemoryOperation.program, inMemoryStores, Proc.run_wrap]
    rcases RetentionService.run_retain env.privacy inMemoryRetention d s command audit with
      ⟨e, -, h⟩ | ⟨item, event, hp, a, h⟩
    · rw [h]
      exact .refl rfl
    · rw [h]
      refine WriteOutcome.grows (retain_outcome s item event command.idempotencyKey a) (m := 1) ?_
        (by omega) (RetentionService.prepare_createdAt hp)
      exact (RetentionService.prepare_eq_ok hp).1 ▸ hd.item (by omega)
  | supersede command audit =>
    simp only [run, program, MemoryOperation.program, inMemoryStores, Proc.run_wrap]
    rcases RetentionService.run_supersede env.privacy inMemoryRetention d s command audit with
      ⟨e, h⟩ | ⟨current, item, event, -, hp, a, h⟩
    · rw [h]
      exact .refl rfl
    · rw [h]
      refine WriteOutcome.grows (supersedeIfCurrent_outcome s item event command.expectedRevision
        command.idempotencyKey a).1 (m := 0) ?_ (by omega)
        (RetentionService.prepareReplacement_createdAt hp)
      exact (RetentionService.prepareReplacement_eq_ok hp).1 ▸ hd.item (by omega)
  | submit => exact .refl (congrArg Ledger.items submit_toLedger)
  | accept command audit =>
    simp only [run, program, MemoryOperation.program, inMemoryStores, Proc.run_wrap]
    rcases MemoryProposalService.run_accept env.privacy inMemoryProposals d s command audit with
      ⟨e, h⟩ | ⟨p, item, event, -, hp, a, h⟩
    · rw [h]
      exact .refl rfl
    · rw [h]
      have hout := acceptProposalWithMemory_outcome s p item event command.reviewer command.reason
        (MemoryProposalService.acceptKey command p) a (d.now 3)
      simp only [inMemoryProposals]
      generalize (s.acceptProposalWithMemory p item event command.reviewer command.reason
        (MemoryProposalService.acceptKey command p) a (d.now 3)) = out at hout
      obtain ⟨r, t⟩ := out
      simp only at hout ⊢
      generalize hv : t.tables = v at hout
      cases hout with
      | replayed | recovered | raised =>
        exact .refl (congrArg (fun v : ReviewTables => v.items) hv)
      | committed current _ found unused notRejected notAccepted writes proposals =>
        rw [← hv] at writes
        refine .single writes.items ?_ (m := 1) (by omega)
          (MemoryProposalService.prepareAcceptance_createdAt hp)
        exact (MemoryProposalService.prepareAcceptance_eq_ok hp).1 ▸ hd.item (by omega)
  | reject => exact .refl (congrArg Ledger.items reject_toLedger)

/-- New memories of an operation are created at its readings of the clock, later ones last. -/
theorem grows (op : Operation) (hs : s.Chained) (hd : d.Fresh (op.drawCount s) s.usedIds)
    (ht : d.Timely (op.clockCount s) s.times) :
    Grows d (op.clockCount s) s (op.run env d s).2 := by
  cases op with
  | memory op => exact memory_grows op hd
  | decide t w caseId status winnerValue reason audit =>
    simp only [run, program, Proc.run_wrap]
    have hout := ConflictService.run_decide env.runtime s t w caseId status winnerValue reason
      audit d
    generalize (ConflictService.decide env.runtime t w caseId status winnerValue reason
      audit d).run s = out at hout
    obtain ⟨r, s'⟩ := out
    simp only at hout ⊢
    cases hout with
    | raised | found => exact .refl rfl
    | saved _ _ _ _ ledger => exact .refl (congrArg Ledger.items ledger)
    | applied case _ _ listed _ outcome =>
      cases outcome with
      | raised => exact .refl rfl
      | resolved winner applied writes _ _ _ built outcome =>
        cases outcome with
        | replayed | raised => exact .refl rfl
        | committed _ _ checked ledger =>
          have hadm := admits_resolution hs hd (List.mem_of_find?_eq_some listed) built checked
          exact (resolutionWrites_shape built).grows ht (List.mem_of_find?_eq_some listed) hadm
            ledger

end Operation

/-- The belief slot of an observation: that of its summary. -/
def Observation.slot (rt : Runtime) (o : Observation) : BeliefSlot :=
  extractBeliefSlot rt.unicode o.summary

/-- What an observation says about the memories. -/
structure Pictures (rt : Runtime) (l : Ledger) (o : Observation) : Prop where
  /-- There is evidence. -/
  nonempty : o.evidenceIds ≠ []
  /-- The evidence is memories of the slot with the value. -/
  evidence : ∀ id ∈ o.evidenceIds, ∃ i ∈ l.items.rows, i.id = id ∧
    InSlot rt o.tenantId o.workspaceId (o.slot rt).key i ∧
      (slotOf rt i).value = (o.slot rt).value
  /-- A stale value was overtaken by another memory of the slot. -/
  overtaken : o.stale = true → ∃ i ∈ l.items.rows,
    InSlot rt o.tenantId o.workspaceId (o.slot rt).key i ∧ i.id ∉ o.evidenceIds ∧
      ∀ j ∈ l.items.rows, j.id ∈ o.evidenceIds → j.createdAt ≤ i.createdAt

variable {rt : Runtime} {l l' : Ledger} {t w : UUID} {k v : String} {latest newest : MemoryItem}
  {b : Belief} {o o' : Observation} {x : ObservationStore}

/-- More items never spoil what an observation was built from. -/
theorem Pictures.mono (h : Pictures rt l o) (hitems : ∀ i ∈ l.items.rows, i ∈ l'.items.rows) :
    Pictures rt l' o where
  nonempty := h.nonempty
  evidence id hid := by
    obtain ⟨i, hi, hrest⟩ := h.evidence id hid
    exact ⟨i, hitems i hi, hrest⟩
  overtaken hstale := by
    obtain ⟨i, hi, hin, hid, hle⟩ := h.overtaken hstale
    refine ⟨i, hitems i hi, hin, hid, fun j hj hjid => ?_⟩
    obtain ⟨j', hj', hj'id, -⟩ := h.evidence j.id hjid
    obtain rfl : j' = j := l'.items.eq_of_key_eq (hitems j' hj') hj hj'id
    exact hle j' hj' hjid

/-- A built observation sits in the slot it was judged for. -/
theorem ReflectionService.Built.slot_eq (h : Built rt t w b o)
    (hj : Judged rt l t w k v latest newest b) : (o.slot rt).key = k ∧ (o.slot rt).value = v := by
  unfold Observation.slot
  rw [h.summary]
  exact hj.slot_summary

/-- The evidence is exactly the items of the slot with the judged value. -/
theorem ReflectionService.Built.mem_evidence (h : Built rt t w b o)
    (hj : Judged rt l t w k v latest newest b) {i : MemoryItem} (hi : i ∈ l.items.rows) :
    i.id ∈ o.evidenceIds ↔ InSlot rt t w k i ∧ (slotOf rt i).value = v := by
  rw [h.evidence, hj.evidence, List.mem_map]
  constructor
  · rintro ⟨j, hj', hid⟩
    obtain ⟨hjm, hin, hv⟩ := mem_valueItems.mp hj'
    obtain rfl : j = i := l.items.eq_of_key_eq hjm hi hid
    exact ⟨hin, hv⟩
  · rintro ⟨hin, hv⟩
    exact ⟨i, mem_valueItems.mpr ⟨hi, hin, hv⟩, rfl⟩

/-- An observation that reflection builds shows what the memories say. -/
theorem ReflectionService.Built.pictures (h : Built rt t w b o)
    (hj : Judged rt l t w k v latest newest b) : Pictures rt l o := by
  obtain ⟨hkey, hvalue⟩ := h.slot_eq hj
  obtain ⟨hnm, hnin, hnv⟩ := hj.newest_mem
  have hids : o.evidenceIds = (valueItems rt l t w k v).map fun i => i.id :=
    h.evidence.trans hj.evidence
  refine ⟨?_, fun id hid => ?_, fun hstale => ?_⟩
  · rw [hids]
    exact List.ne_nil_of_mem (List.mem_map_of_mem (List.argmax_mem hj.lastOfValue))
  · rw [hids] at hid
    obtain ⟨i, hi, rfl⟩ := List.mem_map.mp hid
    obtain ⟨him, hin, hv⟩ := mem_valueItems.mp hi
    refine ⟨i, him, rfl, ?_, hv.trans hvalue.symm⟩
    rw [h.tenant, h.workspace, hkey]
    exact hin
  · obtain ⟨hlm, hlin, hle⟩ := newestIn_eq_some hj.last
    refine ⟨latest, hlm, ?_, fun hid => ?_, fun j hjm hjid => ?_⟩
    · rw [h.tenant, h.workspace, hkey]
      exact hlin
    · exact hj.stale_iff.mp (h.stale.symm.trans hstale) ((h.mem_evidence hj hlm).mp hid).2
    · exact hle j hjm ((h.mem_evidence hj hjm).mp hjid).1

/-- What holds in every run: the ledger is consistent, memories were created at different times,
and the observations show what the memories say. -/
structure ObservationStore.Sound (rt : Runtime) (x : ObservationStore) : Prop where
  consistent : x.toLedger.Consistent
  times : x.times.Nodup
  pictures : ∀ o ∈ x.observations.rows, Pictures rt x.toLedger o

/-- A reflection keeps every stored observation sound. -/
theorem ObservationStore.Sound.reflect (h : x.Sound rt) (t w : UUID) (actor actorType : String)
    (d : Draws) : (reflect rt t w actor actorType d x).2.Sound rt := by
  have hledger : (ReflectionService.reflect rt t w actor actorType d x).2.toLedger = x.toLedger :=
    createAll_toLedger
  refine ⟨by rw [hledger]; exact h.consistent, by rw [hledger]; exact h.times, fun o ho => ?_⟩
  rw [hledger]
  rcases reflect_adds ho with hold | ⟨-, k, v, latest, newest, b, hj, hb, -⟩
  · exact h.pictures o hold
  · exact hb.pictures hj

/-- A memory operation under fresh draws keeps every stored observation sound. -/
theorem ObservationStore.Sound.memory (h : x.Sound env.runtime) (op : Operation)
    (hd : d.Fresh (op.drawCount x.toInMemoryMemoryStore) x.usedIds)
    (ht : d.Timely (op.clockCount x.toInMemoryMemoryStore) x.times) :
    ObservationStore.Sound env.runtime
      { x with toInMemoryMemoryStore := (op.run env d x.toInMemoryMemoryStore).2 } where
  consistent := by
    obtain ⟨ws, hw⟩ := op.run_writes env h.consistent.chained hd
    change (op.run env d x.toInMemoryMemoryStore).2.toLedger.Consistent
    rw [hw.ledger]
    exact h.consistent.commitAll hw.admitted
  times := (op.grows h.consistent.chained hd ht).times ht h.times
  pictures o ho := (h.pictures o ho).mono (op.keeps_items env h.consistent.chained hd)

/-- Every observation of an observed store is sound. -/
theorem Observed.sound {G : UUID → UUID → ObservationStore → Prop} (h : Observed env G x) :
    x.Sound env.runtime := by
  induction h with
  | empty => exact ⟨Ledger.consistent_empty, List.nodup_nil, by simp [ObservationStore.empty]⟩
  | memory op d _ hd ht ih => exact ih.memory op hd ht
  | reflect t w actor actorType d _ _ ih => exact ih.reflect t w actor actorType d

/-- An observation of the workspace. -/
def ObservationStore.Has (x : ObservationStore) (t w : UUID) (o : Observation) : Prop :=
  o ∈ x.observations.rows ∧ o.tenantId = t ∧ o.workspaceId = w

/-- No slot has current observations of two values, and no evidence is recorded both as stale and
as current. -/
structure ObservationStore.Agree (rt : Runtime) (t w : UUID) (x : ObservationStore) : Prop where
  values : ∀ o o', x.Has t w o → x.Has t w o' → o.stale = false → o'.stale = false →
    (o.slot rt).key = (o'.slot rt).key → (o.slot rt).value = (o'.slot rt).value
  evidence : ∀ o o', x.Has t w o → x.Has t w o' →
    (∀ id, id ∈ o.evidenceIds ↔ id ∈ o'.evidenceIds) → o.stale = o'.stale

/-- The newest memory of every slot has the values that are recorded as current for the slot. -/
def ValuesStay (rt : Runtime) (t w : UUID) (x : ObservationStore) : Prop :=
  ∀ o, x.Has t w o → o.stale = false → ∀ latest,
    newestIn rt x.toLedger t w (o.slot rt).key = some latest →
      (slotOf rt latest).value = (o.slot rt).value

instance (rt : Runtime) (t w : UUID) (x : ObservationStore) : Decidable (ValuesStay rt t w x) :=
  decidable_of_iff (∀ o ∈ x.observations.rows, o.tenantId = t ∧ o.workspaceId = w →
    o.stale = false → ∀ latest ∈ newestIn rt x.toLedger t w (o.slot rt).key,
      (slotOf rt latest).value = (o.slot rt).value)
    ⟨fun h o ho => h o ho.1 ho.2, fun h o ho hb => h o ⟨ho, hb⟩⟩

section Agreement

variable {k' v' : String} {latest' newest' : MemoryItem} {b' : Belief}

/-- Observations with common evidence are about one value of one slot. -/
theorem ReflectionService.Built.same_slot (h : Built rt t w b o)
    (hj : Judged rt l t w k v latest newest b) (hp : Pictures rt l o')
    (hids : ∀ id, id ∈ o.evidenceIds ↔ id ∈ o'.evidenceIds) :
    (o'.slot rt).key = k ∧ (o'.slot rt).value = v := by
  obtain ⟨id, hid⟩ := List.exists_mem_of_ne_nil _ hp.nonempty
  obtain ⟨i, hi, rfl, hin, hv⟩ := hp.evidence id hid
  obtain ⟨hin', hv'⟩ := (h.mem_evidence hj hi).mp ((hids i.id).mpr hid)
  exact ⟨hin.key.symm.trans hin'.key, hv.symm.trans hv'⟩

/-- A new observation has the staleness of a stored one with the same evidence. -/
theorem ReflectionService.Built.stale_eq (h : Built rt t w b o)
    (hj : Judged rt l t w k v latest newest b) (hp : Pictures rt l o') (htimes : l.times.Nodup)
    (ht : o'.tenantId = t) (hw : o'.workspaceId = w)
    (hstay : o'.stale = false → (slotOf rt latest).value = (o'.slot rt).value)
    (hids : ∀ id, id ∈ o.evidenceIds ↔ id ∈ o'.evidenceIds) : o.stale = o'.stale := by
  obtain ⟨hkey, hvalue⟩ := h.same_slot hj hp hids
  obtain ⟨hlm, hlin, hle⟩ := newestIn_eq_some hj.last
  rw [h.stale]
  cases hs' : o'.stale with
  | false =>
    rw [← Bool.not_eq_true, hj.stale_iff, not_not, hstay hs', hvalue]
  | true =>
    by_contra hs
    obtain ⟨i, hi, hin, hid, hover⟩ := hp.overtaken hs'
    rw [ht, hw, hkey] at hin
    have hv : (slotOf rt latest).value = v := by
      by_contra hv
      exact hs (hj.stale_iff.mpr hv)
    have hmem : latest.id ∈ o'.evidenceIds :=
      (hids latest.id).mp ((h.mem_evidence hj hlm).mpr ⟨hlin, hv⟩)
    -- both were created last, and no two memories were created together
    have hsame : i.createdAt = latest.createdAt :=
      le_antisymm (hle i hi hin) (hover latest hlm hmem)
    obtain rfl : i = latest := List.inj_on_of_nodup_map htimes hi hlm hsame
    exact hid hmem

/-- Two new observations with the same evidence agree. -/
theorem ReflectionService.Built.stale_eq_new (h : Built rt t w b o)
    (hj : Judged rt l t w k v latest newest b) (h' : Built rt t w b' o')
    (hj' : Judged rt l t w k' v' latest' newest' b')
    (hids : ∀ id, id ∈ o.evidenceIds ↔ id ∈ o'.evidenceIds) : o.stale = o'.stale := by
  obtain ⟨hkey, hvalue⟩ := h.same_slot hj (h'.pictures hj') hids
  obtain ⟨hkey', hvalue'⟩ := h'.slot_eq hj'
  obtain rfl : k' = k := hkey'.symm.trans hkey
  obtain rfl : v' = v := hvalue'.symm.trans hvalue
  obtain rfl : latest' = latest := by simpa using hj'.last.symm.trans hj.last
  rw [h.stale, h'.stale, Bool.eq_iff_iff, hj.stale_iff, hj'.stale_iff]

/-- A new current observation has the value of the newest memory. -/
theorem ReflectionService.Built.value_eq (h : Built rt t w b o)
    (hj : Judged rt l t w k v latest newest b) (hs : o.stale = false) :
    (slotOf rt latest).value = v := by
  by_contra hv
  have htrue := hj.stale_iff.mpr hv
  rw [← h.stale, hs] at htrue
  cases htrue

/-- A reflection that finds the recorded values still newest keeps agreement. -/
theorem ObservationStore.Agree.reflect (hA : x.Agree rt t w) (hs : x.Sound rt)
    (hstay : ValuesStay rt t w x) (actor actorType : String) (d : Draws) :
    (reflect rt t w actor actorType d x).2.Agree rt t w := by
  constructor
  · rintro o o' ⟨ho, ht, hw⟩ ⟨ho', ht', hw'⟩ hf hf' hkey
    rcases reflect_adds ho with hold | ⟨-, k, v, latest, newest, b, hj, hb, -⟩ <;>
      rcases reflect_adds ho' with hold' | ⟨-, k', v', latest', newest', b', hj', hb', -⟩
    · exact hA.values o o' ⟨hold, ht, hw⟩ ⟨hold', ht', hw'⟩ hf hf' hkey
    · obtain ⟨hk', hv'⟩ := hb'.slot_eq hj'
      rw [hv', ← hb'.value_eq hj' hf']
      exact (hstay o ⟨hold, ht, hw⟩ hf latest' (by rw [hkey, hk']; exact hj'.last)).symm
    · obtain ⟨hk, hv⟩ := hb.slot_eq hj
      rw [hv, ← hb.value_eq hj hf]
      exact hstay o' ⟨hold', ht', hw'⟩ hf' latest (by rw [← hkey, hk]; exact hj.last)
    · obtain ⟨hk, hv⟩ := hb.slot_eq hj
      obtain ⟨hk', hv'⟩ := hb'.slot_eq hj'
      obtain rfl : k = k' := hk.symm.trans (hkey.trans hk')
      obtain rfl : latest = latest' := by simpa using hj.last.symm.trans hj'.last
      rw [hv, hv', ← hb.value_eq hj hf, ← hb'.value_eq hj' hf']
  · rintro o o' ⟨ho, ht, hw⟩ ⟨ho', ht', hw'⟩ hids
    rcases reflect_adds ho with hold | ⟨-, k, v, latest, newest, b, hj, hb, -⟩ <;>
      rcases reflect_adds ho' with hold' | ⟨-, k', v', latest', newest', b', hj', hb', -⟩
    · exact hA.evidence o o' ⟨hold, ht, hw⟩ ⟨hold', ht', hw'⟩ hids
    · have hp := hs.pictures o hold
      have hsym := fun id => (hids id).symm
      obtain ⟨hk, -⟩ := hb'.same_slot hj' hp hsym
      exact (hb'.stale_eq hj' hp hs.times ht hw
        (fun hf => hstay o ⟨hold, ht, hw⟩ hf latest' (by rw [hk]; exact hj'.last)) hsym).symm
    · have hp := hs.pictures o' hold'
      obtain ⟨hk, -⟩ := hb.same_slot hj hp hids
      exact hb.stale_eq hj hp hs.times ht' hw'
        (fun hf => hstay o' ⟨hold', ht', hw'⟩ hf latest (by rw [hk]; exact hj.last)) hids
    · exact hb.stale_eq_new hj hb' hj' hids

/-- Reflection on another workspace changes nothing in this one. -/
theorem reflect_has_of_ne {t' w' : UUID} {actor actorType : String} (hne : ¬ (t' = t ∧ w' = w)) :
    (reflect rt t' w' actor actorType d x).2.Has t w o ↔ x.Has t w o := by
  constructor
  · rintro ⟨ho, ht, hw⟩
    rcases reflect_adds ho with hold | ⟨-, k, v, latest, newest, b, -, hb, -⟩
    · exact ⟨hold, ht, hw⟩
    · exact absurd ⟨hb.tenant.symm.trans ht, hb.workspace.symm.trans hw⟩ hne
  · rintro ⟨ho, ht, hw⟩
    exact ⟨createAll_keeps ho, ht, hw⟩

/-- Runs whose reflections find the recorded values still newest keep agreement. -/
theorem Observed.agree (h : Observed env (ValuesStay env.runtime) x) (t w : UUID) :
    x.Agree env.runtime t w := by
  induction h with
  | empty => constructor <;> simp [ObservationStore.Has, ObservationStore.empty]
  | memory op d _ _ _ ih => exact ⟨ih.values, ih.evidence⟩
  | @reflect x t' w' actor actorType d before hstay ih =>
    by_cases he : t' = t ∧ w' = w
    · obtain ⟨rfl, rfl⟩ := he
      exact ih.reflect before.sound hstay actor actorType d
    · constructor
      · intro o o' ho ho'
        exact ih.values o o' ((reflect_has_of_ne he).mp ho) ((reflect_has_of_ne he).mp ho')
      · intro o o' ho ho'
        exact ih.evidence o o' ((reflect_has_of_ne he).mp ho) ((reflect_has_of_ne he).mp ho')

/-- A reflection that returns and does not find them newest breaks agreement. -/
theorem valuesStay_of_agree (hs : x.Sound rt) (hnames : NamesDistinct rt t w x)
    {actor actorType : String} {created : List Observation}
    (hrun : (reflect rt t w actor actorType d x).1 = .ok created)
    (hA : (reflect rt t w actor actorType d x).2.Agree rt t w) : ValuesStay rt t w x := by
  rintro o ⟨ho, ht, hw⟩ hf latest hlatest
  by_contra hne
  obtain ⟨hlm, hlin, -⟩ := newestIn_eq_some hlatest
  have hp := hs.pictures o ho
  obtain ⟨id, hid⟩ := List.exists_mem_of_ne_nil _ hp.nonempty
  obtain ⟨i, hi, -, hin, hv⟩ := hp.evidence id hid
  rw [ht, hw] at hin
  have hlen : 2 ≤ (slotItems rt x.toLedger t w (o.slot rt).key).length := by
    refine List.two_le_length_of_ne (mem_slotItems.mpr ⟨hi, hin⟩)
      (mem_slotItems.mpr ⟨hlm, hlin⟩) fun he => hne ?_
    rw [← he, hv]
  have hslot : slotOf rt latest = extractBeliefSlot rt.unicode latest.text := by
    unfold slotOf
    rfl
  have hconflict : ∀ o' ∈ (reflect rt t w actor actorType d x).2.observations.rows,
      o'.tenantId = t → o'.workspaceId = w → o'.stale = false → o'.summary = latest.text →
        False := by
    intro o' ho' ht' hw' hf' hsum
    have hslot' : o'.slot rt = slotOf rt latest := by
      rw [hslot, Observation.slot, hsum]
    refine hne ?_
    rw [← hslot']
    refine hA.values o' o ⟨ho', ht', hw'⟩ ⟨createAll_keeps ho, ht, hw⟩ hf' hf ?_
    rw [hslot']
    exact hlin.key
  by_cases hdue : currentKey rt x.toLedger t w (o.slot rt).key latest ∈ existingKeys t w x
  · obtain ⟨o', ho', ht', hw', hk⟩ := mem_existingKeys.mp hdue
    obtain ⟨hsum, -, hf'⟩ := observationKey_inj hk
    exact hconflict o' (createAll_keeps ho') ht' hw' hf' hsum
  · obtain ⟨o', ho', -, ht', hw', hf', hsum⟩ := reflect_current hnames hrun hlen hlatest hdue
    exact hconflict o' ho' ht' hw' hf' hsum

end Agreement

/-- In every run whose reflections find the recorded values still newest the observations agree,
and any other reflection of a run that returns leaves them in disagreement. -/
theorem observations_agree_iff (env : Deployment) :
    (∀ x, Observed env (ValuesStay env.runtime) x → ∀ t w, x.Agree env.runtime t w) ∧
    ∀ x, Observed env (fun _ _ _ => True) x → ∀ t w actor actorType d created,
      NamesDistinct env.runtime t w x →
        (reflect env.runtime t w actor actorType d x).1 = .ok created →
          ¬ ValuesStay env.runtime t w x →
            ¬ (reflect env.runtime t w actor actorType d x).2.Agree env.runtime t w :=
  ⟨fun _ h t w => h.agree t w, fun _ h _ _ _ _ _ _ hnames hrun hstay hA =>
    hstay (valuesStay_of_agree h.sound hnames hrun hA)⟩

/-- A deployment for small runs that tells names apart by their lengths. -/
def lengthDeployment : Deployment where
  runtime :=
    { (plainDeployment (UUID.ofNat 0)).runtime with
      uuid5 := fun _ name => UUID.ofNat name.utf8ByteSize }
  privacy := { enabled := false }

/-- Retain a plain workspace memory. -/
def retainText (base : ℕ) (text : String) (x : ObservationStore) : ObservationStore :=
  { x with toInMemoryMemoryStore := ((Operation.retain (plainRetain text .workspace none) none).run
      lengthDeployment (drawsFrom base) x.toInMemoryMemoryStore).2 }

/-- Reflect on the workspace of the plain memories. -/
def reflectAt (base : ℕ) (x : ObservationStore) :
    Except Exn (List Observation) × ObservationStore :=
  reflect lengthDeployment.runtime (UUID.ofNat 1) (UUID.ofNat 2) "maintenance" "system"
    (drawsFrom base) x

/-- Alice's and then Bob's ownership were retained, and reflected on. -/
def ownersReflected : ObservationStore :=
  (reflectAt 30 (retainText 20 "Bob owns the vault."
    (retainText 10 "Alice owns the vault." .empty))).2

/-- Alice owns the vault again. -/
def ownersReturned : ObservationStore := retainText 40 "Alice owns the vault." ownersReflected

/-- The example's reflected store is reached under steady values. -/
theorem ownersReflected_observed :
    Observed lengthDeployment (ValuesStay lengthDeployment.runtime) ownersReflected :=
  .reflect _ _ _ _ _ (.memory _ _ (.memory _ _ .empty (by decide +kernel) (by decide +kernel))
    (by decide +kernel) (by decide +kernel)) (by decide +kernel)

/-- A run under a condition is a run. -/
theorem Observed.weaken {G : UUID → UUID → ObservationStore → Prop} (h : Observed env G x) :
    Observed env (fun _ _ _ => True) x := by
  induction h with
  | empty => exact .empty
  | memory op d _ hd ht ih => exact .memory op d ih hd ht
  | reflect t w actor actorType d _ _ ih => exact .reflect t w actor actorType d ih trivial

/-- The example's returned store is reached by its operations. -/
theorem ownersReturned_observed : Observed lengthDeployment (fun _ _ _ => True) ownersReturned :=
  .memory _ _ ownersReflected_observed.weaken (by decide +kernel) (by decide +kernel)

/-- The observations agree after the first reflection and not after the next one. -/
theorem observations_agree_iff_example :
    ownersReflected.Agree lengthDeployment.runtime (UUID.ofNat 1) (UUID.ofNat 2) ∧
      ¬ (reflectAt 50 ownersReturned).2.Agree lengthDeployment.runtime (UUID.ofNat 1)
        (UUID.ofNat 2) := by
  obtain ⟨created, hrun⟩ := Except.exists_of_isOk (x := (reflectAt 50 ownersReturned).1)
    (by decide +kernel)
  exact ⟨(observations_agree_iff lengthDeployment).1 _ ownersReflected_observed _ _,
    (observations_agree_iff lengthDeployment).2 _ ownersReturned_observed _ _ _ _ _ created
      (by decide +kernel) hrun (by decide +kernel)⟩

/-- When Alice owns the vault again, two values are recorded as current, and the evidence for Bob
is recorded both as current and as stale. -/
theorem returned_owner_disagrees :
    Observed lengthDeployment (fun _ _ _ => True) ownersReturned ∧
      ¬ (reflectAt 50 ownersReturned).2.Agree lengthDeployment.runtime (UUID.ofNat 1)
        (UUID.ofNat 2) := by
  refine ⟨ownersReturned_observed, fun h => ?_⟩
  have htwo : ∃ o ∈ (reflectAt 50 ownersReturned).2.observations.rows,
      ∃ o' ∈ (reflectAt 50 ownersReturned).2.observations.rows,
        (o.tenantId = UUID.ofNat 1 ∧ o.workspaceId = UUID.ofNat 2) ∧
        (o'.tenantId = UUID.ofNat 1 ∧ o'.workspaceId = UUID.ofNat 2) ∧
        o.evidenceIds = o'.evidenceIds ∧ o.stale ≠ o'.stale := by decide +kernel
  obtain ⟨o, ho, o', ho', hb, hb', hids, hstale⟩ := htwo
  exact hstale (h.evidence o o' ⟨ho, hb⟩ ⟨ho', hb'⟩ fun id => by rw [hids])

end MemoryPlane
