import MemoryPlane.Runs.Observations
import MemoryPlane.Runs.Resolutions

/-!
# Reflection and the current memories

Reflection takes the newest memory of a slot for its current value, whether or not that memory was
archived or replaced. Recall and decisions go by the recallable heads. The two agree on a slot
exactly when the newest memory has the value of some head, or nothing is left to record. After a
decision that is so exactly when its last write is the winner's, or it wrote nothing and the
winner's memory is the newest.
-/

namespace MemoryPlane

open ConflictService ReflectionService

variable {env : Deployment} {rt : Runtime} {x : ObservationStore} {t w : UUID} {k v : String}
  {actor actorType : String} {d : Draws} {created : List Observation}

/-- A recallable semantic head of the slot. -/
structure SlotHead (rt : Runtime) (l : Ledger) (t w : UUID) (k : String) (i : MemoryItem) :
    Prop where
  stored : i ∈ l.items.rows
  slot : InSlot rt t w k i
  head : l.isRecallableHead t i.id = true

/-- A run from `x` to `y` created the observation, as current, for the slot. -/
structure CreatedCurrent (rt : Runtime) (k : String) (x y : ObservationStore) (o : Observation) :
    Prop where
  stored : o ∈ y.observations.rows
  new : x.observations.find o.id = none
  current : o.stale = false
  slot : (o.slot rt).key = k

/-- The newest memory of the slot has a value in `Q`, unless it is the only memory of the slot or
its observation was recorded. -/
def NewestIn (rt : Runtime) (x : ObservationStore) (t w : UUID) (k : String) (Q : String → Prop) :
    Prop :=
  ∀ latest, newestIn rt x.toLedger t w k = some latest →
    2 ≤ (slotItems rt x.toLedger t w k).length →
      currentKey rt x.toLedger t w k latest ∉ existingKeys t w x → Q (slotOf rt latest).value

/-- What reflection creates as current for a slot has the value of the newest memory. -/
theorem created_of_newestIn {Q : String → Prop} (h : NewestIn rt x t w k Q) {o : Observation}
    (ho : CreatedCurrent rt k x (reflect rt t w actor actorType d x).2 o) :
    Q (o.slot rt).value := by
  rcases reflect_adds ho.stored with hold | ⟨-, k', v, latest, newest, b, hj, hb, hdue⟩
  · exact absurd rfl (Table.find_eq_none.mp ho.new o hold)
  · obtain ⟨hk, hv⟩ := hb.slot_eq hj
    obtain rfl : k' = k := hk.symm.trans ho.slot
    rw [hv, ← hb.value_eq hj ho.current]
    refine h latest hj.last hj.repeated ?_
    rw [← hj.key_eq (hb.stale.symm.trans ho.current)]
    exact hdue

/-- A run that returns creates it. -/
theorem newestIn_of_created {Q : String → Prop} (hnames : NamesDistinct rt t w x)
    (hrun : (reflect rt t w actor actorType d x).1 = .ok created)
    (h : ∀ o, CreatedCurrent rt k x (reflect rt t w actor actorType d x).2 o →
      Q (o.slot rt).value) : NewestIn rt x t w k Q := by
  intro latest hlatest hlen hdue
  obtain ⟨o, ho, hnew, -, -, hf, hsum⟩ := reflect_current hnames hrun hlen hlatest hdue
  have hslot : o.slot rt = slotOf rt latest := by
    unfold Observation.slot slotOf
    rw [hsum]
  rw [← hslot]
  refine h o ⟨ho, hnew, hf, ?_⟩
  rw [hslot]
  exact (newestIn_eq_some hlatest).2.1.key

/-- The observations that a run creates as current for a slot with heads have values of heads. -/
def AgreesWithHeads (rt : Runtime) (t w : UUID) (k : String) (x y : ObservationStore) : Prop :=
  (∃ i, SlotHead rt x.toLedger t w k i) → ∀ o, CreatedCurrent rt k x y o →
    ∃ i, SlotHead rt x.toLedger t w k i ∧ (slotOf rt i).value = (o.slot rt).value

/-- The newest memory of a slot with heads has the value of a head, unless nothing is due. -/
def NewestHeld (rt : Runtime) (x : ObservationStore) (t w : UUID) (k : String) : Prop :=
  (∃ i, SlotHead rt x.toLedger t w k i) → NewestIn rt x t w k fun v =>
    ∃ i, SlotHead rt x.toLedger t w k i ∧ (slotOf rt i).value = v

/-- Before a decision for the value `v`: with a head of that value there is no other head, and
the newest memory has the value or is recorded; without one there is a single head. -/
structure LeavesWinnerNewest (rt : Runtime) (x : ObservationStore) (t w : UUID) (k v : String) :
    Prop where
  kept : (∃ i, SlotHead rt x.toLedger t w k i ∧ (slotOf rt i).value = v) →
    (∀ i, SlotHead rt x.toLedger t w k i → (slotOf rt i).value = v) ∧
      NewestIn rt x t w k fun v' => v' = v
  grafted : (¬ ∃ i, SlotHead rt x.toLedger t w k i ∧ (slotOf rt i).value = v) →
    ∀ i j, SlotHead rt x.toLedger t w k i → SlotHead rt x.toLedger t w k j → i = j

section Decisions

variable {s' : InMemoryMemoryStore} {caseId : UUID} {case : ConflictCase}
  {winner : ConflictCandidate} {applied : UUID}
  {writes : List (MemoryItem × IntegrationEvent × ℕ)}

theorem Application.mem_winnerHeads_iff
    (h : Application rt x.toInMemoryMemoryStore s' t w caseId v d case winner applied writes)
    {i : MemoryItem} : i ∈ (storedEvidence x.toLedger case winner).winnerHeads ↔
      SlotHead rt x.toLedger t w case.key i ∧ (slotOf rt i).value = v := by
  have hct := (listCases_evidence h.mem).1
  rw [mem_winnerHeads h.candidate, hct]
  constructor
  · rintro ⟨hi, hr⟩
    obtain ⟨hm, hin, hv⟩ := h.mem_winners.mp hi
    exact ⟨⟨hm, hin, hr⟩, hv⟩
  · rintro ⟨hi, hv⟩
    exact ⟨h.mem_winners.mpr ⟨hi.stored, hi.slot, hv⟩, hi.head⟩

theorem Application.mem_loserHeads_iff
    (h : Application rt x.toInMemoryMemoryStore s' t w caseId v d case winner applied writes)
    {i : MemoryItem} : i ∈ (storedEvidence x.toLedger case winner).loserHeads ↔
      SlotHead rt x.toLedger t w case.key i ∧ (slotOf rt i).value ≠ v := by
  rw [h.mem_losers]
  exact ⟨fun ⟨hm, hin, hr, hne⟩ => ⟨⟨hm, hin, hr⟩, hne⟩,
    fun ⟨hi, hne⟩ => ⟨hi.stored, hi.slot, hi.head, hne⟩⟩

/-- The last write of a decision is the newest memory of the slot. -/
theorem Application.newest
    (h : Application rt x.toInMemoryMemoryStore s' t w caseId v d case winner applied writes)
    (ht : d.Timely (2 * x.items.rows.length + 1) x.times)
    {y : MemoryItem × IntegrationEvent × ℕ} (hy : writes.getLast? = some y) :
    newestIn rt s'.toLedger t w case.key = some y.1 := by
  obtain ⟨init, rfl⟩ := List.getLast?_eq_some_iff.mp hy
  obtain ⟨news, hrows, hinc, hclock⟩ := h.shape.grows ht h.mem h.admitted h.ledger
  rw [h.rows, List.append_cancel_left_eq] at hrows
  subst hrows
  have hyw : y ∈ init ++ [y] := List.mem_append_right _ (List.mem_singleton.mpr rfl)
  have hys : y.1 ∈ s'.items.rows := by
    rw [h.rows]
    exact List.mem_append_right _ (List.mem_map_of_mem hyw)
  have hmem : y.1 ∈ slotItems rt s'.toLedger t w case.key :=
    mem_slotItems.mpr ⟨hys, h.write_inSlot hyw⟩
  cases hn : newestIn rt s'.toLedger t w case.key with
  | none =>
    rw [List.argmax_eq_none.mp hn] at hmem
    cases hmem
  | some latest =>
    obtain ⟨hlm, -, hle⟩ := newestIn_eq_some hn
    have hge := hle y.1 hys (h.write_inSlot hyw)
    rw [h.rows] at hlm
    rcases List.mem_append.mp hlm with hold | hnew
    · obtain ⟨m, hm, he⟩ := hclock y.1 (List.mem_map_of_mem hyw)
      have hlt := ht.1 m hm latest.createdAt (List.mem_map_of_mem hold)
      rw [← he] at hlt
      exact absurd hge (not_le.mpr hlt)
    · rw [List.map_append, List.map_append, List.pairwise_append] at hinc
      rw [List.map_append, List.mem_append] at hnew
      rcases hnew with hinit | hlast
      · have hlt := hinc.2.2 latest.createdAt (List.mem_map_of_mem hinit) y.1.createdAt (by simp)
        exact absurd hge (not_le.mpr hlt)
      · rw [List.map_singleton, List.mem_singleton] at hlast
        rw [hlast]

/-- Tombstones do not have the winning value. -/
theorem Application.tombstone_value
    (h : Application rt x.toInMemoryMemoryStore s' t w caseId v d case winner applied writes)
    {losers : List MemoryItem} {d' : Draws} {xs : List (MemoryItem × IntegrationEvent × ℕ)}
    (hst : tombstones case d' losers = .ok xs)
    (hsub : losers ⊆ (storedEvidence x.toLedger case winner).loserHeads)
    {y : MemoryItem × IntegrationEvent × ℕ} (hy : y ∈ xs) : (slotOf rt y.1).value ≠ v := by
  obtain ⟨p, hp, -, htext⟩ := tombstones_text hst y hy
  rw [slotOf_congr htext]
  exact (h.mem_losers.mp (hsub hp)).2.2.2

/-- There are as many tombstones as heads they revise. -/
theorem tombstones_eq_nil_iff {losers : List MemoryItem} {d' : Draws}
    {xs : List (MemoryItem × IntegrationEvent × ℕ)} (hst : tombstones case d' losers = .ok xs) :
    xs = [] ↔ losers = [] := by
  rw [← List.length_eq_zero_iff, (tombstones_eq_ok hst).length_eq, List.length_eq_zero_iff]

/-- The observation of a memory that a decision wrote was not recorded. -/
theorem Application.unrecorded
    (h : Application rt x.toInMemoryMemoryStore s' t w caseId v d case winner applied writes)
    (hs : x.Sound rt) {y : MemoryItem × IntegrationEvent × ℕ} (hy : y ∈ writes) {l : Ledger}
    (hl : y.1 ∈ l.items.rows) :
    currentKey rt l t w case.key y.1 ∉
      existingKeys t w { x with toInMemoryMemoryStore := s' } := by
  intro hm
  obtain ⟨o, ho, -, -, hk⟩ := mem_existingKeys.mp hm
  obtain ⟨-, hids, -⟩ := observationKey_inj hk
  have hid : y.1.id ∈ o.evidenceIds := (hids y.1.id).mpr <| List.mem_map.mpr
    ⟨y.1, mem_valueItems.mpr ⟨hl, h.write_inSlot hy, rfl⟩, rfl⟩
  obtain ⟨i, hi, hii, -⟩ := (hs.pictures o ho).evidence _ hid
  have hfresh := h.admitted.freshItems ⟨y.1, y.2.1, none⟩ (List.mem_map_of_mem hy)
  exact Table.find_eq_none.mp hfresh i hi hii

/-- The slot of a case has two memories, before its decision and after. -/
theorem Application.two_le
    (h : Application rt x.toInMemoryMemoryStore s' t w caseId v d case winner applied writes) :
    2 ≤ (slotItems rt s'.toLedger t w case.key).length := by
  obtain ⟨i, hi, j, hj, hin, hjn, hne⟩ := exists_two_values h.mem
  have hsub : ∀ m ∈ x.items.rows, m ∈ s'.items.rows := fun m hm => by
    rw [h.rows]
    exact List.mem_append_left _ hm
  exact List.two_le_length_of_ne (mem_slotItems.mpr ⟨hsub i hi, hin⟩)
    (mem_slotItems.mpr ⟨hsub j hj, hjn⟩) fun he => hne (by rw [he])

/-- If the last write is a tombstone, the newest memory of the slot does not have the winning
value. -/
theorem Application.not_newestIn
    (h : Application rt x.toInMemoryMemoryStore s' t w caseId v d case winner applied writes)
    (hs : x.Sound rt) (ht : d.Timely (2 * x.items.rows.length + 1) x.times)
    {y : MemoryItem × IntegrationEvent × ℕ} (hy : writes.getLast? = some y)
    (hv : (slotOf rt y.1).value ≠ v) :
    ¬ NewestIn rt { x with toInMemoryMemoryStore := s' } t w case.key fun v' => v' = v := by
  intro hN
  have hyw := List.mem_of_getLast? hy
  have hnewest := h.newest ht hy
  exact hv (hN y.1 hnewest h.two_le
    (h.unrecorded hs hyw (newestIn_eq_some hnewest).1))

/-- The newest memory of the slot has the winning value after a decision exactly when the
decision left it so. -/
theorem Application.newestIn_iff
    (h : Application rt x.toInMemoryMemoryStore s' t w caseId v d case winner applied writes)
    (hs : x.Sound rt) (ht : d.Timely (2 * x.items.rows.length + 1) x.times) :
    NewestIn rt { x with toInMemoryMemoryStore := s' } t w case.key (fun v' => v' = v) ↔
      LeavesWinnerNewest rt x t w case.key v := by
  have hshape := h.shape
  cases hshape with
  | kept kept _ head stones =>
    have hhead := h.mem_winnerHeads_iff.mp head
    cases hlast : writes.getLast? with
    | none =>
      rw [List.getLast?_eq_none_iff] at hlast
      have hlosers := (tombstones_eq_nil_iff stones).mp hlast
      have hledger : s'.toLedger = x.toLedger := by
        rw [h.ledger, hlast]
        rfl
      have hsame : NewestIn rt { x with toInMemoryMemoryStore := s' } t w case.key
          (fun v' => v' = v) ↔ NewestIn rt x t w case.key fun v' => v' = v := by
        unfold NewestIn
        rw [hledger]
        rfl
      rw [hsame]
      refine ⟨fun hN => ⟨fun _ => ⟨fun i hi => ?_, hN⟩, fun hno => absurd ⟨_, hhead⟩ hno⟩,
        fun hL => (hL.kept ⟨_, hhead⟩).2⟩
      by_contra hne
      have hl := h.mem_loserHeads_iff.mpr ⟨hi, hne⟩
      rw [hlosers] at hl
      cases hl
    | some y =>
      have hv := h.tombstone_value stones (List.Subset.refl _) (List.mem_of_getLast? hlast)
      refine ⟨fun hN => absurd hN (h.not_newestIn hs ht hlast hv), fun hL => ?_⟩
      have hne : (storedEvidence x.toLedger case winner).loserHeads ≠ [] := fun he => by
        rw [(tombstones_eq_nil_iff stones).mpr he] at hlast
        cases hlast
      obtain ⟨p, hp⟩ := List.exists_mem_of_ne_nil _ hne
      obtain ⟨hpHead, hpv⟩ := h.mem_loserHeads_iff.mp hp
      exact absurd ((hL.kept ⟨_, hhead⟩).1 p hpHead) hpv
  | grafted source parent y ys noHead newest target graft stones =>
    have hnone : ¬ ∃ i, SlotHead rt x.toLedger t w case.key i ∧ (slotOf rt i).value = v := by
      rintro ⟨i, hi⟩
      have hm := h.mem_winnerHeads_iff.mpr hi
      rw [noHead] at hm
      cases hm
    have hlosers : ∀ i, SlotHead rt x.toLedger t w case.key i →
        i ∈ (storedEvidence x.toLedger case winner).loserHeads := fun i hi =>
      h.mem_loserHeads_iff.mpr ⟨hi, fun hv => hnone ⟨i, hi, hv⟩⟩
    have hnodup : (storedEvidence x.toLedger case winner).loserHeads.Nodup :=
      List.Nodup.of_map _ (loserHeads_nodup (listCases_evidence h.mem).2.2)
    cases hlast : ys.getLast? with
    | none =>
      rw [List.getLast?_eq_none_iff] at hlast
      have herase := (tombstones_eq_nil_iff stones).mp hlast
      have hparent : ∀ i, SlotHead rt x.toLedger t w case.key i → i = parent := by
        intro i hi
        by_contra hne
        have hm := hnodup.mem_erase_iff.mpr ⟨hne, hlosers i hi⟩
        rw [herase] at hm
        cases hm
      refine ⟨fun _ => ⟨fun hw => absurd hw hnone, fun _ i j hi hj =>
        (hparent i hi).trans (hparent j hj).symm⟩, fun _ latest hlatest _ _ => ?_⟩
      have hy := h.newest ht (y := y) (by rw [hlast]; rfl)
      obtain rfl : y.1 = latest := by simpa using hy.symm.trans hlatest
      rw [slotOf_congr (graft_eq_ok graft).2.1]
      exact (h.mem_winners.mp (List.argmax_mem newest)).2.2
    | some z =>
      have hv := h.tombstone_value stones (List.erase_subset ..) (List.mem_of_getLast? hlast)
      have hlast' : (y :: ys).getLast? = some z := by
        rw [List.getLast?_cons, hlast]
        rfl
      refine ⟨fun hN => absurd hN (h.not_newestIn hs ht hlast' hv), fun hL => ?_⟩
      have hne : (storedEvidence x.toLedger case winner).loserHeads.erase parent ≠ [] :=
        fun he => by
          rw [(tombstones_eq_nil_iff stones).mpr he] at hlast
          cases hlast
      obtain ⟨p, hp⟩ := List.exists_mem_of_ne_nil _ hne
      obtain ⟨hpne, hp⟩ := hnodup.mem_erase_iff.mp hp
      exact absurd (hL.grafted hnone p parent (h.mem_loserHeads_iff.mp hp).1
        (h.mem_loserHeads_iff.mp (List.argmax_mem target)).1) hpne

end Decisions

/-- Only reflections happened between two states. -/
inductive Reflections (rt : Runtime) (y : ObservationStore) : ObservationStore → Prop
  | start : Reflections rt y y
  | step {z : ObservationStore} (t w : UUID) (actor actorType : String) (d : Draws)
      (before : Reflections rt y z) : Reflections rt y (reflect rt t w actor actorType d z).2

/-- Reflections leave the memories alone and keep what is recorded. -/
theorem Reflections.newestIn {y z : ObservationStore} {Q : String → Prop}
    (h : Reflections rt y z) (hN : NewestIn rt y t w k Q) : NewestIn rt z t w k Q := by
  induction h with
  | start => exact hN
  | @step z t' w' actor actorType d _ ih =>
    have hledger : (reflect rt t' w' actor actorType d z).2.toLedger = z.toLedger :=
      createAll_toLedger
    intro latest hlatest hlen hdue
    rw [hledger] at hlatest hlen hdue
    refine ih latest hlatest hlen fun hm => hdue ?_
    obtain ⟨o, ho, hrest⟩ := mem_existingKeys.mp hm
    exact mem_existingKeys.mpr ⟨o, createAll_keeps ho, hrest⟩

/-- No later reflection creates a current observation of another value for the slot. -/
def KeepsWinner (rt : Runtime) (t w : UUID) (k v : String) (y : ObservationStore) : Prop :=
  ∀ z, Reflections rt y z → ∀ actor actorType d o,
    CreatedCurrent rt k z (reflect rt t w actor actorType d z).2 o → (o.slot rt).value = v

/-- Reflection agrees with the heads of a slot exactly when the newest memory of the slot has the
value of a head, or nothing is due; after a decision no reflection speaks for a losing value
exactly when the decision left the winner newest. -/
theorem reflection_agrees_iff (h : Observed env (fun _ _ _ => True) x) (t w : UUID) :
    (∀ k actor actorType d,
      (NewestHeld env.runtime x t w k → AgreesWithHeads env.runtime t w k x
        (reflect env.runtime t w actor actorType d x).2) ∧
      ∀ created, NamesDistinct env.runtime t w x →
        (reflect env.runtime t w actor actorType d x).1 = .ok created →
          AgreesWithHeads env.runtime t w k x
            (reflect env.runtime t w actor actorType d x).2 → NewestHeld env.runtime x t w k) ∧
    ∀ caseId status winnerValue reason audit d decision,
      d.Fresh (2 * x.items.rows.length) x.usedIds →
        d.Timely (2 * x.items.rows.length + 1) x.times → status.appliesWinner = true →
          Pending x.toInMemoryMemoryStore t caseId →
      let out := (decide env.runtime t w caseId status winnerValue reason audit d).run
        x.toInMemoryMemoryStore
      let y : ObservationStore := { x with toInMemoryMemoryStore := out.2 }
      out.1 = .ok decision →
      ∃ case, findCase env.runtime x.toInMemoryMemoryStore t w caseId = some case ∧
        ∃ winner ∈ case.candidates, winner.value = Text.strip (winnerValue.getD "") ∧
          (LeavesWinnerNewest env.runtime x t w case.key winner.value →
            KeepsWinner env.runtime t w case.key winner.value y) ∧
          ∀ actor actorType d' created, NamesDistinct env.runtime t w y →
            (reflect env.runtime t w actor actorType d' y).1 = .ok created →
              KeepsWinner env.runtime t w case.key winner.value y →
                LeavesWinnerNewest env.runtime x t w case.key winner.value := by
  have hs := h.sound
  refine ⟨fun k actor actorType d => ⟨fun hN hex o ho => created_of_newestIn (hN hex) ho,
    fun created hnames hrun hA hex => newestIn_of_created hnames hrun fun o ho => hA hex o ho⟩, ?_⟩
  intro caseId status winnerValue reason audit d decision hd ht hstatus hpending out y hok
  have hdec : DecideOutcome env.runtime x.toInMemoryMemoryStore t w caseId status winnerValue
      reason d (.ok decision) out.2 :=
    hok ▸ run_decide env.runtime x.toInMemoryMemoryStore t w caseId status winnerValue reason
      audit d
  obtain ⟨case, winner, applied, writes, happ, -, -⟩ :=
    decide_applies hs.consistent.chained hd hstatus hpending hdec
  refine ⟨case, happ.listed, winner, happ.candidate, happ.value, ?_, ?_⟩
  · intro hL z hz actor actorType d' o ho
    rw [happ.value] at hL ⊢
    exact created_of_newestIn (hz.newestIn ((happ.newestIn_iff hs ht).mpr hL)) ho
  · intro actor actorType d' created hnames hrun hkeeps
    rw [happ.value] at hkeeps ⊢
    exact (happ.newestIn_iff hs ht).mp <| newestIn_of_created hnames hrun fun o ho =>
      hkeeps y .start actor actorType d' o ho

instance (rt : Runtime) (l : Ledger) (t w : UUID) (k : String) (i : MemoryItem) :
    Decidable (SlotHead rt l t w k i) :=
  decidable_of_iff (i ∈ l.items.rows ∧ InSlot rt t w k i ∧ l.isRecallableHead t i.id = true)
    ⟨fun ⟨h₁, h₂, h₃⟩ => ⟨h₁, h₂, h₃⟩, fun h => ⟨h.stored, h.slot, h.head⟩⟩

/-- Alice's and then Bob's ownership were retained. -/
def ownersRetained : ObservationStore :=
  retainText 20 "Bob owns the vault." (retainText 10 "Alice owns the vault." .empty)

/-- Alice's ownership was archived before Bob's was retained. -/
def ownerArchived : ObservationStore :=
  let x := retainText 10 "Alice owns the vault." .empty
  retainText 30 "Bob owns the vault."
    { x with toInMemoryMemoryStore := ((Operation.supersede vaultArchive none).run
      lengthDeployment (drawsFrom 20) x.toInMemoryMemoryStore).2 }

/-- The conflict is decided for Alice. -/
def decideAlice (x : ObservationStore) : Except Exn Reply × ObservationStore :=
  let out := (Operation.decide (UUID.ofNat 1) (UUID.ofNat 2) (UUID.ofNat 98) .accepted
    (some "alice") "" none).run lengthDeployment (drawsFrom 50) x.toInMemoryMemoryStore
  (out.1, { x with toInMemoryMemoryStore := out.2 })

theorem decideAlice_eq (x : ObservationStore) : (decideAlice x).2 =
    { x with toInMemoryMemoryStore := ((decide lengthDeployment.runtime (UUID.ofNat 1)
      (UUID.ofNat 2) (UUID.ofNat 98) .accepted (some "alice") "" none (drawsFrom 50)).run
        x.toInMemoryMemoryStore).2 } := by
  simp only [decideAlice, Operation.run, Operation.program, Proc.run_wrap]

theorem ownersRetained_observed :
    Observed lengthDeployment (fun _ _ _ => True) ownersRetained :=
  .memory _ _ (.memory _ _ .empty (by decide +kernel) (by decide +kernel))
    (by decide +kernel) (by decide +kernel)

theorem ownerArchived_observed : Observed lengthDeployment (fun _ _ _ => True) ownerArchived :=
  .memory _ _ (.memory _ _ (.memory _ _ .empty (by decide +kernel) (by decide +kernel))
    (by decide +kernel) (by decide +kernel)) (by decide +kernel) (by decide +kernel)

/-- Reflection agrees with the heads before a decision, and after a decision that grafts Alice's
text onto the only head. -/
theorem reflection_agrees_iff_example :
    AgreesWithHeads lengthDeployment.runtime (UUID.ofNat 1) (UUID.ofNat 2) "vault|owner"
      ownersRetained (reflectAt 90 ownersRetained).2 ∧
    KeepsWinner lengthDeployment.runtime (UUID.ofNat 1) (UUID.ofNat 2) "vault|owner" "alice"
      (decideAlice ownerArchived).2 := by
  constructor
  · refine ((reflection_agrees_iff ownersRetained_observed _ _).1 _ _ _ (drawsFrom 90)).1
      fun _ latest hlatest _ _ => ⟨latest, ?_, rfl⟩
    have hheld : ∀ latest ∈ newestIn lengthDeployment.runtime ownersRetained.toLedger
        (UUID.ofNat 1) (UUID.ofNat 2) "vault|owner", SlotHead lengthDeployment.runtime
          ownersRetained.toLedger (UUID.ofNat 1) (UUID.ofNat 2) "vault|owner" latest := by
      decide +kernel
    exact hheld latest hlatest
  · have hnew : ownerArchived.conflictReviews.find (UUID.ofNat 1, UUID.ofNat 98) = none := by
      decide +kernel
    obtain ⟨decision, hok⟩ := Except.exists_of_isOk
      (x := ((decide lengthDeployment.runtime (UUID.ofNat 1) (UUID.ofNat 2) (UUID.ofNat 98)
        .accepted (some "alice") "" none (drawsFrom 50)).run
          ownerArchived.toInMemoryMemoryStore).1) (by decide +kernel)
    obtain ⟨case, hcase, winner, -, hvalue, hkeeps, -⟩ :=
      (reflection_agrees_iff ownerArchived_observed (UUID.ofNat 1) (UUID.ofNat 2)).2
        (UUID.ofNat 98) .accepted (some "alice") "" none (drawsFrom 50) decision
        (by decide +kernel) (by decide +kernel) rfl (fun r hr => by rw [hnew] at hr; cases hr) hok
    have hkey : ∀ c ∈ findCase lengthDeployment.runtime ownerArchived.toInMemoryMemoryStore
        (UUID.ofNat 1) (UUID.ofNat 2) (UUID.ofNat 98), c.key = "vault|owner" := by decide +kernel
    have hstrip : Text.strip ((some "alice").getD "") = "alice" := by decide +kernel
    have hnone : ∀ i ∈ ownerArchived.items.rows, ¬ (SlotHead lengthDeployment.runtime
        ownerArchived.toLedger (UUID.ofNat 1) (UUID.ofNat 2) "vault|owner" i ∧
          (slotOf lengthDeployment.runtime i).value = "alice") := by decide +kernel
    have hone : ∀ i ∈ ownerArchived.items.rows, ∀ j ∈ ownerArchived.items.rows,
        SlotHead lengthDeployment.runtime ownerArchived.toLedger (UUID.ofNat 1) (UUID.ofNat 2)
          "vault|owner" i → SlotHead lengthDeployment.runtime ownerArchived.toLedger
            (UUID.ofNat 1) (UUID.ofNat 2) "vault|owner" j → i.id = j.id := by decide +kernel
    rw [hvalue, hstrip, hkey case hcase] at hkeeps
    rw [decideAlice_eq]
    refine hkeeps ⟨fun ⟨i, hi⟩ => absurd hi (hnone i hi.1.stored), fun _ i j hi hj => ?_⟩
    exact ownerArchived.items.eq_of_key_eq hi.stored hj.stored
      (hone i hi.stored j hj.stored hi hj)

/-- After the decision for Alice, reflection takes Bob's tombstone for the current value. -/
theorem tombstone_reflected :
    Observed lengthDeployment (fun _ _ _ => True) (decideAlice ownersRetained).2 ∧
      ¬ AgreesWithHeads lengthDeployment.runtime (UUID.ofNat 1) (UUID.ofNat 2) "vault|owner"
        (decideAlice ownersRetained).2 (reflectAt 90 (decideAlice ownersRetained).2).2 := by
  refine ⟨.memory _ _ ownersRetained_observed (by decide +kernel) (by decide +kernel),
    fun h => ?_⟩
  have hhead : ∃ i ∈ (decideAlice ownersRetained).2.items.rows,
      SlotHead lengthDeployment.runtime (decideAlice ownersRetained).2.toLedger (UUID.ofNat 1)
        (UUID.ofNat 2) "vault|owner" i := by decide +kernel
  have hcreated : ∃ o ∈ (reflectAt 90 (decideAlice ownersRetained).2).2.observations.rows,
      (decideAlice ownersRetained).2.observations.find o.id = none ∧ o.stale = false ∧
        (o.slot lengthDeployment.runtime).key = "vault|owner" ∧
          (o.slot lengthDeployment.runtime).value = "bob" := by decide +kernel
  have hvalues : ∀ i ∈ (decideAlice ownersRetained).2.items.rows,
      SlotHead lengthDeployment.runtime (decideAlice ownersRetained).2.toLedger (UUID.ofNat 1)
        (UUID.ofNat 2) "vault|owner" i → (slotOf lengthDeployment.runtime i).value ≠ "bob" := by
    decide +kernel
  obtain ⟨i, -, hi⟩ := hhead
  obtain ⟨o, ho, hnew, hcurrent, hkey, hvalue⟩ := hcreated
  obtain ⟨j, hj, hjv⟩ := h ⟨i, hi⟩ o ⟨ho, hnew, hcurrent, hkey⟩
  exact hvalues j hj.stored hj (hjv.trans hvalue)

end MemoryPlane
