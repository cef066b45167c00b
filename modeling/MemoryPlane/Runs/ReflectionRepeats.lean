import MemoryPlane.Runs.Reflection

/-!
# A second reflection

What a second run records when nothing but the first one happened, and which value of a slot a run
takes for the current one. The keys of stored observations keep a run from recording them again, so
a second run finds nothing to do unless the first one met a stored observation under an identifier
that it computed for another key.
-/

namespace MemoryPlane

open ConflictService

namespace ReflectionService

section Repeats

variable {rt : Runtime} {t w : UUID} {actor actorType : String} {bs : List Belief}
  {existing : List String} {d : Draws} {x y : ObservationStore}

/-- A run whose beliefs are recorded does nothing. -/
theorem createAll_of_recorded (h : ∀ b ∈ bs, b.key ∈ existing) :
    createAll rt t w actor actorType bs existing d x = (.ok [], x) := by
  induction bs with
  | nil => rfl
  | cons b rest ih =>
    rw [createAll, if_pos (h b (List.mem_cons_self ..))]
    exact ih fun b' hb' => h b' (List.mem_cons_of_mem _ hb')

/-- A run that returns nothing had no belief to record. -/
theorem recorded_of_createAll (h : (createAll rt t w actor actorType bs existing d x).1 = .ok []) :
    ∀ b ∈ bs, b.key ∈ existing := by
  induction bs with
  | nil => simp
  | cons b rest ih =>
    by_cases hrec : b.key ∈ existing
    · rw [createAll, if_pos hrec] at h
      intro b' hb'
      obtain rfl | hb' := List.mem_cons.mp hb'
      · exact hrec
      · exact ih h b' hb'
    · rw [createAll, if_neg hrec] at h
      split at h
      · cases h
      · obtain ⟨created, -, hcreated⟩ := Except.map_eq_ok.mp h
        cases hcreated

variable (rt t w) in
/-- The identifiers that a run computes for what is not recorded yet are not those of stored
observations, and are different for different keys. -/
def FreshNames (x : ObservationStore) : Prop :=
  ∀ b ∈ beliefs rt x.toLedger t w, b.key ∉ existingKeys t w x →
    (∀ o ∈ x.observations.rows, o.id ≠ observationId rt t w b.key) ∧
      ∀ b' ∈ beliefs rt x.toLedger t w, b'.key ∉ existingKeys t w x →
        observationId rt t w b'.key = observationId rt t w b.key → b'.key = b.key

/-- After a run that returned, all beliefs are recorded exactly when the names were fresh. -/
theorem recorded_iff_freshNames {created : List Observation}
    (h : (reflect rt t w actor actorType d x).1 = .ok created) :
    (∀ b ∈ beliefs rt x.toLedger t w,
      b.key ∈ existingKeys t w (reflect rt t w actor actorType d x).2) ↔ FreshNames rt t w x := by
  have hadds : ∀ o ∈ (reflect rt t w actor actorType d x).2.observations.rows,
      o ∈ x.observations.rows ∨ x.observations.find o.id = none ∧
        ∃ b ∈ beliefs rt x.toLedger t w, b.key ∉ existingKeys t w x ∧ Built rt t w b o :=
    fun o ho => createAll_adds ho
  -- the observation under which a belief that was due is recorded
  have hrecorded : ∀ b ∈ beliefs rt x.toLedger t w, b.key ∉ existingKeys t w x →
      b.key ∈ existingKeys t w (reflect rt t w actor actorType d x).2 →
        ∃ o ∈ (reflect rt t w actor actorType d x).2.observations.rows,
          keyOf o = b.key ∧ x.observations.find o.id = none ∧
            o.id = observationId rt t w b.key := by
    intro b hb hdue hrec
    obtain ⟨o, ho, ht, hw, hkey⟩ := mem_existingKeys.mp hrec
    obtain hold | ⟨hnew, b', hb', hdue', hbuilt⟩ := hadds o ho
    · exact absurd (mem_existingKeys.mpr ⟨o, hold, ht, hw, hkey⟩) hdue
    · have hsame : b'.key = b.key := hbuilt.keyOf_eq.symm.trans hkey
      exact ⟨o, ho, hkey, hnew, hsame ▸ hbuilt.id⟩
  constructor
  · intro hall b hb hdue
    obtain ⟨o, ho, hkey, hnew, hid⟩ := hrecorded b hb hdue (hall b hb)
    refine ⟨fun o' ho' hid' => ?_, fun b' hb' hdue' hids => ?_⟩
    · exact Table.find_eq_none.mp hnew o' ho' (hid'.trans hid.symm)
    · obtain ⟨o', ho', hkey', -, hid'⟩ := hrecorded b' hb' hdue' (hall b' hb')
      obtain rfl : o' = o := Table.eq_of_key_eq _ ho' ho (by rw [hid', hid, hids])
      exact hkey'.symm.trans hkey
  · intro hfresh b hb
    by_cases hrec : b.key ∈ existingKeys t w x
    · obtain ⟨o, ho, ht, hw, hkey⟩ := mem_existingKeys.mp hrec
      exact mem_existingKeys.mpr ⟨o, createAll_keeps ho, ht, hw, hkey⟩
    · obtain ⟨hfree, hapart⟩ := hfresh b hb hrec
      obtain ⟨o, ho, hid⟩ := createAll_stores h hb hrec
      obtain hold | ⟨-, b', hb', hdue', hbuilt⟩ := hadds o ho
      · exact absurd hid (hfree o hold)
      · have hsame := hapart b' hb' hdue' (hbuilt.id.symm.trans hid)
        exact mem_existingKeys.mpr ⟨o, ho, hbuilt.tenant, hbuilt.workspace,
          hbuilt.keyOf_eq.trans hsame⟩

end Repeats

section Decisions

variable {rt : Runtime} {l : Ledger} {t w : UUID} {k : String} {facts : List Fact}

variable (rt facts) in
/-- The beliefs that a run computes for the facts of a slot, one for each of its values: the only
one that is not stale is of the value of the first listed among the newest memories. -/
structure Decisive : Prop where
  each : (slotBeliefs rt facts).map (fun b => b.evidenceIds) =
    (valueGroups facts).map fun g => g.2.map fun i => i.id
  one : ∃ before latest after, facts.map Fact.item = before ++ latest :: after ∧
    (∀ i ∈ before, i.createdAt < latest.createdAt) ∧
      (∀ i ∈ after, i.createdAt ≤ latest.createdAt) ∧
        ∃ b, (slotBeliefs rt facts).filter (fun b => !b.stale) = [b] ∧ latest.id ∈ b.evidenceIds

/-- The newest memory splits the listing into older ones and ones that are no newer. -/
theorem argmax_split {items : List MemoryItem} {latest : MemoryItem}
    (h : items.argmax (fun i => i.createdAt) = some latest) :
    ∃ before after, items = before ++ latest :: after ∧
      (∀ i ∈ before, i.createdAt < latest.createdAt) ∧
        ∀ i ∈ after, i.createdAt ≤ latest.createdAt := by
  obtain ⟨before, after, hsplit, hfirst⟩ := List.eq_append_cons_of_mem (List.argmax_mem h)
  have hle : ∀ i ∈ items, i.createdAt ≤ latest.createdAt :=
    fun i hi => List.le_of_mem_argmax (f := fun i : MemoryItem => i.createdAt) hi h
  refine ⟨before, after, hsplit, fun i hi => ?_, fun i hi => ?_⟩
  · have hmem : i ∈ items := by
      rw [hsplit]
      exact List.mem_append_left _ hi
    apply lt_of_le_of_ne (hle i hmem)
    intro hsame
    have hindex := List.index_of_argmax h hmem (le_of_eq hsame.symm)
    rw [hsplit, List.idxOf_append_of_notMem hfirst, List.idxOf_append_of_mem hi] at hindex
    have hlt := List.idxOf_lt_length_of_mem hi
    omega
  · apply hle
    rw [hsplit]
    exact List.mem_append_right _ (List.mem_cons_of_mem _ hi)

/-- The only element of a list that a partial function is defined on. -/
theorem filterMap_eq_singleton {α β : Type} {xs : List α} {f : α → Option β} {x : α} {b : β}
    (hn : xs.Nodup) (hx : x ∈ xs) (hb : f x = some b) (h : ∀ y ∈ xs, y ≠ x → f y = none) :
    xs.filterMap f = [b] := by
  induction xs with
  | nil => cases hx
  | cons y ys ih =>
    obtain ⟨hy, hn⟩ := List.nodup_cons.mp hn
    have hrest := fun z hz => h z (List.mem_cons_of_mem _ hz)
    obtain rfl | hx := List.mem_cons.mp hx
    · have hnone : ys.filterMap f = [] := by
        rw [List.filterMap_eq_nil_iff]
        intro z hz
        apply hrest z hz
        rintro rfl
        exact hy hz
      rw [List.filterMap_cons, hb]
      simp only [hnone]
    · have hne : y ≠ x := by
        rintro rfl
        exact hy hx
      rw [List.filterMap_cons, h y (List.mem_cons_self ..) hne]
      exact ih hn hx hrest

theorem valueGroups_nodup (facts : List Fact) : ((valueGroups facts).map Prod.fst).Nodup := by
  rw [valueGroups, List.map_map]
  exact ((sortedBy_perm _ _).map _).nodup_iff.mpr (groupBy_keys_nodup _ _)

/-- The belief of a value group. -/
theorem exists_belief {latest : MemoryItem} {v : String} {rows : List MemoryItem} {conflict : Bool}
    (hlen : 2 ≤ (slotItems rt l t w k).length) (hlatest : newestIn rt l t w k = some latest)
    (hg : (v, rows) ∈ valueGroups (slotFacts rt l t w k)) :
    ∃ b, belief rt latest conflict rows = some b ∧ b.evidenceIds = rows.map (fun i => i.id) ∧
      (b.stale = true ↔ (slotOf rt latest).value ≠ v) := by
  obtain ⟨hrows, hne⟩ := mem_valueGroups hg
  obtain ⟨newest, hnewest⟩ : ∃ newest, rows.argmax (fun i => i.createdAt) = some newest := by
    rw [← Option.isSome_iff_exists, Option.isSome_iff_ne_none, ne_eq, List.argmax_eq_none]
    exact hne
  refine ⟨_, by rw [belief, hnewest, Option.map_some], rfl, ?_⟩
  have hjudged : Judged rt l t w k v latest newest
      ⟨newest.text, rows.map fun i => i.id, confidence rt rows conflict,
        newest.id ≠ latest.id⟩ := by
    refine ⟨hlen, hlatest, ?_, rfl, ?_, by simp⟩
    · rw [← hnewest, hrows]
      rfl
    · rw [hrows]
      rfl
  exact hjudged.stale_iff

/-- A slot with two facts and two values is decided. -/
theorem decisive_of_values
    (hg : (k, facts) ∈ groupBy (fun f : Fact => f.slot.key) (factsOf rt l t w))
    (hfacts : 2 ≤ facts.length) (hvalues : 2 ≤ (valueGroups facts).length) :
    Decisive rt facts := by
  obtain rfl := mem_groups hg
  have hlen : 2 ≤ (slotItems rt l t w k).length := by
    rw [slotItems, List.length_map]
    exact hfacts
  obtain ⟨latest, hlatest⟩ : ∃ latest, newestIn rt l t w k = some latest := by
    rw [← Option.isSome_iff_exists, Option.isSome_iff_ne_none, ne_eq, newestIn, List.argmax_eq_none]
    intro hnil
    rw [hnil] at hlen
    cases hlen
  set groups := valueGroups (slotFacts rt l t w k) with hgroups
  have hbeliefs : slotBeliefs rt (slotFacts rt l t w k) =
      groups.filterMap fun g => belief rt latest (1 < groups.length) g.2 := by
    have hall : groups.filter (fun g => ¬ (g.2.length < 2 ∧ groups.length = 1)) = groups := by
      rw [List.filter_eq_self]
      intro g _
      rw [decide_eq_true_eq]
      rintro ⟨-, hone⟩
      omega
    have hlatest' : ((slotFacts rt l t w k).map Fact.item).argmax (fun i => i.createdAt) =
        some latest := hlatest
    simp only [slotBeliefs, if_neg (Nat.not_lt.mpr hfacts), hlatest', ← hgroups, hall]
  have hbelief : ∀ g ∈ groups, ∃ b, belief rt latest (1 < groups.length) g.2 = some b ∧
      b.evidenceIds = g.2.map (fun i => i.id) ∧
        (b.stale = true ↔ (slotOf rt latest).value ≠ g.1) :=
    fun g hg => exists_belief hlen hlatest hg
  constructor
  · rw [hbeliefs, List.map_filterMap, ← List.filterMap_eq_map]
    apply List.filterMap_congr
    intro g hg
    obtain ⟨b, hb, hids, -⟩ := hbelief g hg
    rw [hb, Option.map_some, hids]
    rfl
  · obtain ⟨before, after, hsplit, hbefore, hafter⟩ := argmax_split hlatest
    refine ⟨before, latest, after, hsplit, hbefore, hafter, ?_⟩
    obtain ⟨f, hf, hfi⟩ := List.mem_map.mp (List.argmax_mem hlatest)
    obtain ⟨rows, hrows, hmem⟩ := exists_valueGroups hf
    have hvalue : f.slot.value = (slotOf rt latest).value := by
      rw [← hfi, (mem_slotFacts.mp hf).2.2]
    obtain ⟨b, hb, hids, hstale⟩ := hbelief _ hrows
    refine ⟨b, ?_, ?_⟩
    · rw [hbeliefs, List.filter_filterMap]
      apply filterMap_eq_singleton (List.Nodup.of_map _ (valueGroups_nodup _)) hrows
      · have hcurrent : b.stale = false := by
          rw [← Bool.not_eq_true, hstale, not_not]
          exact hvalue.symm
        simp only [hb, Option.filter, hcurrent, Bool.not_false, if_true]
      · intro g hg hne
        obtain ⟨b', hb', -, hstale'⟩ := hbelief g hg
        have hother : b'.stale = true := by
          rw [hstale']
          intro hsame
          apply hne
          exact List.inj_on_of_nodup_map (valueGroups_nodup _) hg hrows (hsame ▸ hvalue.symm)
        simp only [hb', Option.filter, hother, Bool.not_true, Bool.false_eq_true, if_false]
    · rw [hids, ← hfi]
      exact List.mem_map_of_mem hmem

end Decisions

section Main

variable {rt : Runtime} {t w : UUID} {actor actorType : String} {d : Draws}
  {x y z : ObservationStore}

variable (rt t w) in
/-- The memories are those of the run, and what it recorded is still there: another run, by
whatever actor and with whatever draws, creates nothing. -/
def RepeatsIdle (y : ObservationStore) : Prop :=
  ∀ z : ObservationStore, z.toLedger = y.toLedger →
    (∀ o ∈ y.observations.rows, o ∈ z.observations.rows) →
      ∀ actor actorType d, reflect rt t w actor actorType d z = (.ok [], z)

/-- Nothing is created any more exactly when all beliefs are recorded. -/
theorem repeatsIdle_iff : RepeatsIdle rt t w y ↔
    ∀ b ∈ beliefs rt y.toLedger t w, b.key ∈ existingKeys t w y := by
  constructor
  · intro h
    have hagain := h y rfl (fun _ ho => ho) "" "" (drawsFrom 0)
    apply recorded_of_createAll (t := t) (w := w)
    exact congrArg Prod.fst hagain
  · intro h z hledger hkept actor actorType d
    apply createAll_of_recorded
    intro b hb
    rw [hledger] at hb
    obtain ⟨o, ho, hrest⟩ := mem_existingKeys.mp (h b hb)
    exact mem_existingKeys.mpr ⟨o, hkept o ho, hrest⟩

/-- A run after one that returned creates nothing exactly when the names were fresh; and each slot
with two facts and two values is decided, for the first listed of its newest memories. -/
theorem reflection_repeats_iff (rt : Runtime) (t w : UUID) (x : ObservationStore) :
    (∀ actor actorType d created, (reflect rt t w actor actorType d x).1 = .ok created →
      (RepeatsIdle rt t w (reflect rt t w actor actorType d x).2 ↔ FreshNames rt t w x)) ∧
    ∀ k facts, (k, facts) ∈ groupBy (fun f : Fact => f.slot.key) (factsOf rt x.toLedger t w) →
      2 ≤ facts.length → 2 ≤ (valueGroups facts).length → Decisive rt facts := by
  constructor
  · intro actor actorType d created hrun
    have hledger : (reflect rt t w actor actorType d x).2.toLedger = x.toLedger :=
      createAll_toLedger
    rw [repeatsIdle_iff, hledger]
    exact recorded_iff_freshNames hrun
  · intro k facts hg hfacts hvalues
    exact decisive_of_values hg hfacts hvalues

end Main

/-- The current belief about the owner of the vault. -/
def bobCurrent : String :=
  observationKey "Bob owns the vault." [UUID.ofNat 20] false

/-- An observation of another workspace under the identifier of that belief. -/
def shadowFields : ObservationFields where
  tenantId := UUID.ofNat 1
  workspaceId := UUID.ofNat 9
  summary := "Imported."
  evidenceIds := [UUID.ofNat 5]
  id := observationId lengthDeployment.runtime (UUID.ofNat 1) (UUID.ofNat 2) bobCurrent
  confidence := 1
  stale := false
  createdAt := DateTime.ofMicros 1

theorem shadowFields_valid : shadowFields.postInit = .ok () := by decide +kernel

/-- Both ownerships were retained, and the other workspace's observation was stored before. -/
def ownersShadowed : ObservationStore :=
  { ownersRetained with observations := Table.empty.setDefault ⟨shadowFields, shadowFields_valid⟩ }

/-- Alice's and then Bob's ownership were retained, at one moment. -/
def ownersTied : ObservationStore :=
  let x := retainText 10 "Alice owns the vault." .empty
  { x with toInMemoryMemoryStore :=
      ((Operation.retain (plainRetain "Bob owns the vault." .workspace none) none).run
        lengthDeployment ⟨(drawsFrom 20).uuid4, (drawsFrom 10).now⟩ x.toInMemoryMemoryStore).2 }

theorem reflection_repeats_at_owners :
    RepeatsIdle lengthDeployment.runtime (UUID.ofNat 1) (UUID.ofNat 2)
      (reflectAt 90 ownersRetained).2 := by
  obtain ⟨created, hrun⟩ := Except.exists_of_isOk (x := (reflectAt 90 ownersRetained).1)
    (by decide +kernel)
  have hfresh : FreshNames lengthDeployment.runtime (UUID.ofNat 1) (UUID.ofNat 2)
      ownersRetained := by
    unfold FreshNames
    decide +kernel
  exact ((reflection_repeats_iff lengthDeployment.runtime (UUID.ofNat 1) (UUID.ofNat 2)
    ownersRetained).1 "maintenance" "system" (drawsFrom 90) created hrun).mpr hfresh

/-- A second run records once more what is kept under a name that another observation has; and of
two memories of one moment the first listed is taken for the current one. -/
theorem shadowed_reflection_repeats :
    ((reflectAt 90 (reflectAt 80 ownersShadowed).2).1.map List.length = .ok 1 ∧
      (reflectAt 80 ownersShadowed).2.toLedger = ownersShadowed.toLedger) ∧
    (factsOf lengthDeployment.runtime ownersTied.toLedger (UUID.ofNat 1) (UUID.ofNat 2)).map
        (fun f => (f.slot.value, f.item.createdAt)) =
      [("alice", DateTime.ofMicros 11), ("bob", DateTime.ofMicros 11)] ∧
    ((beliefs lengthDeployment.runtime ownersTied.toLedger (UUID.ofNat 1) (UUID.ofNat 2)).filter
        fun b => !b.stale).map (fun b => b.summary) = ["Alice owns the vault."] := by
  refine ⟨⟨by decide +kernel, createAll_toLedger⟩, by decide +kernel, by decide +kernel⟩

end ReflectionService

end MemoryPlane
