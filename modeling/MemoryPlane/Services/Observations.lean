import MemoryPlane.Services.Reflection

/-!
# What a reflection run records

A slot with at least two memories yields one belief for each of its values, and the one of the
newest memory's value is the only current one. A run keeps every stored observation and adds only
observations of beliefs that were not recorded.
-/

namespace MemoryPlane

open ConflictService

/-- An observation has the fields it was constructed from, and these pass the checks. -/
theorem Observation.new_eq_ok {f : ObservationFields} {o : Observation} :
    Observation.new f = .ok o ↔ o.toObservationFields = f := by
  constructor
  · intro h
    unfold Observation.new at h
    split at h
    · cases h
      rfl
    · cases h
  · rintro rfl
    unfold Observation.new
    split
    · rfl
    · rename_i e he
      rw [o.valid] at he
      cases he

namespace ReflectionService

/-- Identifiers are written without the mark that separates the parts of a key. -/
theorem bar_not_mem_str (i : UUID) : '|' ∉ i.str.toList := by
  unfold UUID.str
  rw [String.toList_ofList]
  intro h
  rcases UUID.mem_groups h with h | h
  · exact not_mem_hexDigits (by decide) 32 i.toNat h
  · cases h

/-- The joined evidence has no bar, so it ends where the bar stands. -/
theorem bar_not_mem_evidence (ids : List UUID) :
    '|' ∉ (",".intercalate (ids.map UUID.str)).toList := by
  induction ids with
  | nil => simp
  | cons i rest ih =>
    cases rest with
    | nil => simpa using bar_not_mem_str i
    | cons j rest =>
      rw [List.map_cons, String.intercalate_cons_of_ne_nil (by simp)]
      simp only [String.toList_append, List.mem_append, not_or]
      exact ⟨⟨bar_not_mem_str i, by decide⟩, ih⟩

/-- The characters after the first identifier of a list. -/
def evidenceTail (ids : List UUID) : List Char :=
  if ids = [] then [] else ',' :: (",".intercalate (ids.map UUID.str)).toList

/-- The joined evidence is its first identifier and the tail behind it. -/
theorem evidence_cons (i : UUID) (ids : List UUID) :
    (",".intercalate ((i :: ids).map UUID.str)).toList = i.str.toList ++ evidenceTail ids := by
  cases ids with
  | nil => simp [evidenceTail]
  | cons j rest =>
    rw [List.map_cons, String.intercalate_cons_of_ne_nil (by simp)]
    simp [evidenceTail]

/-- Identifiers are read back from their list. -/
theorem evidence_inj {ids ids' : List UUID}
    (h : (",".intercalate (ids.map UUID.str)).toList =
      (",".intercalate (ids'.map UUID.str)).toList) : ids = ids' := by
  have hne : ∀ (i : UUID) (rest : List UUID), i.str.toList ++ evidenceTail rest ≠ [] := by
    intro i rest he
    have hlen := congrArg List.length he
    rw [List.length_append, UUID.length_str] at hlen
    simp at hlen
  induction ids generalizing ids' with
  | nil =>
    cases ids' with
    | nil => rfl
    | cons j rest =>
      rw [evidence_cons] at h
      exact absurd h.symm (hne j rest)
  | cons i rest ih =>
    cases ids' with
    | nil =>
      rw [evidence_cons] at h
      exact absurd h (hne i rest)
    | cons j rest' =>
      rw [evidence_cons, evidence_cons] at h
      obtain ⟨hi, hrest⟩ := List.append_inj h (by rw [UUID.length_str, UUID.length_str])
      rw [UUID.str_injective (String.toList_injective hi)]
      refine congrArg _ ?_
      unfold evidenceTail at hrest
      by_cases hr : rest = [] <;> by_cases hr' : rest' = []
      · rw [hr, hr']
      · simp [hr, hr'] at hrest
      · simp [hr, hr'] at hrest
      · rw [if_neg hr, if_neg hr'] at hrest
        exact ih (List.cons.inj hrest).2

/-- A key determines the summary, the evidence and the staleness. -/
theorem observationKey_inj {s s' : String} {ids ids' : List UUID} {stale stale' : Bool}
    (h : observationKey s ids stale = observationKey s' ids' stale') :
    s = s' ∧ (∀ id, id ∈ ids ↔ id ∈ ids') ∧ stale = stale' := by
  have hchars := congrArg String.toList h
  have hflag : ∀ b : Bool, '|' ∉ ("stale=" ++ if b then "True" else "False").toList := by decide
  have hkey : ∀ (s : String) (ids : List UUID) (b : Bool), (observationKey s ids b).toList =
      (s.toList ++ '|' :: (",".intercalate ((sortedBy id ids).map UUID.str)).toList) ++
        '|' :: ("stale=" ++ if b then "True" else "False").toList := by
    intro s ids b
    simp [observationKey, toString]
  rw [hkey, hkey] at hchars
  obtain ⟨hleft, hright⟩ := List.append_cons_inj_of_not_mem hchars (hflag _) (hflag _)
  obtain ⟨hsummary, hids⟩ := List.append_cons_inj_of_not_mem hleft (bar_not_mem_evidence _)
    (bar_not_mem_evidence _)
  refine ⟨String.toList_injective hsummary, fun i => ?_, ?_⟩
  · rw [← mem_sortedBy id ids, evidence_inj hids, mem_sortedBy]
  · cases stale <;> cases stale' <;> simp_all

section Beliefs

variable (rt : Runtime) (l : Ledger) (t w : UUID) (k v : String)

/-- The memories of a slot, in creation order. -/
def slotItems : List MemoryItem := (slotFacts rt l t w k).map Fact.item

/-- The memories of a slot with one value, in creation order. -/
def valueItems : List MemoryItem :=
  ((slotFacts rt l t w k).filter fun f => f.slot.value = v).map Fact.item

/-- The newest memory of a slot, whatever its status and whether or not it was replaced. -/
def newestIn : Option MemoryItem := (slotItems rt l t w k).argmax fun i => i.createdAt

/-- The key of the belief that the value of this newest memory is current. -/
def currentKey (latest : MemoryItem) : String :=
  observationKey latest.text ((valueItems rt l t w k (slotOf rt latest).value).map fun i => i.id)
    false

variable {rt l t w k v} {i : MemoryItem}

/-- The items of a slot are those of the store that fall into it. -/
theorem mem_slotItems : i ∈ slotItems rt l t w k ↔ i ∈ l.items.rows ∧ InSlot rt t w k i := by
  unfold slotItems
  rw [List.mem_map]
  constructor
  · rintro ⟨f, hf, rfl⟩
    obtain ⟨hm, hin, -⟩ := mem_slotFacts.mp hf
    exact ⟨hm, hin⟩
  · rintro ⟨hm, hin⟩
    exact ⟨⟨slotOf rt i, i⟩, mem_slotFacts.mpr ⟨hm, hin, rfl⟩, rfl⟩

/-- The items of a value are those of the slot that say it. -/
theorem valueItems_eq : valueItems rt l t w k v =
    (slotItems rt l t w k).filter fun i => (slotOf rt i).value = v := by
  unfold valueItems slotItems
  rw [List.filter_map]
  refine congrArg _ (List.filter_congr fun f hf => ?_)
  rw [(mem_slotFacts.mp hf).2.2]
  rfl

/-- The items of a value are those of the store in the slot that say it. -/
theorem mem_valueItems : i ∈ valueItems rt l t w k v ↔
    i ∈ l.items.rows ∧ InSlot rt t w k i ∧ (slotOf rt i).value = v := by
  rw [valueItems_eq, List.mem_filter, mem_slotItems, decide_eq_true_eq, and_assoc]

/-- The newest item of a slot is one of its items, and no other is newer. -/
theorem newestIn_eq_some {latest : MemoryItem} (h : newestIn rt l t w k = some latest) :
    latest ∈ l.items.rows ∧ InSlot rt t w k latest ∧
      ∀ i ∈ l.items.rows, InSlot rt t w k i → i.createdAt ≤ latest.createdAt := by
  obtain ⟨hm, hin⟩ := mem_slotItems.mp (List.argmax_mem h)
  refine ⟨hm, hin, fun i hi hi' => ?_⟩
  exact List.le_of_mem_argmax (f := fun i : MemoryItem => i.createdAt)
    (mem_slotItems.mpr ⟨hi, hi'⟩) h

/-- A belief about one value of a slot. -/
structure Judged (rt : Runtime) (l : Ledger) (t w : UUID) (k v : String)
    (latest newest : MemoryItem) (b : Belief) : Prop where
  repeated : 2 ≤ (slotItems rt l t w k).length
  last : newestIn rt l t w k = some latest
  lastOfValue : (valueItems rt l t w k v).argmax (fun i => i.createdAt) = some newest
  summary : b.summary = newest.text
  evidence : b.evidenceIds = (valueItems rt l t w k v).map fun i => i.id
  stale : b.stale = true ↔ newest.id ≠ latest.id

/-- The groups of facts are those of the slots. -/
theorem mem_groups {facts : List Fact}
    (h : (k, facts) ∈ groupBy (fun f : Fact => f.slot.key) (factsOf rt l t w)) :
    facts = slotFacts rt l t w k := (mem_groupBy h).1

/-- Every belief of a run is about one value of a slot with at least two memories. -/
theorem judged_of_mem {b : Belief} (h : b ∈ beliefs rt l t w) :
    ∃ k v latest newest, Judged rt l t w k v latest newest b := by
  unfold beliefs at h
  obtain ⟨⟨k, facts⟩, hg, hb⟩ := List.mem_flatMap.mp h
  obtain rfl := mem_groups hg
  unfold slotBeliefs at hb
  simp only at hb
  split at hb
  · simp at hb
  rename_i hlen
  split at hb
  · simp at hb
  rename_i latest hlatest
  obtain ⟨⟨v, rows⟩, hv, hb⟩ := List.mem_filterMap.mp hb
  obtain ⟨rfl, -⟩ := mem_valueGroups (List.mem_filter.mp hv).1
  unfold belief at hb
  obtain ⟨newest, hnewest, rfl⟩ := Option.map_eq_some_iff.mp hb
  refine ⟨k, v, latest, newest, ?_, hlatest, hnewest, rfl, rfl, by simp⟩
  unfold slotItems
  rw [List.length_map]
  omega

/-- The group of a single value holds all facts. -/
theorem length_of_one_value {facts : List Fact} {rows : List MemoryItem}
    (h : (v, rows) ∈ valueGroups facts) (hone : (valueGroups facts).length = 1) :
    rows.length = facts.length := by
  obtain ⟨g, hg⟩ := List.length_eq_one_iff.mp hone
  obtain ⟨rfl, -⟩ := mem_valueGroups h
  rw [List.length_map, List.filter_eq_self.mpr fun f hf => ?_]
  obtain ⟨rows', hrows', -⟩ := exists_valueGroups hf
  rw [hg, List.mem_singleton] at h hrows'
  rw [decide_eq_true_eq]
  exact congrArg Prod.fst (hrows'.trans h.symm)

/-- The newest memory of a slot with at least two memories makes its value the current one. -/
theorem exists_current {latest : MemoryItem} (hlen : 2 ≤ (slotItems rt l t w k).length)
    (h : newestIn rt l t w k = some latest) :
    ∃ b ∈ beliefs rt l t w, Judged rt l t w k (slotOf rt latest).value latest latest b ∧
      b.stale = false ∧ b.key = currentKey rt l t w k latest := by
  have hnewest : (valueItems rt l t w k (slotOf rt latest).value).argmax
      (fun i => i.createdAt) = some latest := by
    rw [valueItems_eq]
    exact List.argmax_filter h (decide_eq_true rfl)
  obtain ⟨f, hf, hfi⟩ := List.mem_map.mp (List.argmax_mem h)
  have hslot : f.slot = slotOf rt latest := by
    rw [← hfi]
    exact (mem_slotFacts.mp hf).2.2
  obtain ⟨rows, hrows, -⟩ := exists_valueGroups hf
  have hrows' : rows = valueItems rt l t w k (slotOf rt latest).value := by
    rw [← hslot]
    exact (mem_valueGroups hrows).1
  have hgroup : (k, slotFacts rt l t w k) ∈
      groupBy (fun f : Fact => f.slot.key) (factsOf rt l t w) := by
    have hfk : f.slot.key = k := of_decide_eq_true (List.mem_filter.mp hf).2
    obtain ⟨fs, hfs, -⟩ : ∃ fs, (f.slot.key, fs) ∈
        groupBy (fun f : Fact => f.slot.key) (factsOf rt l t w) ∧ f ∈ fs :=
      exists_groupBy (List.mem_filter.mp hf).1
    rw [hfk] at hfs
    rw [← mem_groups hfs]
    exact hfs
  have hfacts : ¬ (slotFacts rt l t w k).length < 2 := by
    unfold slotItems at hlen
    rw [List.length_map] at hlen
    omega
  refine ⟨⟨latest.text, rows.map fun i => i.id,
    confidence rt rows (1 < (valueGroups (slotFacts rt l t w k)).length), false⟩, ?_,
    ⟨hlen, h, hnewest, rfl, by rw [hrows'], by simp⟩, rfl, by rw [hrows']; rfl⟩
  unfold beliefs
  refine List.mem_flatMap.mpr ⟨_, hgroup, ?_⟩
  have hlatest : ((slotFacts rt l t w k).map Fact.item).argmax (fun i => i.createdAt) =
      some latest := h
  simp only [slotBeliefs, if_neg hfacts, hlatest]
  refine List.mem_filterMap.mpr ⟨(f.slot.value, rows), List.mem_filter.mpr ⟨hrows, ?_⟩, ?_⟩
  · rw [decide_eq_true_eq]
    rintro ⟨hfew, hone⟩
    rw [length_of_one_value hrows hone] at hfew
    exact hfacts hfew
  · rw [← hrows'] at hnewest
    simp [belief, hnewest]

end Beliefs

section Runs

variable {rt : Runtime} {t w : UUID} {actor actorType : String} {b : Belief} {bs : List Belief}
  {existing : List String} {d : Draws} {x : ObservationStore} {o : Observation}

/-- An observation that a run builds from a belief. -/
structure Built (rt : Runtime) (t w : UUID) (b : Belief) (o : Observation) : Prop where
  tenant : o.tenantId = t
  workspace : o.workspaceId = w
  summary : o.summary = b.summary
  evidence : o.evidenceIds = b.evidenceIds
  stale : o.stale = b.stale
  id : o.id = observationId rt t w b.key

/-- A prepared observation is built from its belief. -/
theorem prepare_eq_ok {audit : AuditEvent}
    (h : prepare rt t w actor actorType b d = .ok (o, audit)) : Built rt t w b o := by
  unfold prepare at h
  obtain ⟨o', ho, h⟩ := Except.bind_eq_ok.mp h
  obtain ⟨a, -, h⟩ := Except.bind_eq_ok.mp h
  cases h
  have hf := Observation.new_eq_ok.mp ho
  constructor <;> rw [hf]

/-- A built observation carries the key of its belief. -/
theorem Built.keyOf_eq (h : Built rt t w b o) : keyOf o = b.key := by
  unfold keyOf Belief.key
  rw [h.summary, h.evidence, h.stale]

/-- Saving an observation leaves the memories alone. -/
@[simp] theorem save_toLedger (audit : Option AuditEvent) :
    (x.save o audit).2.toLedger = x.toLedger := by
  simp [ObservationStore.save]

/-- Reflection leaves the memories alone. -/
theorem createAll_toLedger :
    (createAll rt t w actor actorType bs existing d x).2.toLedger = x.toLedger := by
  induction bs generalizing existing d x with
  | nil => rfl
  | cons b rest ih =>
    unfold createAll
    split
    · exact ih
    · split
      · rfl
      · rename_i o audit hp
        exact ih.trans (save_toLedger _)

/-- A run keeps what is stored. -/
theorem createAll_keeps (h : o ∈ x.observations.rows) :
    o ∈ (createAll rt t w actor actorType bs existing d x).2.observations.rows := by
  induction bs generalizing existing d x with
  | nil => exact h
  | cons b rest ih =>
    unfold createAll
    split
    · exact ih h
    · split
      · exact h
      · exact ih (Table.mem_setDefault.mpr (.inl h))

/-- What a run adds was built from a belief that was not recorded, under a new identifier. -/
theorem createAll_adds
    (h : o ∈ (createAll rt t w actor actorType bs existing d x).2.observations.rows) :
    o ∈ x.observations.rows ∨
      x.observations.find o.id = none ∧ ∃ b ∈ bs, b.key ∉ existing ∧ Built rt t w b o := by
  induction bs generalizing existing d x with
  | nil => exact .inl h
  | cons b rest ih =>
    unfold createAll at h
    split at h
    · rcases ih h with h | ⟨hnew, b', hb', hrest⟩
      · exact .inl h
      · exact .inr ⟨hnew, b', List.mem_cons_of_mem _ hb', hrest⟩
    rename_i hdue
    split at h
    · exact .inl h
    rename_i o' audit hp
    have hbuilt := prepare_eq_ok hp
    rcases ih h with h | ⟨hnew, b', hb', hdue', hrest⟩
    · rcases Table.mem_setDefault.mp h with h | ⟨rfl, hnew⟩
      · exact .inl h
      · exact .inr ⟨hnew, b, List.mem_cons_self .., hdue, hbuilt⟩
    · refine .inr ⟨?_, b', List.mem_cons_of_mem _ hb', ?_, hrest⟩
      · rw [Table.find_eq_none] at hnew ⊢
        exact fun a ha => hnew a (Table.mem_setDefault.mpr (.inl ha))
      · exact fun hm => hdue' (List.mem_cons_of_mem _ hm)

/-- When a run returns, every belief was recorded before or an observation is stored under its
identifier. -/
theorem createAll_stores {created : List Observation}
    (h : (createAll rt t w actor actorType bs existing d x).1 = .ok created) (hb : b ∈ bs)
    (hdue : b.key ∉ existing) :
    ∃ o ∈ (createAll rt t w actor actorType bs existing d x).2.observations.rows,
      o.id = observationId rt t w b.key := by
  induction bs generalizing existing d x created with
  | nil => simp at hb
  | cons b' rest ih =>
    unfold createAll at h ⊢
    by_cases hrec : b'.key ∈ existing
    · rw [if_pos hrec] at h ⊢
      rcases List.mem_cons.mp hb with rfl | hb
      · exact absurd hrec hdue
      · exact ih h hb hdue
    · rw [if_neg hrec] at h ⊢
      cases hp : prepare rt t w actor actorType b' d with
      | error e =>
        rw [hp] at h
        cases h
      | ok r =>
        obtain ⟨o', audit⟩ := r
        rw [hp] at h
        have hbuilt := prepare_eq_ok hp
        by_cases hk : b.key = b'.key
        · have hstored : ∃ o ∈ (x.save o' (some audit)).2.observations.rows,
              o.id = observationId rt t w b.key := by
            cases hf : x.observations.find o'.id with
            | none =>
              refine ⟨o', Table.mem_setDefault.mpr (.inr ⟨rfl, hf⟩), ?_⟩
              rw [hbuilt.id, hk]
            | some o'' =>
              obtain ⟨hm, hid⟩ := Table.find_eq_some.mp hf
              refine ⟨o'', Table.mem_setDefault.mpr (.inl hm), ?_⟩
              rw [hid, hbuilt.id, hk]
          obtain ⟨o, ho, hid⟩ := hstored
          exact ⟨o, createAll_keeps ho, hid⟩
        · have hb' : b ∈ rest := by
            rcases List.mem_cons.mp hb with rfl | hb
            · exact absurd rfl hk
            · exact hb
          have hdue' : b.key ∉ b'.key :: existing := by
            rw [List.mem_cons, not_or]
            exact ⟨hk, hdue⟩
          simp only at h ⊢
          cases hr : (createAll rt t w actor actorType rest (b'.key :: existing)
              ((d.drop 1).tick 1) (x.save o' (some audit)).2).1 with
          | error e =>
            rw [hr] at h
            cases h
          | ok created' => exact ih hr hb' hdue'

/-- Name-based identifiers tell the observations of a run apart from each other and from the
stored ones. -/
structure NamesDistinct (rt : Runtime) (t w : UUID) (x : ObservationStore) : Prop where
  stored : ∀ b ∈ beliefs rt x.toLedger t w, ∀ o ∈ x.observations.rows,
    o.id = observationId rt t w b.key → o.tenantId = t ∧ o.workspaceId = w ∧ keyOf o = b.key
  due : ∀ b ∈ beliefs rt x.toLedger t w, ∀ b' ∈ beliefs rt x.toLedger t w,
    observationId rt t w b.key = observationId rt t w b'.key → b.key = b'.key

instance (rt : Runtime) (t w : UUID) (x : ObservationStore) : Decidable (NamesDistinct rt t w x) :=
  decidable_of_iff
    ((∀ b ∈ beliefs rt x.toLedger t w, ∀ o ∈ x.observations.rows,
      o.id = observationId rt t w b.key → o.tenantId = t ∧ o.workspaceId = w ∧ keyOf o = b.key) ∧
    ∀ b ∈ beliefs rt x.toLedger t w, ∀ b' ∈ beliefs rt x.toLedger t w,
      observationId rt t w b.key = observationId rt t w b'.key → b.key = b'.key)
    ⟨fun ⟨h₁, h₂⟩ => ⟨h₁, h₂⟩, fun h => ⟨h.stored, h.due⟩⟩

/-- The existing keys are those of the workspace's stored observations. -/
theorem mem_existingKeys {key : String} : key ∈ existingKeys t w x ↔
    ∃ o ∈ x.observations.rows, o.tenantId = t ∧ o.workspaceId = w ∧ keyOf o = key := by
  simp [existingKeys, ObservationStore.listObservations, and_assoc]

variable {k : String} {latest : MemoryItem} {created : List Observation}

/-- Unless it was recorded, a run that returns records the current value of a slot. -/
theorem reflect_current (hnames : NamesDistinct rt t w x)
    (h : (reflect rt t w actor actorType d x).1 = .ok created)
    (hlen : 2 ≤ (slotItems rt x.toLedger t w k).length)
    (hlatest : newestIn rt x.toLedger t w k = some latest)
    (hdue : currentKey rt x.toLedger t w k latest ∉ existingKeys t w x) :
    ∃ o ∈ (reflect rt t w actor actorType d x).2.observations.rows,
      x.observations.find o.id = none ∧ o.tenantId = t ∧ o.workspaceId = w ∧ o.stale = false ∧
        o.summary = latest.text := by
  obtain ⟨b, hb, hjudged, hstale, hkey⟩ := exists_current hlen hlatest
  rw [← hkey] at hdue
  have hfresh : ∀ o ∈ x.observations.rows, o.id ≠ observationId rt t w b.key := fun o ho hid =>
    hdue (mem_existingKeys.mpr ⟨o, ho, hnames.stored b hb o ho hid⟩)
  obtain ⟨o, ho, hid⟩ := createAll_stores h hb hdue
  refine ⟨o, ho, ?_⟩
  rcases createAll_adds ho with hold | ⟨hnew, b', hb', -, hbuilt⟩
  · exact absurd hid (hfresh o hold)
  · have hsame := hnames.due b' hb' b hb (hbuilt.id.symm.trans hid)
    obtain ⟨hsummary, -, hst⟩ := observationKey_inj hsame
    refine ⟨hnew, hbuilt.tenant, hbuilt.workspace, ?_, ?_⟩
    · rw [hbuilt.stale, hst, hstale]
    · rw [hbuilt.summary, hsummary, hjudged.summary]

/-- A new observation is about one value of a slot, and is current only for the newest value. -/
theorem reflect_adds (ho : o ∈ (reflect rt t w actor actorType d x).2.observations.rows) :
    o ∈ x.observations.rows ∨ x.observations.find o.id = none ∧
      ∃ k v latest newest b, Judged rt x.toLedger t w k v latest newest b ∧ Built rt t w b o ∧
        b.key ∉ existingKeys t w x := by
  rcases createAll_adds ho with hold | ⟨hnew, b, hb, hdue, hbuilt⟩
  · exact .inl hold
  · obtain ⟨k, v, latest, newest, hjudged⟩ := judged_of_mem hb
    exact .inr ⟨hnew, k, v, latest, newest, b, hjudged, hbuilt, hdue⟩

end Runs

section Current

variable {rt : Runtime} {l : Ledger} {t w : UUID} {k v : String} {latest newest : MemoryItem}
  {b : Belief}

/-- The newest item behind a judged belief is in the slot and says its value. -/
theorem Judged.newest_mem (h : Judged rt l t w k v latest newest b) :
    newest ∈ l.items.rows ∧ InSlot rt t w k newest ∧ (slotOf rt newest).value = v :=
  mem_valueItems.mp (List.argmax_mem h.lastOfValue)

/-- The summary lies in the judged slot and has the judged value. -/
theorem Judged.slot_summary (h : Judged rt l t w k v latest newest b) :
    (extractBeliefSlot rt.unicode b.summary).key = k ∧
      (extractBeliefSlot rt.unicode b.summary).value = v := by
  obtain ⟨-, hin, hv⟩ := h.newest_mem
  have hslot : slotOf rt newest = extractBeliefSlot rt.unicode b.summary := by
    rw [h.summary, slotOf]
  rw [← hslot]
  exact ⟨hin.key, hv⟩

/-- A belief that is not stale is about the newest memory of the slot. -/
theorem Judged.newest_eq (h : Judged rt l t w k v latest newest b) (hs : b.stale = false) :
    newest = latest := by
  have hid : newest.id = latest.id := by
    by_contra hne
    have htrue := h.stale.mpr hne
    rw [hs] at htrue
    cases htrue
  exact l.items.eq_of_key_eq h.newest_mem.1 (newestIn_eq_some h.last).1 hid

/-- The belief about a value is stale unless the newest memory of the slot has that value. -/
theorem Judged.stale_iff (h : Judged rt l t w k v latest newest b) :
    b.stale = true ↔ (slotOf rt latest).value ≠ v := by
  constructor
  · intro hs hv
    have hfirst : (valueItems rt l t w k v).argmax (fun i => i.createdAt) = some latest := by
      rw [valueItems_eq]
      exact List.argmax_filter h.last (decide_eq_true hv)
    rw [h.lastOfValue, Option.some.injEq] at hfirst
    exact h.stale.mp hs (by rw [hfirst])
  · intro hv
    by_contra hs
    rw [Bool.not_eq_true] at hs
    have hvalue := h.newest_mem.2.2
    rw [h.newest_eq hs] at hvalue
    exact hv hvalue

/-- A belief that is not stale has the key of the slot's current value. -/
theorem Judged.key_eq (h : Judged rt l t w k v latest newest b) (hs : b.stale = false) :
    b.key = currentKey rt l t w k latest := by
  obtain rfl := h.newest_eq hs
  unfold Belief.key currentKey
  rw [h.summary, h.evidence, hs, h.newest_mem.2.2]

end Current

end ReflectionService

end MemoryPlane
