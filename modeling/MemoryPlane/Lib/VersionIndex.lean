import MemoryPlane.Lib.VersionForest
import Mathlib.Data.Set.Basic

/-!
# Indexes of a version history

A secondary index is a set of versions kept up to date by processing versions one at a time:
a live version is inserted, a dead one removed, and in both cases the version that it replaces
is removed. Deliveries may repeat and come in any order. The file says what is left after a
log of deliveries, when that is exactly the live last versions, and what a bulk replacement in
between forgets.
-/

namespace VersionScheme

variable {α ι : Type} (V : VersionScheme α ι) (live : α → Prop)

/-- The index after one delivery. -/
def deliver (I : Set α) (x : α) : Set α :=
  {y | (y = x ∧ live x ∨ y ∈ I ∧ V.id y ≠ V.id x) ∧ V.parent x ≠ some (V.id y)}

/-- The index after a log of deliveries. -/
def deliverAll (I : Set α) (log : List α) : Set α := log.foldl (V.deliver live) I

variable {V live} {I : Set α} {log rows : List α} {x y : α}

@[simp] theorem deliverAll_nil : V.deliverAll live I [] = I := rfl

theorem deliverAll_append (log log' : List α) :
    V.deliverAll live I (log ++ log') = V.deliverAll live (V.deliverAll live I log) log' :=
  List.foldl_append

theorem mem_deliver : y ∈ V.deliver live I x ↔
    (y = x ∧ live x ∨ y ∈ I ∧ V.id y ≠ V.id x) ∧ V.parent x ≠ some (V.id y) := Iff.rfl

/-- What an index holds was there at first or was delivered. -/
theorem mem_of_mem_deliverAll (h : y ∈ V.deliverAll live I log) : y ∈ I ∨ y ∈ log := by
  induction log using List.reverseRecOn with
  | nil => exact .inl h
  | append_singleton log x ih =>
    rw [deliverAll_append, deliverAll, List.foldl_cons, List.foldl_nil, mem_deliver] at h
    rcases h.1 with ⟨rfl, -⟩ | ⟨hI, -⟩
    · exact .inr (List.mem_append_right _ (List.mem_singleton.mpr rfl))
    · exact (ih hI).imp_right (List.mem_append_left _)

/-- A row of a well-formed history does not replace itself. -/
theorem WellFormed.parent_ne_self (hw : V.WellFormed rows) (hx : x ∈ rows) :
    V.parent x ≠ some (V.id x) := by
  intro hp
  have := (hw.child ⟨hx, hx, hp⟩).1
  omega

/-- A version is in the index exactly when, since its last delivery, none that replaces it was
delivered; or it was there at first and was never touched. -/
theorem WellFormed.mem_deliverAll (hw : V.WellFormed rows) (hlog : ∀ x ∈ log, x ∈ rows)
    (hy : y ∈ rows) :
    y ∈ V.deliverAll live I log ↔
      (live y ∧ ∃ l₁ l₂, log = l₁ ++ y :: l₂ ∧ ∀ z ∈ l₂, V.parent z ≠ some (V.id y)) ∨
        (y ∈ I ∧ y ∉ log ∧ ∀ z ∈ log, V.parent z ≠ some (V.id y)) := by
  induction log using List.reverseRecOn with
  | nil => simp
  | append_singleton log x ih =>
    have hx : x ∈ rows := hlog x (List.mem_append_right _ (List.mem_singleton.mpr rfl))
    have ih := ih fun z hz => hlog z (List.mem_append_left _ hz)
    rw [deliverAll_append, deliverAll, List.foldl_cons, List.foldl_nil, mem_deliver, ih]
    by_cases hyx : y = x
    · subst hyx
      constructor
      · rintro ⟨⟨-, hl⟩ | ⟨-, hne⟩, -⟩
        · exact .inl ⟨hl, log, [], rfl, by simp⟩
        · exact absurd rfl hne
      · rintro (⟨hl, -⟩ | ⟨-, hn, -⟩)
        · exact ⟨.inl ⟨rfl, hl⟩, hw.parent_ne_self hy⟩
        · exact absurd (List.mem_append_right _ (List.mem_singleton.mpr rfl)) hn
    · have hid : V.id y ≠ V.id x := fun he => hyx (hw.eq_of_id_eq hy hx he)
      constructor
      · rintro ⟨⟨he, -⟩ | ⟨⟨hl, l₁, l₂, rfl, hno⟩ | ⟨hI, hn, hno⟩, -⟩, hp⟩
        · exact absurd he hyx
        · refine .inl ⟨hl, l₁, l₂ ++ [x], by simp, fun z hz => ?_⟩
          rcases List.mem_append.mp hz with hz | hz
          · exact hno z hz
          · rw [List.mem_singleton.mp hz]
            exact hp
        · refine .inr ⟨hI, ?_, fun z hz => ?_⟩
          · simp [hn, hyx]
          · rcases List.mem_append.mp hz with hz | hz
            · exact hno z hz
            · rw [List.mem_singleton.mp hz]
              exact hp
      · rintro (⟨hl, l₁, l₂, he, hno⟩ | ⟨hI, hn, hno⟩)
        · -- the last delivery is not of `y`, so it belongs to the part after it
          rcases List.eq_nil_or_concat l₂ with rfl | ⟨l₂', z, rfl⟩
          · have hlast : x = y := by
              have := congrArg List.getLast? he
              simpa using this
            exact absurd hlast.symm hyx
          · have hsplit : log ++ [x] = (l₁ ++ y :: l₂') ++ [z] := by rw [he]; simp
            obtain ⟨hlog', hz⟩ := List.append_inj' hsplit rfl
            obtain rfl : x = z := List.singleton_inj.mp hz
            refine ⟨.inr ⟨.inl ⟨hl, l₁, l₂', hlog', fun w hw' => ?_⟩, hid⟩, ?_⟩
            · exact hno w (by simp [hw'])
            · exact hno x (by simp)
        · refine ⟨.inr ⟨.inr ⟨hI, ?_, fun z hz => hno z (List.mem_append_left _ hz)⟩, hid⟩, ?_⟩
          · exact fun hm => hn (List.mem_append_left _ hm)
          · exact hno x (List.mem_append_right _ (List.mem_singleton.mpr rfl))

/-- The live last versions. -/
def Heads (V : VersionScheme α ι) (live : α → Prop) (rows : List α) : Set α :=
  {x | x ∈ rows ∧ live x ∧ V.Childless rows x}

variable (live) in
/-- Once every row was delivered, the index holds exactly the live last versions if and only if
each delivery of a live replaced version is followed by one of a version that replaces it. -/
theorem WellFormed.deliverAll_eq_heads_iff (hw : V.WellFormed rows)
    (hlog : ∀ x ∈ log, x ∈ rows) (hall : ∀ x ∈ rows, x ∈ log) :
    (∀ y ∈ rows, y ∈ V.deliverAll live ∅ log ↔ y ∈ V.Heads live rows) ↔
      ∀ x ∈ rows, live x → ¬ V.Childless rows x → ∀ l₁ l₂, log = l₁ ++ x :: l₂ →
        ∃ z ∈ l₂, V.parent z = some (V.id x) := by
  have hmem : ∀ y ∈ rows, y ∈ V.deliverAll live ∅ log ↔
      live y ∧ ∃ l₁ l₂, log = l₁ ++ y :: l₂ ∧ ∀ z ∈ l₂, V.parent z ≠ some (V.id y) := by
    intro y hy
    rw [hw.mem_deliverAll hlog hy]
    simp
  constructor
  · intro h x hx hl hn l₁ l₂ he
    by_contra hno
    have hin : x ∈ V.deliverAll live ∅ log :=
      (hmem x hx).mpr ⟨hl, l₁, l₂, he, fun z hz hp => hno ⟨z, hz, hp⟩⟩
    exact hn ((h x hx).mp hin).2.2
  · intro h y hy
    rw [hmem y hy]
    constructor
    · rintro ⟨hl, l₁, l₂, he, hno⟩
      refine ⟨hy, hl, ?_⟩
      by_contra hn
      obtain ⟨z, hz, hp⟩ := h y hy hl hn l₁ l₂ he
      exact hno z hz hp
    · rintro ⟨-, hl, hc⟩
      obtain ⟨l₁, l₂, he⟩ := List.append_of_mem (hall y hy)
      refine ⟨hl, l₁, l₂, he, fun z hz => hc z (hlog z ?_)⟩
      rw [he]
      simp [hz]

/-- The index after the part `W` of it was replaced by `H`. -/
def replacePart (I W H : Set α) : Set α := H ∪ (I \ W)

/-- A live version that nothing delivered replaces is kept by deliveries, and gained by its
own. -/
theorem WellFormed.mem_deliverAll_of_head (hw : V.WellFormed rows) (hlog : ∀ x ∈ log, x ∈ rows)
    (hy : y ∈ V.Heads live rows) :
    y ∈ V.deliverAll live I log ↔ y ∈ log ∨ y ∈ I := by
  obtain ⟨hm, hl, hc⟩ := hy
  rw [hw.mem_deliverAll hlog hm]
  constructor
  · rintro (⟨-, l₁, l₂, rfl, -⟩ | ⟨hI, -⟩)
    · exact .inl (by simp)
    · exact .inr hI
  · intro h
    by_cases hin : y ∈ log
    · obtain ⟨l₁, l₂, rfl⟩ := List.append_of_mem hin
      exact .inl ⟨hl, l₁, l₂, rfl, fun z hz => hc z (hlog z (by simp [hz]))⟩
    · rcases h with h | h
      · exact absurd h hin
      · exact .inr ⟨h, hin, fun z hz => hc z (hlog z hz)⟩

/-- Deliveries around a replacement of `W` by `H`: a live last version is in the index at the end
exactly when it was delivered after the replacement, is in `H`, or lies outside `W` and was
delivered or indexed before. -/
theorem WellFormed.mem_replacePart_iff (hw : V.WellFormed rows) {log' : List α} {W H : Set α}
    (hlog : ∀ x ∈ log, x ∈ rows) (hlog' : ∀ x ∈ log', x ∈ rows) (hy : y ∈ V.Heads live rows) :
    y ∈ V.deliverAll live (replacePart (V.deliverAll live I log) W H) log' ↔
      y ∈ log' ∨ y ∈ H ∨ (y ∉ W ∧ (y ∈ log ∨ y ∈ I)) := by
  rw [hw.mem_deliverAll_of_head hlog' hy, replacePart, Set.mem_union, Set.mem_sdiff,
    hw.mem_deliverAll_of_head hlog hy]
  constructor
  · rintro (h | h | ⟨h, hW⟩)
    · exact .inl h
    · exact .inr (.inl h)
    · exact .inr (.inr ⟨hW, h⟩)
  · rintro (h | h | ⟨hW, h⟩)
    · exact .inl h
    · exact .inr (.inl h)
    · exact .inr (.inr ⟨h, hW⟩)

end VersionScheme
