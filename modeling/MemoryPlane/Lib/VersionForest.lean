import Mathlib.Data.List.MinMax
import Mathlib.Data.List.Nodup
import Mathlib.Logic.Relation

/-!
# Append-only version histories

Rows of an append-only history name the row they replace. A history is well formed when every
named row is present one rank below, and no row is replaced twice: the rows then form disjoint
chains, each with one last version. The file also follows such a chain by a loop with a
decreasing measure, and closes well-formedness under appending replacements of last versions.
-/

/-- How the rows of a history are identified, ranked and linked. -/
structure VersionScheme (α ι : Type) where
  /-- The identity of a row. -/
  id : α → ι
  /-- The row that this one replaces. -/
  parent : α → Option ι
  /-- The position of a row in its chain. -/
  rank : α → ℕ
  /-- What a version shares with the version it replaces. -/
  Same : α → α → Prop

namespace VersionScheme

open Relation

variable {α ι : Type} (V : VersionScheme α ι)

/-- `y` replaces `x` inside the history. -/
def Child (xs : List α) (x y : α) : Prop :=
  x ∈ xs ∧ y ∈ xs ∧ V.parent y = some (V.id x)

/-- Nothing in the history replaces `x`. -/
def Childless (xs : List α) (x : α) : Prop := ∀ y ∈ xs, V.parent y ≠ some (V.id x)

/-- Following replacements from `x` ends at the last version `h`. -/
def IsHead (xs : List α) (x h : α) : Prop :=
  ReflTransGen (V.Child xs) x h ∧ V.Childless xs h

/-- The rows form disjoint chains. -/
structure WellFormed (xs : List α) : Prop where
  /-- A row is known by its identity. -/
  ids : (xs.map V.id).Nodup
  /-- The replaced row is present, one rank below, and shares what it must. -/
  grounded : ∀ y ∈ xs, ∀ p, V.parent y = some p →
    ∃ x ∈ xs, V.id x = p ∧ V.rank y = V.rank x + 1 ∧ V.Same x y
  /-- No row is replaced twice. -/
  linear : ∀ y ∈ xs, ∀ z ∈ xs, ∀ p, V.parent y = some p → V.parent z = some p → y = z

variable {V} {xs ys : List α} {x y z h h' : α}

theorem wellFormed_nil : V.WellFormed [] := ⟨List.nodup_nil, by simp, by simp⟩

theorem WellFormed.eq_of_id_eq (hw : V.WellFormed xs) (hx : x ∈ xs) (hy : y ∈ xs)
    (he : V.id x = V.id y) : x = y :=
  List.inj_on_of_nodup_map hw.ids hx hy he

/-- A replacement stands one rank above what it replaces and shares what it must. -/
theorem WellFormed.child (hw : V.WellFormed xs) (hc : V.Child xs x y) :
    V.rank y = V.rank x + 1 ∧ V.Same x y := by
  obtain ⟨hx, hy, hp⟩ := hc
  obtain ⟨x', hx', hid, hrank, hsame⟩ := hw.grounded y hy _ hp
  obtain rfl := hw.eq_of_id_eq hx' hx hid
  exact ⟨hrank, hsame⟩

theorem WellFormed.child_unique (hw : V.WellFormed xs) (hy : V.Child xs x y)
    (hz : V.Child xs x z) : y = z :=
  hw.linear y hy.2.1 z hz.2.1 _ hy.2.2 hz.2.2

/-- Ranks grow along a chain. -/
theorem WellFormed.rank_lt (hw : V.WellFormed xs) (hc : TransGen (V.Child xs) x y) :
    V.rank x < V.rank y := by
  induction hc with
  | single hc => have := (hw.child hc).1; omega
  | tail _ hc ih => have := (hw.child hc).1; omega

/-- No row replaces itself, at any distance. -/
theorem WellFormed.acyclic (hw : V.WellFormed xs) (x : α) : ¬ TransGen (V.Child xs) x x :=
  fun hc => Nat.lt_irrefl _ (hw.rank_lt hc)

theorem not_childless (hc : V.Child xs x y) : ¬ V.Childless xs x :=
  fun hn => hn y hc.2.1 hc.2.2

/-- A chain has at most one last version above a row. -/
theorem WellFormed.isHead_unique (hw : V.WellFormed xs) (h₁ : V.IsHead xs x h)
    (h₂ : V.IsHead xs x h') : h = h' := by
  obtain ⟨hr, hn⟩ := h₁
  induction hr using ReflTransGen.head_induction_on with
  | refl =>
    rcases h₂.1.cases_head with rfl | ⟨y, hc, -⟩
    · rfl
    · exact absurd hn (not_childless hc)
  | head hc _ ih =>
    refine ih ⟨?_, h₂.2⟩
    rcases h₂.1.cases_head with rfl | ⟨y, hc', hr⟩
    · exact absurd h₂.2 (not_childless hc)
    · rwa [hw.child_unique hc hc']

/-- A row and its replacement end at the same last version. -/
theorem WellFormed.isHead_iff_of_child (hw : V.WellFormed xs) (hc : V.Child xs x y) :
    V.IsHead xs x h ↔ V.IsHead xs y h := by
  constructor
  · rintro ⟨hr, hn⟩
    rcases hr.cases_head with rfl | ⟨z, hc', hr⟩
    · exact absurd hn (not_childless hc)
    · rw [hw.child_unique hc hc']
      exact ⟨hr, hn⟩
  · rintro ⟨hr, hn⟩
    exact ⟨.head hc hr, hn⟩

/-- All rows of one chain, in either direction, end at the same last version. -/
theorem WellFormed.isHead_iff_of_chain (hw : V.WellFormed xs)
    (hc : EqvGen (V.Child xs) x y) : V.IsHead xs x h ↔ V.IsHead xs y h := by
  induction hc with
  | rel _ _ hc => exact hw.isHead_iff_of_child hc
  | refl _ => exact Iff.rfl
  | symm _ _ _ ih => exact ih.symm
  | trans _ _ _ _ _ ih₁ ih₂ => exact ih₁.trans ih₂

/-- The last version is the only unreplaced row of the whole chain. -/
theorem WellFormed.eq_head_of_chain (hw : V.WellFormed xs) (hh : V.IsHead xs x h)
    (hc : EqvGen (V.Child xs) x y) (hn : V.Childless xs y) : y = h :=
  hw.isHead_unique ⟨.refl, hn⟩ ((hw.isHead_iff_of_chain hc).mp hh)

theorem isHead_mem (hx : x ∈ xs) (hh : V.IsHead xs x h) : h ∈ xs := by
  rcases hh.1.cases_tail with rfl | ⟨_, _, hc⟩
  · exact hx
  · exact hc.2.1

/-- Fresh rows that start chains or replace distinct last versions keep the history well
formed. -/
theorem WellFormed.append (hw : V.WellFormed xs) (hids : ((xs ++ ys).map V.id).Nodup)
    (hpar : ∀ y ∈ ys, ∀ p, V.parent y = some p →
      ∃ x ∈ xs, V.id x = p ∧ V.rank y = V.rank x + 1 ∧ V.Same x y ∧ V.Childless xs x)
    (hdist : ∀ y ∈ ys, ∀ z ∈ ys, ∀ p, V.parent y = some p → V.parent z = some p → y = z) :
    V.WellFormed (xs ++ ys) := by
  have hclash : ∀ y ∈ xs, ∀ z ∈ ys, ∀ p, V.parent y = some p → V.parent z = some p → False := by
    intro y hy z hz p hp hq
    obtain ⟨x, -, rfl, -, -, hn⟩ := hpar z hz p hq
    exact hn y hy hp
  refine ⟨hids, ?_, ?_⟩
  · intro y hy p hp
    rcases List.mem_append.mp hy with hy | hy
    · obtain ⟨x, hx, hrest⟩ := hw.grounded y hy p hp
      exact ⟨x, List.mem_append_left _ hx, hrest⟩
    · obtain ⟨x, hx, hid, hrank, hsame, -⟩ := hpar y hy p hp
      exact ⟨x, List.mem_append_left _ hx, hid, hrank, hsame⟩
  · intro y hy z hz p hp hq
    rcases List.mem_append.mp hy with hy | hy <;> rcases List.mem_append.mp hz with hz | hz
    · exact hw.linear y hy z hz p hp hq
    · exact (hclash y hy z hz p hp hq).elim
    · exact (hclash z hz y hy p hq hp).elim
    · exact hdist y hy z hz p hp hq

section Closure

variable (V) [DecidableEq ι]

/-- Rows that replace a row of the given level. -/
def nextLevel (xs level : List α) : List α :=
  xs.filter fun y => level.any fun x => V.parent y = some (V.id x)

/-- The rows found by following replacements level by level, for a number of levels. -/
def closure (xs : List α) : ℕ → List α → List α
  | 0, _ => []
  | n + 1, level => level ++ closure xs n (V.nextLevel xs level)

variable {V}

theorem closure_subset {level : List α} (hl : level ⊆ xs) : ∀ n, V.closure xs n level ⊆ xs
  | 0 => by simp [closure]
  | n + 1 => by
    intro y hy
    rw [closure, List.mem_append] at hy
    rcases hy with hy | hy
    · exact hl hy
    · exact closure_subset (fun _ h => (List.mem_filter.mp h).1) n hy

end Closure

end VersionScheme

/-- The loop `while (c := next(x)) is not None: x = c`, for a step that lowers a measure. -/
def chase {α : Type} (next : α → Option α) (μ : α → ℕ)
    (hμ : ∀ x y, next x = some y → μ y < μ x) (x : α) : α :=
  match _h : next x with
  | none => x
  | some y => chase next μ hμ y
termination_by μ x
decreasing_by exact hμ x y _h

section Chase

variable {α : Type} {next : α → Option α} {μ : α → ℕ}
  {hμ : ∀ x y, next x = some y → μ y < μ x}

theorem chase_of_none {x : α} (h : next x = none) : chase next μ hμ x = x := by
  rw [chase]
  split
  · rfl
  · rename_i y hy
    rw [h] at hy
    cases hy

theorem chase_of_some {x y : α} (h : next x = some y) :
    chase next μ hμ x = chase next μ hμ y := by
  rw [chase]
  split
  · rename_i hn
    rw [h] at hn
    cases hn
  · rename_i z hz
    rw [h] at hz
    cases hz
    rfl

variable (next μ hμ) in
/-- The loop only takes steps, and it stops where no step is possible. -/
theorem chase_spec (x : α) :
    Relation.ReflTransGen (fun a b => next a = some b) x (chase next μ hμ x) ∧
      next (chase next μ hμ x) = none := by
  induction hn : μ x using Nat.strongRecOn generalizing x with
  | ind n ih =>
    cases h : next x with
    | none =>
      rw [chase_of_none h]
      exact ⟨.refl, h⟩
    | some y =>
      rw [chase_of_some h]
      have hlt : μ y < n := hn ▸ hμ x y h
      obtain ⟨hr, he⟩ := ih (μ y) hlt y rfl
      exact ⟨.head h hr, he⟩

end Chase
