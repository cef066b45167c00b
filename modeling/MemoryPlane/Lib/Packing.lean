import Mathlib.Algebra.BigOperators.Group.List.Basic
import Mathlib.Algebra.GroupWithZero.Nat
import Mathlib.Data.List.Induction
import Mathlib.Data.List.Nodup

/-!
# Greedy packing

A list is gone through once, and an element is kept when it may join the ones kept before and its
cost still fits the budget. What is kept costs no more than the budget, stands in the order of the
list, and leaves out no element that could have joined when its turn came. What is kept under a
loose bound is within a tight one exactly when no element is left out under the tight bound alone.
-/

namespace MemoryPlane

namespace Packing

variable {α : Type} (cost : α → ℕ) (budget : ℕ) (may : List α → α → Prop)
  [∀ kept x, Decidable (may kept x)]

/-- What the elements cost together. -/
def total (kept : List α) : ℕ := (kept.map cost).sum

/-- The element may join the kept ones, and its cost fits. -/
def Joins (kept : List α) (x : α) : Prop := may kept x ∧ total cost kept + cost x ≤ budget

instance (kept : List α) (x : α) : Decidable (Joins cost budget may kept x) :=
  inferInstanceAs (Decidable (_ ∧ _))

/-- Keep the element if it joins. -/
def step (kept : List α) (x : α) : List α :=
  if Joins cost budget may kept x then kept ++ [x] else kept

/-- Go on with more elements. -/
def packFrom (kept xs : List α) : List α := xs.foldl (step cost budget may) kept

/-- Go through a list from the beginning. -/
def pack (xs : List α) : List α := packFrom cost budget may [] xs

variable {cost budget may} {kept xs pre post : List α} {x : α}

/-- Nothing costs nothing. -/
@[simp] theorem total_nil : total cost ([] : List α) = 0 := rfl

/-- The cost of two lists is the sum of theirs. -/
@[simp] theorem total_append (xs ys : List α) :
    total cost (xs ++ ys) = total cost xs + total cost ys := by simp [total]

/-- One element costs what it costs. -/
@[simp] theorem total_singleton (x : α) : total cost [x] = cost x := by simp [total]

/-- Without candidates the kept ones remain. -/
@[simp] theorem packFrom_nil : packFrom cost budget may kept [] = kept := rfl

/-- The first candidate is decided before the others. -/
theorem packFrom_cons : packFrom cost budget may kept (x :: xs) =
    packFrom cost budget may (step cost budget may kept x) xs := rfl

/-- Candidates are decided in their order, list after list. -/
theorem packFrom_append (xs ys : List α) : packFrom cost budget may kept (xs ++ ys) =
    packFrom cost budget may (packFrom cost budget may kept xs) ys := List.foldl_append

/-- Packing two lists goes on with what the first one kept. -/
theorem pack_append (xs ys : List α) : pack cost budget may (xs ++ ys) =
    packFrom cost budget may (pack cost budget may xs) ys := packFrom_append xs ys

/-- A candidate that may join is kept at the end. -/
theorem step_of_joins (h : Joins cost budget may kept x) :
    step cost budget may kept x = kept ++ [x] := if_pos h

/-- A candidate that may not join changes nothing. -/
theorem step_of_not_joins (h : ¬ Joins cost budget may kept x) :
    step cost budget may kept x = kept := if_neg h

/-- A single candidate that may join is kept. -/
theorem pack_singleton (h : Joins cost budget may [] x) : pack cost budget may [x] = [x] :=
  step_of_joins h

/-- What is kept stays, and more is kept in the order of the list. -/
theorem packFrom_sublist (kept xs : List α) :
    ∃ new, packFrom cost budget may kept xs = kept ++ new ∧ new.Sublist xs := by
  induction xs generalizing kept with
  | nil => exact ⟨[], by simp, List.Sublist.refl _⟩
  | cons x xs ih =>
    rw [packFrom_cons]
    by_cases h : Joins cost budget may kept x
    · obtain ⟨new, hnew, hsub⟩ := ih (kept ++ [x])
      refine ⟨x :: new, ?_, hsub.cons_cons x⟩
      rw [step_of_joins h, hnew, List.append_assoc]
      rfl
    · obtain ⟨new, hnew, hsub⟩ := ih kept
      exact ⟨new, by rw [step_of_not_joins h, hnew], hsub.cons x⟩

/-- Packing keeps the order and repeats nothing. -/
theorem pack_sublist (xs : List α) : (pack cost budget may xs).Sublist xs := by
  obtain ⟨new, hnew, hsub⟩ : ∃ new, packFrom cost budget may [] xs = [] ++ new ∧ new.Sublist xs :=
    packFrom_sublist [] xs
  rw [pack, hnew]
  exact hsub

/-- No decision exceeds the budget. -/
theorem total_step_le (h : total cost kept ≤ budget) :
    total cost (step cost budget may kept x) ≤ budget := by
  by_cases hjoins : Joins cost budget may kept x
  · rw [step_of_joins hjoins, total_append, total_singleton]
    exact hjoins.2
  · rw [step_of_not_joins hjoins]
    exact h

/-- What is kept costs no more than the budget. -/
theorem total_pack_le (xs : List α) : total cost (pack cost budget may xs) ≤ budget := by
  have hfrom : ∀ kept, total cost kept ≤ budget →
      total cost (packFrom cost budget may kept xs) ≤ budget := by
    induction xs with
    | nil => exact fun kept h => h
    | cons x xs ih => exact fun kept h => ih _ (total_step_le h)
  exact hfrom [] (Nat.zero_le _)

/-- An invariant that every joining element keeps holds of what is kept. -/
theorem pack_induction {P : List α → Prop} (xs : List α) (hnil : P [])
    (hjoin : ∀ kept x, x ∈ xs → P kept → Joins cost budget may kept x → P (kept ++ [x])) :
    P (pack cost budget may xs) := by
  have hfrom : ∀ ys ⊆ xs, ∀ kept, P kept → P (packFrom cost budget may kept ys) := by
    intro ys
    induction ys with
    | nil => exact fun _ kept h => h
    | cons y ys ih =>
      intro hsub kept h
      rw [packFrom_cons]
      apply ih (fun z hz => hsub (List.mem_cons_of_mem _ hz))
      by_cases hjoins : Joins cost budget may kept y
      · rw [step_of_joins hjoins]
        exact hjoin kept y (hsub (List.mem_cons_self ..)) h hjoins
      · rw [step_of_not_joins hjoins]
        exact h
  exact hfrom xs (List.Subset.refl _) [] hnil

section Bounds

variable (may) (fits : List α → Prop) [DecidablePred fits]

/-- Keep the element if it may join and the kept ones stay within a bound. -/
def offer (kept : List α) (x : α) : List α :=
  if may kept x ∧ fits (kept ++ [x]) then kept ++ [x] else kept

/-- Go through a list under a bound. -/
def gather (xs : List α) : List α := xs.foldl (offer may fits) []

variable {may fits}

/-- The last candidate is decided on what the others left. -/
theorem gather_append_singleton (xs : List α) (x : α) :
    gather may fits (xs ++ [x]) = offer may fits (gather may fits xs) x := by
  rw [gather, List.foldl_append, List.foldl_cons, List.foldl_nil]
  rfl

/-- The budget is a bound. -/
theorem pack_eq_gather (xs : List α) :
    pack cost budget may xs = gather may (fun kept => total cost kept ≤ budget) xs := by
  have hstep : step cost budget may = offer may fun kept => total cost kept ≤ budget := by
    ext kept x : 2
    rw [step, offer, total_append, total_singleton]
    rfl
  rw [pack, packFrom, hstep]
  rfl

variable {tight loose : List α → Prop} [DecidablePred tight]

/-- What is gathered under a bound obeys it. -/
theorem tight_gather (hnil : tight []) (xs : List α) : tight (gather may tight xs) := by
  induction xs using List.reverseRecOn with
  | nil => exact hnil
  | append_singleton xs x ih =>
    rw [gather_append_singleton, offer]
    split
    · rename_i h
      exact h.2
    · exact ih

variable (may tight loose) in
/-- No element that may join is left out under the tight bound and within the loose one. -/
def Agree (xs : List α) : Prop := ∀ pre x post, xs = pre ++ x :: post →
  may (gather may tight pre) x → loose (gather may tight pre ++ [x]) →
    tight (gather may tight pre ++ [x])

/-- Two bounds that agree along a list agree along its front. -/
theorem Agree.of_append {xs ys : List α} (h : Agree may tight loose (xs ++ ys)) :
    Agree may tight loose xs := by
  rintro pre x post rfl
  exact h pre x (post ++ ys) (by rw [List.append_assoc, List.cons_append])

variable [DecidablePred loose]

omit [DecidablePred tight] in
/-- What was kept of the beginning of a list stays within a bound that all of it is within. -/
theorem tight_of_gather_append (htight : ∀ kept x, tight (kept ++ [x]) → tight kept)
    (xs ys : List α) (h : tight (gather may loose (xs ++ ys))) : tight (gather may loose xs) := by
  induction ys using List.reverseRecOn with
  | nil => rwa [List.append_nil] at h
  | append_singleton ys y ih =>
    apply ih
    rw [← List.append_assoc, gather_append_singleton, offer] at h
    split at h
    · exact htight _ _ h
    · exact h

/-- Bounds that agree on every decision gather the same elements. -/
theorem Agree.gather_eq (hle : ∀ kept, tight kept → loose kept) {xs : List α}
    (h : Agree may tight loose xs) : gather may loose xs = gather may tight xs := by
  induction xs using List.reverseRecOn with
  | nil => rfl
  | append_singleton xs x ih =>
    rw [gather_append_singleton, gather_append_singleton, ih h.of_append, offer, offer]
    by_cases hmay : may (gather may tight xs) x
    · have hiff : loose (gather may tight xs ++ [x]) ↔ tight (gather may tight xs ++ [x]) :=
        ⟨h xs x [] rfl hmay, hle _⟩
      simp only [hiff]
    · rw [if_neg fun hboth => hmay hboth.1, if_neg fun hboth => hmay hboth.1]

/-- What is kept under the loose bound is within the tight one exactly when no element is left out
under the tight bound alone. -/
theorem tight_gather_iff (hnil : tight []) (htight : ∀ kept x, tight (kept ++ [x]) → tight kept)
    (hle : ∀ kept, tight kept → loose kept) {xs : List α} :
    tight (gather may loose xs) ↔ Agree may tight loose xs := by
  constructor
  · intro h
    induction xs using List.reverseRecOn with
    | nil =>
      rintro pre x post hnone
      simp at hnone
    | append_singleton xs x ih =>
      have hxs := ih (tight_of_gather_append htight xs [x] h)
      rw [gather_append_singleton, hxs.gather_eq hle, offer] at h
      rintro pre y post hsplit hmay hloose
      obtain ⟨rfl, hlast⟩ | ⟨post', rfl, hfront⟩ : (pre = xs ∧ y = x) ∨
          ∃ post', post = post' ++ [x] ∧ xs = pre ++ y :: post' := by
        cases post using List.reverseRecOn with
        | nil =>
          obtain ⟨hpre, hy⟩ := List.append_inj' hsplit rfl
          exact .inl ⟨hpre.symm, (List.singleton_inj.mp hy).symm⟩
        | append_singleton post z =>
          rw [← List.cons_append, ← List.append_assoc] at hsplit
          obtain ⟨hpre, hz⟩ := List.append_inj' hsplit rfl
          exact .inr ⟨post, by rw [List.singleton_inj.mp hz], hpre⟩
      · subst hlast
        rw [if_pos ⟨hmay, hloose⟩] at h
        exact h
      · exact hxs pre y post' hfront hmay hloose
  · intro h
    rw [h.gather_eq hle]
    exact tight_gather hnil xs

end Bounds

variable [DecidableEq α]

/-- A sublist of a list without repetitions is what the list has of it. -/
theorem eq_filter_of_sublist {ys : List α} (h : xs.Sublist ys) (hn : ys.Nodup) :
    xs = ys.filter fun x => x ∈ xs := by
  have hself : xs.filter (fun x => x ∈ xs) = xs := by
    rw [List.filter_eq_self]
    exact fun x hx => decide_eq_true hx
  have hsub : xs.Sublist (ys.filter fun x => x ∈ xs) := by
    rw [← hself]
    convert h.filter fun x => x ∈ xs using 3
    simp [hself]
  apply hsub.eq_of_length_le
  apply (List.subperm_of_subset (hn.filter _) _).length_le
  intro x hx
  simpa using (List.mem_filter.mp hx).2

/-- What was kept of the beginning of a list is what is kept of it in the end. -/
theorem pack_prefix (hn : (pre ++ post).Nodup) :
    pack cost budget may pre = pre.filter fun x => x ∈ pack cost budget may (pre ++ post) := by
  obtain ⟨new, hnew, hsub⟩ : ∃ new, packFrom cost budget may (pack cost budget may pre) post =
      pack cost budget may pre ++ new ∧ new.Sublist post := packFrom_sublist _ post
  have hkept : (pack cost budget may pre).Sublist pre := pack_sublist pre
  obtain ⟨hpre, -, hapart⟩ := List.nodup_append.mp hn
  have hmem : ∀ x ∈ pre, x ∈ pack cost budget may (pre ++ post) ↔ x ∈ pack cost budget may pre := by
    intro x hx
    rw [pack_append, hnew, List.mem_append]
    constructor
    · rintro (h | h)
      · exact h
      · exact absurd rfl (hapart x hx x (hsub.subset h))
    · exact .inl
  have hfilter : (pre.filter fun x => x ∈ pack cost budget may (pre ++ post)) =
      pre.filter fun x => x ∈ pack cost budget may pre :=
    List.filter_congr fun x hx => decide_eq_decide.mpr (hmem x hx)
  rw [hfilter]
  exact eq_filter_of_sublist hkept hpre

/-- An element of a list without repetitions is left out when it could not join the ones kept
before its turn. -/
theorem not_joins_of_not_mem (hn : (pre ++ x :: post).Nodup)
    (hx : x ∉ pack cost budget may (pre ++ x :: post)) :
    ¬ Joins cost budget may
      (pre.filter fun y => y ∈ pack cost budget may (pre ++ x :: post)) x := by
  rw [← pack_prefix hn]
  intro hjoins
  apply hx
  obtain ⟨new, hnew, -⟩ : ∃ new, packFrom cost budget may (pack cost budget may pre ++ [x]) post =
      (pack cost budget may pre ++ [x]) ++ new ∧ new.Sublist post := packFrom_sublist _ post
  rw [pack_append, packFrom_cons, step_of_joins hjoins, hnew]
  simp

end Packing

end MemoryPlane
