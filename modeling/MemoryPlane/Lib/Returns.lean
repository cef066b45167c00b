import Mathlib.Data.List.Forall2
import MemoryPlane.Lib.Proc

/-!
# Computations that return

A computation returns if it does not raise. Whether a sequence returns depends on its parts only
through their results, and a list of computations returns if each of them does.
-/

namespace Except

variable {ε α β γ : Type}

/-- The computation does not raise. -/
def Returns (x : Except ε α) : Prop := ∃ a, x = .ok a

@[simp] theorem returns_ok (a : α) : (Except.ok a : Except ε α).Returns := ⟨a, rfl⟩

@[simp] theorem returns_pure (a : α) : (pure a : Except ε α).Returns := ⟨a, rfl⟩

@[simp] theorem not_returns_error (e : ε) : ¬ (Except.error e : Except ε α).Returns := by
  rintro ⟨a, h⟩
  cases h

theorem returns_bind {x : Except ε α} {f : α → Except ε β} :
    (x >>= f).Returns ↔ ∃ a, x = .ok a ∧ (f a).Returns := by
  constructor
  · rintro ⟨b, h⟩
    obtain ⟨a, hx, hf⟩ := Except.bind_eq_ok.mp h
    exact ⟨a, hx, b, hf⟩
  · rintro ⟨a, rfl, h⟩
    exact h

/-- What follows always returns. -/
theorem returns_bind_of_forall {x : Except ε α} {f : α → Except ε β} (h : ∀ a, (f a).Returns) :
    (x >>= f).Returns ↔ x.Returns := by
  rw [returns_bind]
  exact ⟨fun ⟨a, hx, _⟩ => ⟨a, hx⟩, fun ⟨a, hx⟩ => ⟨a, hx, h a⟩⟩

/-- What follows does not depend on what comes first. -/
theorem returns_bind_iff_and {x : Except ε α} {f : α → Except ε β} {P : Prop}
    (h : ∀ a, x = .ok a → ((f a).Returns ↔ P)) : (x >>= f).Returns ↔ x.Returns ∧ P := by
  rw [returns_bind]
  constructor
  · rintro ⟨a, hx, hf⟩
    exact ⟨⟨a, hx⟩, (h a hx).mp hf⟩
  · rintro ⟨⟨a, hx⟩, hp⟩
    exact ⟨a, hx, (h a hx).mpr hp⟩

/-- What comes first always returns. -/
theorem returns_bind_of_returns {x : Except ε α} {f : α → Except ε β} {P : Prop}
    (hx : x.Returns) (h : ∀ a, (f a).Returns ↔ P) : (x >>= f).Returns ↔ P := by
  rw [returns_bind_iff_and fun a _ => h a, and_iff_right hx]

theorem returns_mapM {f : α → Except ε β} (xs : List α) :
    (xs.mapM f).Returns ↔ ∀ x ∈ xs, (f x).Returns := by
  induction xs with
  | nil => simp
  | cons x xs ih =>
    rw [List.mapM_cons, returns_bind_iff_and fun y _ => returns_bind_of_forall fun ys =>
      returns_pure _, ih, List.forall_mem_cons]

/-- The results of a list of computations, one by one. -/
theorem forall₂_of_mapM {f : α → Except ε β} {xs : List α} {ys : List β}
    (h : xs.mapM f = .ok ys) : List.Forall₂ (fun x y => f x = .ok y) xs ys := by
  induction xs generalizing ys with
  | nil =>
    cases h
    exact .nil
  | cons x xs ih =>
    rw [List.mapM_cons] at h
    obtain ⟨y, hx, h⟩ := Except.bind_eq_ok.mp h
    obtain ⟨zs, hxs, h⟩ := Except.bind_eq_ok.mp h
    cases h
    exact .cons hx (ih hxs)

end Except
