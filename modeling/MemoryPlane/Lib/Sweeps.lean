import Mathlib.Data.Nat.Find

/-!
# Sweeps

A sweep handles some of the pending entries of a state and says which. Called again and again, it
comes to a call that handles nothing, and from there on the state stays.
-/

namespace MemoryPlane

namespace Sweeps

variable {σ ι : Type} (sweep : σ → List ι × σ)

/-- The state after so many calls. -/
def after (s : σ) : ℕ → σ
  | 0 => s
  | n + 1 => (sweep (after s n)).2

variable {sweep} {s : σ} {n : ℕ}

/-- What holds at first and is kept by each call holds after every number of calls. -/
theorem after_induction {P : σ → Prop} (hs : P s) (hstep : ∀ t, P t → P (sweep t).2) (n : ℕ) :
    P (after sweep s n) := by
  induction n with
  | zero => exact hs
  | succ n ih => exact hstep _ ih

/-- Where each call takes what it handles off the pending entries, some call handles nothing, and
all before it handle something. -/
theorem exists_idle (pending : σ → ℕ)
    (hpending : ∀ t, pending (sweep t).2 + (sweep t).1.length = pending t) (s : σ) :
    ∃ n, (sweep (after sweep s n)).1 = [] ∧ ∀ k < n, (sweep (after sweep s k)).1 ≠ [] := by
  have hcount : ∀ n, (∀ k < n, (sweep (after sweep s k)).1 ≠ []) →
      pending (after sweep s n) + n ≤ pending s := by
    intro n
    induction n with
    | zero => exact fun _ => Nat.le_refl _
    | succ n ih =>
      intro hbusy
      have hle := ih fun k hk => hbusy k (Nat.lt_succ_of_lt hk)
      have hpos := List.length_pos_iff.mpr (hbusy n (Nat.lt_succ_self n))
      have hstep := hpending (after sweep s n)
      rw [after]
      omega
  have hidle : ∃ n, (sweep (after sweep s n)).1 = [] := by
    by_contra hnone
    have hbusy : ∀ n, (sweep (after sweep s n)).1 ≠ [] := fun n h => hnone ⟨n, h⟩
    have hle := hcount (pending s + 1) fun k _ => hbusy k
    omega
  classical
  exact ⟨Nat.find hidle, Nat.find_spec hidle, fun k hk => Nat.find_min hidle hk⟩

end Sweeps

end MemoryPlane
