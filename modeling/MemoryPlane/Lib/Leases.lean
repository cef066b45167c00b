import Mathlib.Order.Lattice
import Mathlib.Data.Option.Basic

/-!
# Leases

A lease names its owner and the last moment of its term. It can be granted while nobody holds it
or after its term; before that only its owner gives it up, whatever the others do.
-/

/-- Owner and end of term, both absent while nobody holds the lease. -/
structure Lease (ω τ : Type) where
  owner : Option ω
  expires : Option τ
  deriving DecidableEq

namespace Lease

variable {ω τ : Type}

/-- The lease that nobody holds. -/
def free : Lease ω τ := ⟨none, none⟩

/-- The lease that a party holds until a moment. -/
def granted (w : ω) (u : τ) : Lease ω τ := ⟨some w, some u⟩

@[simp] theorem owner_free : (free : Lease ω τ).owner = none := rfl

@[simp] theorem expires_free : (free : Lease ω τ).expires = none := rfl

@[simp] theorem owner_granted (w : ω) (u : τ) : (granted w u).owner = some w := rfl

@[simp] theorem expires_granted (w : ω) (u : τ) : (granted w u).expires = some u := rfl

variable [LinearOrder τ] {l l' : Lease ω τ} {now later : τ} {v w : ω}

/-- The lease has no term or its term is over. -/
def Available (l : Lease ω τ) (now : τ) : Prop := ∀ u ∈ l.expires, u < now

instance (l : Lease ω τ) (now : τ) : Decidable (l.Available now) := by
  unfold Available
  infer_instance

/-- The term of the lease is not over. -/
def Unexpired (l : Lease ω τ) (now : τ) : Prop := ∃ u ∈ l.expires, now ≤ u

/-- A party holds the lease and its term is not over. -/
def HeldBy (l : Lease ω τ) (w : ω) (now : τ) : Prop := l.owner = some w ∧ l.Unexpired now

theorem unexpired_iff : l.Unexpired now ↔ ¬ l.Available now := by
  simp [Unexpired, Available]

theorem Available.mono (h : l.Available now) (hle : now ≤ later) : l.Available later :=
  fun u hu => (h u hu).trans_le hle

/-- What one party can do to a lease: leave it, give up its own, or be granted one that is
available. -/
inductive Step (w : ω) (now : τ) : Lease ω τ → Lease ω τ → Prop
  | stays (l : Lease ω τ) : Step w now l l
  | returned (l : Lease ω τ) (own : l.owner = some w) : Step w now l free
  | taken (l : Lease ω τ) (u : τ) (available : l.Available now) : Step w now l (granted w u)

/-- An unexpired lease outlives what the others do. -/
theorem Step.eq_of_heldBy (h : Step v now l l') (hw : l.HeldBy w now) (hne : v ≠ w) : l' = l := by
  cases h with
  | stays => rfl
  | returned own => exact absurd (Option.some.inj (own.symm.trans hw.1)) hne
  | taken u available => exact absurd available (unexpired_iff.mp hw.2)

end Lease
