import Mathlib.Logic.Basic

/-!
# Marked values

A column that holds plain values and sealed ones side by side, told apart by a mark inside the
value. A reader opens what carries the mark and takes everything else as it is, so a plain value
is read back exactly when it does not carry the mark by accident.
-/

/-- How a payload is put under the mark, and how the mark is found. -/
structure InBand (α γ : Type) where
  wrap : γ → α
  /-- The payload of a value that carries the mark. -/
  payload : α → Option γ
  payload_wrap : ∀ c, payload (wrap c) = some c

namespace InBand

variable {α γ ε : Type} (F : InBand α γ) (decipher : γ → Except ε (Option α))

/-- Open what carries the mark; nothing may be behind it. -/
def read (a : α) : Except ε (Option α) :=
  match F.payload a with
  | some c => decipher c
  | none => .ok (some a)

/-- The value carries the mark. -/
def Marked (a : α) : Prop := (F.payload a).isSome = true

instance (a : α) : Decidable (F.Marked a) := by
  unfold Marked
  infer_instance

variable {F decipher}

/-- A sealed value is opened. -/
theorem read_wrap (c : γ) : F.read decipher (F.wrap c) = decipher c := by
  rw [read, F.payload_wrap]

theorem read_of_not_marked {a : α} (h : ¬ F.Marked a) : F.read decipher a = .ok (some a) := by
  unfold Marked at h
  rw [read, Option.not_isSome_iff_eq_none.mp h]

/-- A plain value is read as one with a property exactly when it has the property and does not
carry the mark, if opening never returns a value with the property. -/
theorem exists_read_iff {P : α → Prop} {a : α}
    (hopened : ∀ c b, F.payload a = some c → decipher c = .ok (some b) → ¬ P b) :
    (∃ b, F.read decipher a = .ok (some b) ∧ P b) ↔ ¬ F.Marked a ∧ P a := by
  constructor
  · rintro ⟨b, hb, hP⟩
    have hmark : ¬ F.Marked a := by
      intro hmarked
      obtain ⟨c, hc⟩ := Option.isSome_iff_exists.mp hmarked
      rw [read, hc] at hb
      exact hopened c b hc hb hP
    rw [read_of_not_marked hmark] at hb
    cases hb
    exact ⟨hmark, hP⟩
  · exact fun ⟨hmark, hP⟩ => ⟨a, read_of_not_marked hmark, hP⟩

/-- A plain value is read back exactly when it does not carry the mark, if opening never returns
the very value that was opened. -/
theorem read_eq_self_iff {a : α} (hself : ∀ c, F.payload a = some c → decipher c ≠ .ok (some a)) :
    F.read decipher a = .ok (some a) ↔ ¬ F.Marked a := by
  have h : (∃ b, F.read decipher a = .ok (some b) ∧ b = a) ↔ ¬ F.Marked a ∧ a = a :=
    exists_read_iff fun c b hc hb hba => hself c hc (hba ▸ hb)
  simpa using h

end InBand
