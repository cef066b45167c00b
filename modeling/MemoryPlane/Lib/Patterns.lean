import Mathlib.Data.List.Basic
import Mathlib.Order.Lattice

/-!
# Text patterns

Regular expressions with ordered choice, as backtracking engines run them. For a text and a position
a pattern gives the positions where a match that starts there may end, in the order in which the
engine tries them, and the match is the first of them. A search goes through the positions of the
text once, and goes on where the last match ended.
-/

namespace MemoryPlane

/-- A regular expression over characters of any type. -/
inductive Pattern (α : Type) where
  | empty
  /-- One character of a class. -/
  | char (p : α → Bool)
  /-- A place between a character of the class and one outside of it. -/
  | boundary (word : α → Bool)
  | seq (first second : Pattern α)
  | alt (first second : Pattern α)
  /-- At least so many rounds and up to `extra` more, or as many as the text allows; the greedy one
  tries more rounds first, the lazy one fewer. -/
  | rounds (greedy : Bool) (least : ℕ) (extra : Option ℕ) (body : Pattern α)

namespace Pattern

variable {α : Type}

/-- A position lies between a character of the class and one outside of it. -/
def isBoundary (word : α → Bool) (text : List α) (i : ℕ) : Bool :=
  (i ≠ 0 && (text[i - 1]?).any word) != (text[i]?).any word

/-- Exactly so many rounds. -/
def exactly (step : ℕ → List ℕ) : ℕ → ℕ → List ℕ
  | 0, i => [i]
  | n + 1, i => (step i).flatMap (exactly step n)

/-- Up to so many rounds, each of which moves on. -/
def upTo (step : ℕ → List ℕ) (greedy : Bool) : ℕ → ℕ → List ℕ
  | 0, i => [i]
  | n + 1, i =>
    let more := ((step i).filter fun j => i < j).flatMap (upTo step greedy n)
    if greedy then more ++ [i] else i :: more

/-- The positions where a match that starts at a position may end, in the order they are tried. -/
def ends : Pattern α → List α → ℕ → List ℕ
  | empty, _, i => [i]
  | char p, text, i => if (text[i]?).any p then [i + 1] else []
  | boundary word, text, i => if isBoundary word text i then [i] else []
  | seq first second, text, i => (first.ends text i).flatMap (second.ends text)
  | alt first second, text, i => first.ends text i ++ second.ends text i
  | rounds greedy least extra body, text, i =>
    (exactly (body.ends text) least i).flatMap
      (upTo (body.ends text) greedy (extra.getD text.length))

/-- Patterns in a row. -/
def sequence (ps : List (Pattern α)) : Pattern α := ps.foldr seq empty

/-- The characters of a text in a row. -/
def literal [DecidableEq α] (cs : List α) : Pattern α := sequence (cs.map fun c => char (· = c))

/-- Any number of rounds, the more the better. -/
def star (body : Pattern α) : Pattern α := rounds true 0 none body

/-- At most one round. -/
def optional (body : Pattern α) : Pattern α := rounds true 0 (some 1) body

/-- At least so many rounds, the more the better. -/
def atLeast (least : ℕ) (body : Pattern α) : Pattern α := rounds true least none body

/-- Exactly so many rounds. -/
def times (n : ℕ) (body : Pattern α) : Pattern α := rounds true n (some 0) body

/-- The end of the match at a position. -/
def matchAt (p : Pattern α) (text : List α) (i : ℕ) : Option ℕ := (p.ends text i).head?

/-- The matches at the given positions, each at or behind the end of the one before. -/
def scan (found : ℕ → Option ℕ) (covered : ℕ) : List ℕ → List (ℕ × ℕ)
  | [] => []
  | i :: is =>
    if i < covered then scan found covered is
    else
      match found i with
      | some e => (i, e) :: scan found e is
      | none => scan found covered is

/-- The matches in a text, from left to right. -/
def finditer (p : Pattern α) (text : List α) : List (ℕ × ℕ) :=
  scan (p.matchAt text) 0 (List.range (text.length + 1))

/-- The least number of characters of a match. -/
def width : Pattern α → ℕ
  | empty => 0
  | char _ => 1
  | boundary _ => 0
  | seq first second => first.width + second.width
  | alt first second => min first.width second.width
  | rounds _ least _ body => least * body.width

variable {p : Pattern α} {text : List α} {step : ℕ → List ℕ} {greedy : Bool} {i j n : ℕ}

/-- What each round preserves holds where exactly so many rounds end. -/
theorem exactly_induction {P : ℕ → ℕ → Prop} (hi : P 0 i)
    (hstep : ∀ k a b, P k a → b ∈ step a → P (k + 1) b) (hj : j ∈ exactly step n i) : P n j := by
  suffices h : ∀ k i, P k i → j ∈ exactly step n i → P (k + n) j by
    simpa using h 0 i hi hj
  clear hi hj
  induction n with
  | zero =>
    intro k i hi hj
    rw [List.mem_singleton.mp hj]
    exact hi
  | succ n ih =>
    intro k i hi hj
    obtain ⟨a, ha, hj⟩ := List.mem_flatMap.mp hj
    have hnext := ih (k + 1) a (hstep k i a hi ha) hj
    rwa [Nat.add_right_comm] at hnext

/-- What each round preserves holds where up to so many rounds end. -/
theorem upTo_induction {P : ℕ → Prop} (hi : P i) (hstep : ∀ a b, P a → b ∈ step a → a < b → P b)
    (hj : j ∈ upTo step greedy n i) : P j := by
  induction n generalizing i with
  | zero =>
    rw [List.mem_singleton.mp hj]
    exact hi
  | succ n ih =>
    have hcases : j = i ∨ j ∈ ((step i).filter fun j => i < j).flatMap (upTo step greedy n) := by
      rw [upTo] at hj
      cases greedy with
      | true => simpa [or_comm] using hj
      | false => simpa using hj
    obtain rfl | hmore := hcases
    · exact hi
    · obtain ⟨a, ha, hj⟩ := List.mem_flatMap.mp hmore
      obtain ⟨ha, hlt⟩ := List.mem_filter.mp ha
      exact ih (hstep i a hi ha (by simpa using hlt)) hj

/-- A match has at least the width of its pattern. -/
theorem add_width_le (hj : j ∈ p.ends text i) : i + p.width ≤ j := by
  induction p generalizing i j with
  | empty =>
    rw [List.mem_singleton.mp hj]
    exact Nat.le_refl _
  | char q =>
    rw [ends] at hj
    split at hj
    · rw [List.mem_singleton.mp hj]
      exact Nat.le_refl _
    · cases hj
  | boundary word =>
    rw [ends] at hj
    split at hj
    · rw [List.mem_singleton.mp hj]
      exact Nat.le_refl _
    · cases hj
  | seq first second ihf ihs =>
    obtain ⟨k, hk, hj⟩ := List.mem_flatMap.mp hj
    have hfirst := ihf hk
    have hsecond := ihs hj
    rw [width]
    omega
  | alt first second ihf ihs =>
    rw [width]
    obtain hj | hj := List.mem_append.mp hj
    · have hfirst := ihf hj
      omega
    · have hsecond := ihs hj
      omega
  | rounds greedy least extra body ih =>
    obtain ⟨k, hk, hj⟩ := List.mem_flatMap.mp hj
    have hleast : i + least * body.width ≤ k := by
      apply exactly_induction (P := fun n k => i + n * body.width ≤ k) (by omega) ?_ hk
      intro n a b ha hb
      have hround := ih hb
      rw [Nat.add_mul]
      omega
    have hmore : k ≤ j :=
      upTo_induction (P := fun j => k ≤ j) (Nat.le_refl k) (fun a b _ _ _ => by omega) hj
    rw [width]
    omega

/-- A match ends within the text. -/
theorem le_length (hj : j ∈ p.ends text i) (hi : i ≤ text.length) : j ≤ text.length := by
  induction p generalizing i j with
  | empty =>
    rw [List.mem_singleton.mp hj]
    exact hi
  | char q =>
    rw [ends] at hj
    split at hj
    · rename_i hany
      have hlt : i < text.length := by
        by_contra hge
        rw [List.getElem?_eq_none (by omega)] at hany
        cases hany
      rw [List.mem_singleton.mp hj]
      exact hlt
    · cases hj
  | boundary word =>
    rw [ends] at hj
    split at hj
    · rw [List.mem_singleton.mp hj]
      exact hi
    · cases hj
  | seq first second ihf ihs =>
    obtain ⟨k, hk, hj⟩ := List.mem_flatMap.mp hj
    exact ihs hj (ihf hk hi)
  | alt first second ihf ihs =>
    obtain hj | hj := List.mem_append.mp hj
    · exact ihf hj hi
    · exact ihs hj hi
  | rounds greedy least extra body ih =>
    obtain ⟨k, hk, hj⟩ := List.mem_flatMap.mp hj
    have hleast : k ≤ text.length :=
      exactly_induction (P := fun _ k => k ≤ text.length) hi (fun _ a b ha hb => ih hb ha) hk
    exact upTo_induction (P := fun j => j ≤ text.length) hleast (fun a b ha hb _ => ih hb ha) hj

theorem mem_ends_char {q : α → Bool} :
    j ∈ (char q).ends text i ↔ (text[i]?).any q = true ∧ j = i + 1 := by
  rw [ends]
  split
  · rename_i h
    simp [h]
  · rename_i h
    simp [h]

theorem mem_ends_sequence_cons {ps : List (Pattern α)} :
    j ∈ (sequence (p :: ps)).ends text i ↔
      ∃ k ∈ p.ends text i, j ∈ (sequence ps).ends text k := List.mem_flatMap

/-- A boundary in front of other patterns only restricts them. -/
theorem mem_ends_of_boundary {word : α → Bool} {ps : List (Pattern α)}
    (h : j ∈ (sequence (boundary word :: ps)).ends text i) : j ∈ (sequence ps).ends text i := by
  obtain ⟨k, hk, hj⟩ := mem_ends_sequence_cons.mp h
  rw [ends] at hk
  split at hk
  · rwa [List.mem_singleton.mp hk] at hj
  · cases hk

/-- Where a row of classes matches, the text has a character of each class. -/
theorem any_of_mem_ends {qs : List (α → Bool)} (h : j ∈ (sequence (qs.map char)).ends text i)
    {n : ℕ} {q : α → Bool} (hq : qs[n]? = some q) : (text[i + n]?).any q = true := by
  induction qs generalizing i n with
  | nil => cases hq
  | cons first qs ih =>
    obtain ⟨k, hk, hj⟩ := mem_ends_sequence_cons.mp h
    obtain ⟨hany, rfl⟩ := mem_ends_char.mp hk
    cases n with
    | zero =>
      obtain rfl : first = q := by simpa using hq
      exact hany
    | succ n =>
      have hrest := ih hj (n := n) (by simpa using hq)
      rwa [Nat.add_right_comm, Nat.add_assoc] at hrest

theorem getElem?_of_mem_ends_literal [DecidableEq α] {cs : List α}
    (h : j ∈ (literal cs).ends text i) {n : ℕ} {c : α} (hc : cs[n]? = some c) :
    text[i + n]? = some c := by
  have hclasses : literal cs = sequence ((cs.map fun c x => decide (x = c)).map char) := by
    rw [literal, List.map_map]
    rfl
  rw [hclasses] at h
  have hany : (text[i + n]?).any (fun x => decide (x = c)) = true :=
    any_of_mem_ends h (by rw [List.getElem?_map, hc]; rfl)
  cases hx : text[i + n]? with
  | none =>
    rw [hx] at hany
    cases hany
  | some x =>
    rw [hx] at hany
    rw [of_decide_eq_true hany]

/-- A repeated class stands at the start of its match. -/
theorem any_of_mem_ends_times {q : α → Bool} {n : ℕ}
    (h : j ∈ (times (n + 1) (char q)).ends text i) : (text[i]?).any q = true := by
  obtain ⟨k, hk, -⟩ := List.mem_flatMap.mp h
  obtain ⟨m, hm, -⟩ := List.mem_flatMap.mp hk
  exact (mem_ends_char.mp hm).1

theorem mem_scan {found : ℕ → Option ℕ} {covered : ℕ} {is : List ℕ} {m : ℕ × ℕ}
    (h : m ∈ scan found covered is) : m.1 ∈ is ∧ found m.1 = some m.2 := by
  induction is generalizing covered with
  | nil => cases h
  | cons i is ih =>
    rw [scan] at h
    split at h
    · exact ⟨List.mem_cons_of_mem _ (ih h).1, (ih h).2⟩
    · cases hfound : found i with
      | none =>
        rw [hfound] at h
        exact ⟨List.mem_cons_of_mem _ (ih h).1, (ih h).2⟩
      | some e =>
        rw [hfound] at h
        obtain rfl | h := List.mem_cons.mp h
        · exact ⟨List.mem_cons_self, hfound⟩
        · exact ⟨List.mem_cons_of_mem _ (ih h).1, (ih h).2⟩

/-- The match at a position has at least the width of its pattern and ends within the text. -/
theorem matchAt_bounds {e : ℕ} (h : p.matchAt text i = some e) (hi : i ≤ text.length) :
    i + p.width ≤ e ∧ e ≤ text.length := by
  have hmem : e ∈ p.ends text i := List.mem_of_head? h
  exact ⟨add_width_le hmem, le_length hmem hi⟩

theorem mem_ends_of_mem_finditer {m : ℕ × ℕ} (h : m ∈ p.finditer text) :
    m.2 ∈ p.ends text m.1 := List.mem_of_head? (mem_scan h).2

/-- So do the matches in a text. -/
theorem finditer_bounds {m : ℕ × ℕ} (h : m ∈ p.finditer text) :
    m.1 + p.width ≤ m.2 ∧ m.2 ≤ text.length := by
  obtain ⟨hrange, hfound⟩ := mem_scan h
  exact matchAt_bounds hfound (by simpa [Nat.lt_succ_iff] using hrange)

end Pattern

end MemoryPlane
