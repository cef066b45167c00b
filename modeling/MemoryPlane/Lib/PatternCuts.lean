import Mathlib.Data.List.Basic
import Mathlib.Data.List.TakeWhile
import MemoryPlane.Lib.Patterns

/-!
# Texts that a separator cuts

A pattern avoids a character that none of its classes holds of. No match runs over such a character,
and next to it the boundaries are those at an end of a text, so on the two sides of it the pattern
finds what it finds in each side by itself.
-/

namespace MemoryPlane

namespace Pattern

variable {α : Type}

/-- No class of the pattern holds of the character. -/
def Avoids (b : α) : Pattern α → Prop
  | empty => True
  | char p => p b = false
  | boundary word => word b = false
  | seq first second => first.Avoids b ∧ second.Avoids b
  | alt first second => first.Avoids b ∧ second.Avoids b
  | rounds _ _ _ body => body.Avoids b

/-- Every match has a character of the class. -/
def Needs (q : α → Bool) : Pattern α → Prop
  | empty => False
  | char p => ∀ c, p c = true → q c = true
  | boundary _ => False
  | seq first second => first.Needs q ∨ second.Needs q
  | alt first second => first.Needs q ∧ second.Needs q
  | rounds _ least _ body => 0 < least ∧ body.Needs q

/-- A match starts somewhere in the text. -/
def Occurs (p : Pattern α) (text : List α) : Prop := ∃ i ≤ text.length, ∃ j, j ∈ p.ends text i

variable {p : Pattern α} {b : α} {text l s r t : List α} {step step' : ℕ → List ℕ} {greedy : Bool}
  {d i j n : ℕ}

/-- A sequence consumes no mark when none of its parts does. -/
theorem avoids_sequence {ps : List (Pattern α)} :
    (sequence ps).Avoids b ↔ ∀ p ∈ ps, p.Avoids b := by
  induction ps with
  | nil => simp [sequence, Avoids]
  | cons p ps ih =>
    rw [List.forall_mem_cons, ← ih]
    rfl

/-- A literal without the mark does not consume it. -/
theorem avoids_literal [DecidableEq α] {cs : List α} (h : b ∉ cs) : (literal cs).Avoids b := by
  rw [literal, avoids_sequence]
  intro p hp
  obtain ⟨c, hc, rfl⟩ := List.mem_map.mp hp
  exact decide_eq_false fun hb => h (hb ▸ hc)

/-- A match of a pattern that needs a character has one in the text. -/
theorem exists_of_needs {q : α → Bool} (h : p.Needs q) (hj : j ∈ p.ends text i) :
    ∃ c ∈ text, q c = true := by
  induction p generalizing i j with
  | empty => cases h
  | char p =>
    obtain ⟨hany, -⟩ := mem_ends_char.mp hj
    obtain ⟨c, hc, hp⟩ := (Option.any_eq_true _ _).mp hany
    exact ⟨c, List.mem_of_getElem? hc, h c hp⟩
  | boundary word => cases h
  | seq first second ihf ihs =>
    obtain ⟨k, hk, hj⟩ := List.mem_flatMap.mp hj
    obtain hf | hs := h
    · exact ihf hf hk
    · exact ihs hs hj
  | alt first second ihf ihs =>
    obtain hj | hj := List.mem_append.mp hj
    · exact ihf h.1 hj
    · exact ihs h.2 hj
  | rounds greedy least extra body ih =>
    obtain ⟨hleast, hbody⟩ := h
    obtain ⟨k, hk, -⟩ := List.mem_flatMap.mp hj
    cases least with
    | zero => exact absurd hleast (Nat.lt_irrefl 0)
    | succ least =>
      obtain ⟨a, ha, -⟩ := List.mem_flatMap.mp hk
      exact ih hbody ha

/-- A sequence put behind another begins where that one ends. -/
theorem mem_ends_sequence_append {ps qs : List (Pattern α)} :
    j ∈ (sequence (ps ++ qs)).ends text i ↔
      ∃ k ∈ (sequence ps).ends text i, j ∈ (sequence qs).ends text k := by
  induction ps generalizing i with
  | nil => simp [sequence, ends]
  | cons p ps ih =>
    rw [List.cons_append, mem_ends_sequence_cons]
    simp only [mem_ends_sequence_cons, ih]
    constructor
    · rintro ⟨a, ha, k, hk, hj⟩
      exact ⟨k, ⟨a, ha, hk⟩, hj⟩
    · rintro ⟨k, ⟨a, ha, hk⟩, hj⟩
      exact ⟨a, ha, k, hk, hj⟩

/-- A sequence of single characters consumes one position each. -/
theorem eq_add_of_mem_ends {qs : List (α → Bool)} (h : j ∈ (sequence (qs.map char)).ends text i) :
    j = i + qs.length := by
  induction qs generalizing i with
  | nil => exact List.mem_singleton.mp h
  | cons q qs ih =>
    obtain ⟨k, hk, hj⟩ := mem_ends_sequence_cons.mp h
    obtain ⟨-, rfl⟩ := mem_ends_char.mp hk
    rw [ih hj, List.length_cons]
    omega

/-- Nothing is found exactly where the pattern does not occur. -/
theorem finditer_eq_nil_iff : p.finditer text = [] ↔ ¬ p.Occurs text := by
  have hscan : ∀ covered is, covered = 0 →
      (scan (p.matchAt text) covered is = [] ↔ ∀ i ∈ is, p.ends text i = []) := by
    rintro covered is rfl
    induction is with
    | nil => simp [scan]
    | cons i is ih =>
      rw [scan, if_neg (Nat.not_lt_zero i), List.forall_mem_cons, ← ih, matchAt]
      cases p.ends text i with
      | nil => simp
      | cons e es => simp
  rw [finditer, hscan 0 _ rfl]
  constructor
  · rintro h ⟨i, hi, j, hj⟩
    rw [h i (List.mem_range.mpr (Nat.lt_succ_of_le hi))] at hj
    cases hj
  · intro h i hi
    apply List.eq_nil_iff_forall_not_mem.mpr
    intro j hj
    exact h ⟨i, Nat.lt_succ_iff.mp (List.mem_range.mp hi), j, hj⟩

section Runs

/-- How many characters of a class the text has in a row from a position on. -/
def run (q : α → Bool) (text : List α) (i : ℕ) : ℕ := ((text.drop i).takeWhile q).length

variable {q : α → Bool} {k : ℕ}

/-- A run does not reach beyond the text. -/
theorem run_le (q : α → Bool) (text : List α) (i : ℕ) : run q text i ≤ text.length - i := by
  rw [run, ← List.length_drop]
  exact (List.takeWhile_sublist q).length_le

/-- A run is one character longer than the run behind it, and empty at another character. -/
theorem run_eq (q : α → Bool) (text : List α) (i : ℕ) :
    run q text i = if (text[i]?).any q then run q text (i + 1) + 1 else 0 := by
  by_cases hlt : i < text.length
  · rw [run, List.drop_eq_getElem_cons hlt, List.takeWhile_cons, List.getElem?_eq_getElem hlt,
      Option.any_some]
    split <;> rfl
  · rw [run, List.drop_eq_nil_of_le (Nat.le_of_not_lt hlt),
      List.getElem?_eq_none (Nat.le_of_not_lt hlt)]
    rfl

/-- What remains of a run behind its first characters is a run. -/
theorem run_eq_add (h : n ≤ run q text i) : run q text i = n + run q text (i + n) := by
  induction n generalizing i with
  | zero => simp
  | succ n ih =>
    rw [run_eq] at h
    rw [run_eq]
    split at h
    · rename_i hany
      have hrest := ih (Nat.le_of_succ_le_succ h)
      have hpos : i + 1 + n = i + (n + 1) := by omega
      rw [if_pos hany, hrest, hpos]
      omega
    · cases h

/-- A character is repeated exactly as often as the run allows. -/
theorem mem_exactly_char :
    j ∈ exactly ((char q).ends text) n i ↔ n ≤ run q text i ∧ j = i + n := by
  induction n generalizing i with
  | zero => simp [exactly]
  | succ n ih =>
    rw [exactly, ends, run_eq]
    split
    · rw [List.flatMap_singleton, ih]
      omega
    · simp

/-- A bounded repetition ends anywhere within the bound and the run. -/
theorem mem_upTo_char : j ∈ upTo ((char q).ends text) greedy n i ↔
    i ≤ j ∧ j ≤ i + n ∧ j ≤ i + run q text i := by
  induction n generalizing i with
  | zero =>
    rw [upTo, List.mem_singleton]
    omega
  | succ n ih =>
    have hmem : j ∈ upTo ((char q).ends text) greedy (n + 1) i ↔ j = i ∨
        j ∈ (((char q).ends text i).filter fun j => i < j).flatMap
          (upTo ((char q).ends text) greedy n) := by
      rw [upTo]
      cases greedy <;> simp [or_comm]
    rw [hmem, ends, run_eq]
    split
    · have hmoves : [i + 1].filter (fun j => i < j) = [i + 1] := by simp
      rw [hmoves, List.flatMap_singleton, ih]
      omega
    · simp only [List.filter_nil, List.flatMap_nil, List.not_mem_nil, or_false]
      omega

/-- The rounds of a class end within its run. -/
theorem mem_ends_rounds_char : j ∈ (rounds greedy n none (char q)).ends text i ↔
    i + n ≤ j ∧ j ≤ i + run q text i := by
  have hlength := run_le q text i
  rw [ends, List.mem_flatMap]
  simp only [mem_exactly_char, mem_upTo_char, Option.getD_none]
  constructor
  · rintro ⟨a, ⟨hn, rfl⟩, hle, -, hrun⟩
    have hadd := run_eq_add hn
    omega
  · rintro ⟨hn, hj⟩
    have hadd := run_eq_add (show n ≤ run q text i by omega)
    exact ⟨i + n, ⟨by omega, rfl⟩, hn, by omega, by omega⟩

end Runs

section Rounds

/-- Rounds of a step that is moved are moved. -/
theorem exactly_map {limit : ℕ} (hstep : ∀ a ≤ limit, step' (d + a) = (step a).map (d + ·))
    (hbound : ∀ a ≤ limit, ∀ b ∈ step a, b ≤ limit) (hi : i ≤ limit) :
    exactly step' n (d + i) = (exactly step n i).map (d + ·) := by
  induction n generalizing i with
  | zero => rfl
  | succ n ih =>
    rw [exactly, exactly, hstep i hi, List.flatMap_map, List.map_flatMap]
    exact List.flatMap_congr fun a ha => ih (hbound i hi a ha)

/-- Shifting each step shifts the whole repetition. -/
theorem upTo_map {limit : ℕ} (hstep : ∀ a ≤ limit, step' (d + a) = (step a).map (d + ·))
    (hbound : ∀ a ≤ limit, ∀ b ∈ step a, b ≤ limit) (hi : i ≤ limit) :
    upTo step' greedy n (d + i) = (upTo step greedy n i).map (d + ·) := by
  induction n generalizing i with
  | zero => rfl
  | succ n ih =>
    have hmore : ((step' (d + i)).filter fun j => d + i < j).flatMap (upTo step' greedy n) =
        (((step i).filter fun j => i < j).flatMap (upTo step greedy n)).map (d + ·) := by
      have hmoves : ((fun j => decide (d + i < j)) ∘ fun a => d + a) = fun a => decide (i < a) := by
        ext a
        simp
      rw [hstep i hi, List.filter_map, hmoves, List.flatMap_map, List.map_flatMap]
      apply List.flatMap_congr
      intro a ha
      exact ih (hbound i hi a (List.mem_filter.mp ha).1)
    rw [upTo, upTo]
    simp only [hmore]
    cases greedy <;> simp

/-- More rounds than there are characters left change nothing. -/
theorem upTo_stable {limit m : ℕ} (hbound : ∀ a ≤ limit, ∀ b ∈ step a, b ≤ limit)
    (hi : i ≤ limit) (hn : limit ≤ i + n) (hm : limit ≤ i + m) :
    upTo step greedy n i = upTo step greedy m i := by
  have hstuck : ∀ a ≤ limit, limit ≤ a → (step a).filter (fun j => a < j) = [] := by
    intro a ha hle
    rw [List.filter_eq_nil_iff]
    intro j hj
    have hjl := hbound a ha j hj
    simp only [decide_eq_true_eq]
    omega
  induction n generalizing i m with
  | zero =>
    cases m with
    | zero => rfl
    | succ m =>
      rw [upTo, upTo, hstuck i hi (by omega)]
      simp
  | succ n ih =>
    cases m with
    | zero =>
      rw [upTo, upTo, hstuck i hi (by omega)]
      simp
    | succ m =>
      have hmore : ((step i).filter fun j => i < j).flatMap (upTo step greedy n) =
          ((step i).filter fun j => i < j).flatMap (upTo step greedy m) := by
        apply List.flatMap_congr
        intro a ha
        obtain ⟨ha, hlt⟩ := List.mem_filter.mp ha
        have hal := hbound i hi a ha
        have hia : i < a := by simpa using hlt
        exact ih hal (by omega) (by omega)
      rw [upTo, upTo]
      simp only [hmore]

end Rounds

section Window

/-- A part bounded by characters of another kind is read as if it stood alone. -/
theorem any_window {q : α → Bool} (hr : ∀ c ∈ r.head?, q c = false) (hi : i ≤ s.length) :
    ((l ++ s ++ r)[l.length + i]?).any q = (s[i]?).any q := by
  rw [List.append_assoc, List.getElem?_append_right (Nat.le_add_right _ _),
    Nat.add_sub_cancel_left]
  obtain hlt | rfl := Nat.lt_or_eq_of_le hi
  · rw [List.getElem?_append_left hlt]
  · rw [List.getElem?_append_right (Nat.le_refl _), Nat.sub_self, List.getElem?_eq_none
      (Nat.le_refl _), ← List.head?_eq_getElem?]
    cases hhead : r.head? with
    | none => rfl
    | some c => exact hr c hhead

/-- Next to a character outside of the class the boundaries are those at an end of the text. -/
theorem isBoundary_window {word : α → Bool} (hl : ∀ c ∈ l.getLast?, word c = false)
    (hr : ∀ c ∈ r.head?, word c = false) (hi : i ≤ s.length) :
    isBoundary word (l ++ s ++ r) (l.length + i) = isBoundary word s i := by
  have hbefore : (decide (l.length + i ≠ 0) && ((l ++ s ++ r)[l.length + i - 1]?).any word) =
      (decide (i ≠ 0) && (s[i - 1]?).any word) := by
    cases i with
    | zero =>
      rw [Nat.add_zero, List.append_assoc]
      rcases List.eq_nil_or_concat l with rfl | ⟨l', c, rfl⟩
      · simp
      · have hc : word c = false := hl c (by simp)
        simp [hc]
    | succ i =>
      have hi' : i ≤ s.length := by omega
      rw [← Nat.add_assoc, Nat.add_sub_cancel, Nat.add_sub_cancel, any_window hr hi']
      simp
  rw [isBoundary, isBoundary, any_window hr hi]
  exact congrArg (· != (s[i]?).any word) hbefore

/-- A pattern finds in a window what it finds in the text of the window, when it avoids the
characters next to the window. -/
theorem ends_window (hl : ∀ c ∈ l.getLast?, p.Avoids c) (hr : ∀ c ∈ r.head?, p.Avoids c)
    (hi : i ≤ s.length) :
    p.ends (l ++ s ++ r) (l.length + i) = (p.ends s i).map (l.length + ·) := by
  induction p generalizing i with
  | empty => rfl
  | char q =>
    rw [ends, ends, any_window hr hi]
    split <;> rfl
  | boundary word =>
    rw [ends, ends, isBoundary_window hl hr hi]
    split <;> rfl
  | seq first second ihf ihs =>
    rw [ends, ends, ihf (fun c hc => (hl c hc).1) (fun c hc => (hr c hc).1) hi, List.flatMap_map,
      List.map_flatMap]
    apply List.flatMap_congr
    intro a ha
    exact ihs (fun c hc => (hl c hc).2) (fun c hc => (hr c hc).2) (le_length ha hi)
  | alt first second ihf ihs =>
    rw [ends, ends, ihf (fun c hc => (hl c hc).1) (fun c hc => (hr c hc).1) hi,
      ihs (fun c hc => (hl c hc).2) (fun c hc => (hr c hc).2) hi, List.map_append]
  | rounds greedy least extra body ih =>
    have hstep : ∀ a ≤ s.length,
        body.ends (l ++ s ++ r) (l.length + a) = (body.ends s a).map (l.length + ·) :=
      fun a ha => ih hl hr ha
    have hbound : ∀ a ≤ s.length, ∀ b ∈ body.ends s a, b ≤ s.length :=
      fun a ha b hb => le_length hb ha
    rw [ends, ends, exactly_map hstep hbound hi, List.flatMap_map, List.map_flatMap]
    apply List.flatMap_congr
    intro a ha
    have ha' : a ≤ s.length := exactly_induction (P := fun _ k => k ≤ s.length) hi
      (fun _ a b ha hb => hbound a ha b hb) ha
    rw [upTo_map hstep hbound ha']
    cases extra with
    | some extra => rfl
    | none =>
      have hlength : (l ++ s ++ r).length = l.length + (s.length + r.length) := by simp
      have hrounds : upTo (body.ends s) greedy (l ++ s ++ r).length a =
          upTo (body.ends s) greedy s.length a :=
        upTo_stable hbound ha' (by omega) (by omega)
      exact congrArg (List.map (l.length + ·)) hrounds

end Window

section Cut

variable {found found' : ℕ → Option ℕ} {covered : ℕ} {is js : List ℕ}

/-- A scan depends only on what is found at the positions it visits. -/
theorem scan_congr (h : ∀ i ∈ is, found i = found' i) :
    scan found covered is = scan found' covered is := by
  induction is generalizing covered with
  | nil => rfl
  | cons i is ih =>
    obtain ⟨hi, his⟩ := List.forall_mem_cons.mp h
    rw [scan, scan, hi]
    simp only [ih his]

/-- A shifted scan finds the shifted matches. -/
theorem scan_map (h : ∀ i ∈ is, found' (d + i) = (found i).map (d + ·)) :
    scan found' (d + covered) (is.map (d + ·)) =
      (scan found covered is).map fun m => (d + m.1, d + m.2) := by
  induction is generalizing covered with
  | nil => rfl
  | cons i is ih =>
    obtain ⟨hi, his⟩ := List.forall_mem_cons.mp h
    rw [List.map_cons, scan, scan, hi]
    by_cases hlt : i < covered
    · rw [if_pos hlt, if_pos (Nat.add_lt_add_left hlt d), ih his]
    · rw [if_neg hlt, if_neg (by omega)]
      cases found i with
      | none => exact ih his
      | some e => exact congrArg (List.cons _) (ih his)

/-- What ends before all positions covers none of them. -/
theorem scan_covered (h : ∀ i ∈ is, covered ≤ i) : scan found covered is = scan found 0 is := by
  induction is with
  | nil => rfl
  | cons i is ih =>
    obtain ⟨hi, his⟩ := List.forall_mem_cons.mp h
    rw [scan, scan, if_neg (Nat.not_lt.mpr hi), if_neg (Nat.not_lt_zero i), ih his]

/-- The search starts afresh at positions that no match before reaches. -/
theorem scan_append (hcovered : ∀ j ∈ js, covered ≤ j)
    (hfound : ∀ i ∈ is, ∀ e, found i = some e → ∀ j ∈ js, e ≤ j) :
    scan found covered (is ++ js) = scan found covered is ++ scan found 0 js := by
  induction is generalizing covered with
  | nil => exact scan_covered hcovered
  | cons i is ih =>
    obtain ⟨hi, his⟩ := List.forall_mem_cons.mp hfound
    rw [List.cons_append, scan, scan, ih hcovered his]
    split
    · rfl
    · cases hf : found i with
      | none => rfl
      | some e =>
        simp only
        rw [ih (hi e hf) his, List.cons_append]

/-- In front of an avoided mark a pattern matches as in the front alone. -/
theorem ends_left (hb : p.Avoids b) (hi : i ≤ s.length) :
    p.ends (s ++ b :: t) i = p.ends s i := by
  have hwindow := ends_window (l := []) (r := b :: t) (p := p) (by simp) (by simpa using hb) hi
  simpa using hwindow

/-- Behind an avoided mark a pattern matches as in the rest alone. -/
theorem ends_right (hb : p.Avoids b) (hi : i ≤ t.length) :
    p.ends (s ++ b :: t) (s.length + 1 + i) = (p.ends t i).map (s.length + 1 + ·) := by
  have hwindow := ends_window (l := s ++ [b]) (r := []) (p := p) (by simpa using hb) (by simp) hi
  simpa using hwindow

/-- Each position of a text is on one side of a separator. -/
theorem le_or_right (hi : i ≤ (s ++ b :: t).length) :
    i ≤ s.length ∨ ∃ k ≤ t.length, i = s.length + 1 + k := by
  rw [List.length_append, List.length_cons] at hi
  by_cases hle : i ≤ s.length
  · exact .inl hle
  · exact .inr ⟨i - (s.length + 1), by omega, by omega⟩

/-- A pattern that avoids the separator finds on each side what it finds there alone. -/
theorem finditer_cut (hb : p.Avoids b) :
    p.finditer (s ++ b :: t) =
      p.finditer s ++ (p.finditer t).map fun m => (s.length + 1 + m.1, s.length + 1 + m.2) := by
  have hrange : List.range ((s ++ b :: t).length + 1) =
      List.range (s.length + 1) ++ (List.range (t.length + 1)).map (s.length + 1 + ·) := by
    rw [← List.range_add]
    congr 1
    rw [List.length_append, List.length_cons]
    omega
  have hleft : ∀ i ∈ List.range (s.length + 1),
      p.matchAt (s ++ b :: t) i = p.matchAt s i := by
    intro i hi
    rw [matchAt, ends_left hb (Nat.lt_succ_iff.mp (List.mem_range.mp hi)), matchAt]
  have hright : ∀ i ∈ List.range (t.length + 1),
      p.matchAt (s ++ b :: t) (s.length + 1 + i) = (p.matchAt t i).map (s.length + 1 + ·) := by
    intro i hi
    rw [matchAt, ends_right hb (Nat.lt_succ_iff.mp (List.mem_range.mp hi)), matchAt,
      List.head?_map]
  rw [finditer, hrange, scan_append (fun j _ => Nat.zero_le j), finditer, finditer,
    scan_congr hleft, ← scan_map hright, Nat.add_zero]
  · congr 1
    refine (scan_covered ?_).symm
    intro i hi
    obtain ⟨k, -, rfl⟩ := List.mem_map.mp hi
    exact Nat.le_add_right _ _
  · intro i hi e hmatch j hj
    have hil : i ≤ s.length := Nat.lt_succ_iff.mp (List.mem_range.mp hi)
    rw [hleft i hi] at hmatch
    have hend := (matchAt_bounds hmatch hil).2
    obtain ⟨k, -, rfl⟩ := List.mem_map.mp hj
    omega

/-- So a match on one of the sides is all it takes. -/
theorem occurs_cut (hb : p.Avoids b) : p.Occurs (s ++ b :: t) ↔ p.Occurs s ∨ p.Occurs t := by
  have hcut := finditer_cut (s := s) (t := t) hb
  have hnil : p.finditer (s ++ b :: t) = [] ↔ p.finditer s = [] ∧ p.finditer t = [] := by
    rw [hcut, List.append_eq_nil_iff, List.map_eq_nil_iff]
  rw [finditer_eq_nil_iff, finditer_eq_nil_iff, finditer_eq_nil_iff, ← not_or] at hnil
  exact not_iff_not.mp hnil

section Behind

variable {q : α → Bool} {ps qs : List (Pattern α)} {k : ℕ}

/-- The text behind the mark is the rest of the text. -/
theorem drop_right (s : List α) (b : α) (t : List α) (k : ℕ) :
    (s ++ b :: t).drop (s.length + 1 + k) = t.drop k := by
  rw [Nat.add_assoc, ← List.drop_drop, List.drop_left, Nat.add_comm, List.drop_succ_cons]

/-- A run behind the mark is a run of the rest. -/
theorem run_right (s : List α) (b : α) (t : List α) (k : ℕ) :
    run q (s ++ b :: t) (s.length + 1 + k) = run q t k := by
  rw [run, run, drop_right]

/-- The run goes on behind the text only when it reaches the end of it. -/
theorem run_left (hj : j ≤ s.length) :
    run q (s ++ r) j = if (s.drop j).all q then s.length - j + run q r 0 else run q s j := by
  rw [run, List.drop_append_of_le_length hj, List.takeWhile_append]
  have hreach : ((s.drop j).takeWhile q).length = (s.drop j).length ↔ (s.drop j).all q = true := by
    rw [List.all_eq_true, ← List.takeWhile_eq_self_iff]
    exact ⟨(List.takeWhile_prefix q).eq_of_length, congrArg List.length⟩
  by_cases hall : (s.drop j).all q = true
  · rw [if_pos (hreach.mpr hall), if_pos hall, List.length_append, List.length_drop, run,
      List.drop_zero]
  · rw [if_neg fun h => hall (hreach.mp h), if_neg hall, run]

/-- A pattern with so many characters of a class behind it. -/
theorem occurs_append_run :
    (sequence (ps ++ [rounds greedy n none (char q)])).Occurs text ↔
      ∃ i ≤ text.length, ∃ j ∈ (sequence ps).ends text i, n ≤ run q text j := by
  have hlast : ∀ j, (∃ e, e ∈ (sequence [rounds greedy n none (char q)]).ends text j) ↔
      n ≤ run q text j := by
    intro j
    simp only [mem_ends_sequence_cons, mem_ends_rounds_char]
    constructor
    · rintro ⟨e, k, ⟨hleast, hrun⟩, -⟩
      omega
    · intro hrun
      exact ⟨j + n, j + n, ⟨by omega, by omega⟩, List.mem_singleton_self _⟩
  constructor
  · rintro ⟨i, hi, e, he⟩
    obtain ⟨j, hj, he⟩ := mem_ends_sequence_append.mp he
    exact ⟨i, hi, j, hj, (hlast j).mp ⟨e, he⟩⟩
  · rintro ⟨i, hi, j, hj, hrun⟩
    obtain ⟨e, he⟩ := (hlast j).mpr hrun
    exact ⟨i, hi, e, mem_ends_sequence_append.mpr ⟨j, hj, he⟩⟩

/-- The characters behind the pattern may run over a separator that the pattern avoids. -/
theorem occurs_append_run_cut (hb : (sequence ps).Avoids b) :
    (sequence (ps ++ [rounds greedy n none (char q)])).Occurs (s ++ b :: t) ↔
      (∃ i ≤ s.length, ∃ j ∈ (sequence ps).ends s i, n ≤ run q (s ++ b :: t) j) ∨
        (sequence (ps ++ [rounds greedy n none (char q)])).Occurs t := by
  rw [occurs_append_run, occurs_append_run]
  constructor
  · rintro ⟨i, hi, j, hj, hrun⟩
    obtain hi | ⟨k, hk, rfl⟩ := le_or_right hi
    · rw [ends_left hb hi] at hj
      exact .inl ⟨i, hi, j, hj, hrun⟩
    · rw [ends_right hb hk] at hj
      obtain ⟨m, hm, rfl⟩ := List.mem_map.mp hj
      rw [run_right] at hrun
      exact .inr ⟨k, hk, m, hm, hrun⟩
  · rintro (⟨i, hi, j, hj, hrun⟩ | ⟨k, hk, m, hm, hrun⟩)
    · refine ⟨i, by rw [List.length_append]; omega, j, ?_, hrun⟩
      rwa [ends_left hb hi]
    · refine ⟨s.length + 1 + k, by rw [List.length_append, List.length_cons]; omega,
        s.length + 1 + m, ?_, ?_⟩
      · rw [ends_right hb hk]
        exact List.mem_map_of_mem hm
      · rwa [run_right]

/-- Two patterns with anything between them. -/
theorem occurs_between :
    (sequence (ps ++ ([rounds greedy 1 none (char fun _ => true)] ++ qs))).Occurs text ↔
      ∃ i ≤ text.length, ∃ j ∈ (sequence ps).ends text i, ∃ k ≤ text.length, j < k ∧
        ∃ e, e ∈ (sequence qs).ends text k := by
  have hrun : ∀ j, j ≤ text.length → run (fun _ => true) text j = text.length - j := by
    intro j _
    rw [run, List.takeWhile_eq_self_iff.mpr (fun _ _ => rfl), List.length_drop]
  constructor
  · rintro ⟨i, hi, e, he⟩
    obtain ⟨j, hj, he⟩ := mem_ends_sequence_append.mp he
    obtain ⟨k, hk, he⟩ := mem_ends_sequence_cons.mp he
    obtain ⟨hlt, hle⟩ := mem_ends_rounds_char.mp hk
    have hjl := le_length hj hi
    rw [hrun j hjl] at hle
    exact ⟨i, hi, j, hj, k, by omega, hlt, e, he⟩
  · rintro ⟨i, hi, j, hj, k, hk, hlt, e, he⟩
    have hjl := le_length hj hi
    refine ⟨i, hi, e, mem_ends_sequence_append.mpr ⟨j, hj, mem_ends_sequence_cons.mpr ⟨k, ?_, he⟩⟩⟩
    rw [mem_ends_rounds_char, hrun j hjl]
    omega

/-- Over a separator that both avoid, the first may be on one side and the second on the other. -/
theorem occurs_between_cut (hps : (sequence ps).Avoids b) (hqs : (sequence qs).Avoids b) :
    (sequence (ps ++ ([rounds greedy 1 none (char fun _ => true)] ++ qs))).Occurs (s ++ b :: t) ↔
      (sequence (ps ++ ([rounds greedy 1 none (char fun _ => true)] ++ qs))).Occurs s ∨
        (sequence (ps ++ ([rounds greedy 1 none (char fun _ => true)] ++ qs))).Occurs t ∨
          (sequence ps).Occurs s ∧ (sequence qs).Occurs t := by
  have hlength : (s ++ b :: t).length = s.length + 1 + t.length := by
    rw [List.length_append, List.length_cons]
    omega
  rw [occurs_between, occurs_between, occurs_between]
  constructor
  · rintro ⟨i, hi, j, hj, k, hk, hlt, e, he⟩
    obtain hi | ⟨i', hi', rfl⟩ := le_or_right hi
    · rw [ends_left hps hi] at hj
      obtain hk | ⟨k', hk', rfl⟩ := le_or_right hk
      · rw [ends_left hqs hk] at he
        exact .inl ⟨i, hi, j, hj, k, hk, hlt, e, he⟩
      · rw [ends_right hqs hk'] at he
        obtain ⟨e', he', rfl⟩ := List.mem_map.mp he
        exact .inr (.inr ⟨⟨i, hi, j, hj⟩, k', hk', e', he'⟩)
    · rw [ends_right hps hi'] at hj
      obtain ⟨j', hj', rfl⟩ := List.mem_map.mp hj
      obtain hk | ⟨k', hk', rfl⟩ := le_or_right hk
      · omega
      · rw [ends_right hqs hk'] at he
        obtain ⟨e', he', rfl⟩ := List.mem_map.mp he
        exact .inr (.inl ⟨i', hi', j', hj', k', hk', by omega, e', he'⟩)
  · rintro (⟨i, hi, j, hj, k, hk, hlt, e, he⟩ | ⟨i, hi, j, hj, k, hk, hlt, e, he⟩ |
      ⟨⟨i, hi, j, hj⟩, k, hk, e, he⟩)
    · refine ⟨i, by omega, j, ?_, k, by omega, hlt, e, ?_⟩
      · rwa [ends_left hps hi]
      · rwa [ends_left hqs hk]
    · refine ⟨s.length + 1 + i, by omega, s.length + 1 + j, ?_, s.length + 1 + k, by omega,
        by omega, s.length + 1 + e, ?_⟩
      · rw [ends_right hps hi]
        exact List.mem_map_of_mem hj
      · rw [ends_right hqs hk]
        exact List.mem_map_of_mem he
    · have hjl := le_length hj hi
      refine ⟨i, by omega, j, ?_, s.length + 1 + k, by omega, by omega, s.length + 1 + e, ?_⟩
      · rwa [ends_left hps hi]
      · rw [ends_right hqs hk]
        exact List.mem_map_of_mem he

end Behind

end Cut

end Pattern

end MemoryPlane
