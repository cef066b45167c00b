import Mathlib.Data.List.Infix

/-!
# Replacing the occurrences of a word

A search goes through a text from the left and puts a replacement in place of each match of a fixed
width. A word that starts with a letter it has nowhere else, compared after some reduction of the
letters, occurs in the result exactly where it occurred without being a match, when the replacement
begins with a letter that the word does not have and nowhere has the first letter of the word.
-/

namespace MemoryPlane

namespace Replacement

variable {α β : Type}

/-- Every match is replaced, from the left and without overlaps; `skip` counts the letters of the
current match still to be dropped. -/
def replaceAll (isMatch : List α → Bool) (width : ℕ) (replacement : List α) (skip : ℕ) :
    List α → List α
  | [] => []
  | c :: cs =>
    match skip with
    | k + 1 => replaceAll isMatch width replacement k cs
    | 0 =>
      if isMatch (c :: cs) then
        replacement ++ replaceAll isMatch width replacement (width - 1) cs
      else c :: replaceAll isMatch width replacement 0 cs

/-- The word stands at a position of the text, with its letters reduced. -/
def At (key : α → β) (word : List β) (text : List α) (i : ℕ) : Prop :=
  word <+: (text.drop i).map key

variable {key : α → β} {word : List β} {text s t : List α} {b c : α} {i : ℕ}

theorem at_zero : At key word text 0 ↔ word <+: text.map key := Iff.rfl

theorem at_cons_succ : At key word (c :: text) (i + 1) ↔ At key word text i := Iff.rfl

theorem not_at_nil (hword : word ≠ []) : ¬ At key word [] i := by
  rw [At, List.drop_nil, List.map_nil, List.prefix_nil]
  exact hword

/-- A word has room where it stands. -/
theorem At.le_length (h : At key word text i) (hword : word ≠ []) :
    i + word.length ≤ text.length := by
  have hle := h.length_le
  rw [List.length_map, List.length_drop] at hle
  have hpos := List.length_pos_iff.mpr hword
  omega

/-- A reduction that agrees on the letters of the word finds it as well. -/
theorem At.mono {key' : α → β} (hkey : ∀ c, key c ∈ word → key' c = key c)
    (h : At key word text i) : At key' word text i := by
  rw [At] at h ⊢
  generalize text.drop i = s at h
  induction s generalizing word with
  | nil => exact h
  | cons c s ih =>
    cases word with
    | nil => exact List.nil_prefix
    | cons w word =>
      rw [List.map_cons, List.cons_prefix_cons] at h ⊢
      obtain ⟨rfl, h⟩ := h
      exact ⟨(hkey c List.mem_cons_self).symm,
        ih (fun d hd => hkey d (List.mem_cons_of_mem _ hd)) h⟩

/-- A prefix without the separator ends before it. -/
theorem prefix_before_separator (hb : key b ∉ word) :
    word <+: (s ++ b :: t).map key ↔ word <+: s.map key := by
  induction s generalizing word with
  | nil =>
    cases word with
    | nil => simp
    | cons w word =>
      rw [List.nil_append, List.map_cons, List.cons_prefix_cons, List.map_nil]
      simp only [List.mem_cons, not_or] at hb
      constructor
      · rintro ⟨rfl, -⟩
        exact absurd rfl hb.1
      · intro h
        cases List.prefix_nil.mp h
  | cons c s ih =>
    cases word with
    | nil => simp
    | cons w word =>
      simp only [List.cons_append, List.map_cons, List.cons_prefix_cons]
      rw [ih fun hmem => hb (List.mem_cons_of_mem _ hmem)]

/-- A word without the separator stands on one side of it. -/
theorem at_separator (hb : key b ∉ word) (hword : word ≠ []) :
    At key word (s ++ b :: t) i ↔
      At key word s i ∨ ∃ k, i = s.length + 1 + k ∧ At key word t k := by
  by_cases hi : i ≤ s.length
  · have hcut : At key word (s ++ b :: t) i ↔ At key word s i := by
      rw [At, List.drop_append_of_le_length hi]
      exact prefix_before_separator hb
    rw [hcut]
    constructor
    · exact .inl
    · rintro (h | ⟨k, rfl, -⟩)
      · exact h
      · omega
  · obtain ⟨k, rfl⟩ : ∃ k, i = s.length + 1 + k := ⟨i - (s.length + 1), by omega⟩
    have hcut : At key word (s ++ b :: t) (s.length + 1 + k) ↔ At key word t k := by
      have hdrop : (s ++ b :: t).drop (s.length + 1 + k) = t.drop k := by
        rw [Nat.add_assoc, ← List.drop_drop, List.drop_left, Nat.add_comm, List.drop_succ_cons]
      rw [At, hdrop, At]
    rw [hcut]
    constructor
    · exact fun h => .inr ⟨k, rfl, h⟩
    · rintro (h | ⟨k', hk, h⟩)
      · have hle := h.le_length hword
        omega
      · obtain rfl : k = k' := by omega
        exact h

/-- A position of a text is its start or a position behind its first letter. -/
theorem exists_iff_zero_or_succ {p : ℕ → Prop} : (∃ i, p i) ↔ p 0 ∨ ∃ i, p (i + 1) := by
  constructor
  · rintro ⟨i, h⟩
    cases i with
    | zero => exact .inl h
    | succ i => exact .inr ⟨i, h⟩
  · rintro (h | ⟨i, h⟩)
    · exact ⟨0, h⟩
    · exact ⟨i + 1, h⟩

section Word

variable {isMatch : List α → Bool} {replacement : List α} {first : β} {rest : List β}

/-- The word does not start in letters that differ from its first one. -/
theorem exists_at_append (hs : ∀ c ∈ s, key c ≠ first) :
    (∃ i, At key (first :: rest) (s ++ t) i) ↔ ∃ i, At key (first :: rest) t i := by
  induction s with
  | nil => rfl
  | cons c s ih =>
    obtain ⟨hc, hs⟩ := List.forall_mem_cons.mp hs
    have hzero : ¬ At key (first :: rest) (c :: (s ++ t)) 0 := by
      rw [at_zero, List.map_cons, List.cons_prefix_cons]
      exact fun h => hc h.1.symm
    rw [List.cons_append, exists_iff_zero_or_succ, or_iff_right hzero]
    exact ih hs

/-- Neither does it stand in letters without its first one. -/
theorem not_at_of_forall (hs : ∀ c ∈ s, key c ≠ first) : ¬ At key (first :: rest) s i := by
  intro h
  have hmem : first ∈ (s.drop i).map key := h.subset List.mem_cons_self
  obtain ⟨c, hc, hkey⟩ := List.mem_map.mp hmem
  exact hs c (List.mem_of_mem_drop hc) hkey

theorem at_append_left (hs : ∀ c ∈ s, key c ≠ first) :
    At key (first :: rest) (s ++ t) i ↔ ∃ k, i = s.length + k ∧ At key (first :: rest) t k := by
  by_cases hi : i < s.length
  · have hhead : (s ++ t).drop i = s[i] :: ((s ++ t).drop (i + 1)) := by
      rw [List.drop_eq_getElem_cons (by rw [List.length_append]; omega),
        List.getElem_append_left hi]
    have hno : ¬ At key (first :: rest) (s ++ t) i := by
      rw [At, hhead, List.map_cons, List.cons_prefix_cons]
      exact fun h => hs _ (List.getElem_mem hi) h.1.symm
    constructor
    · exact fun h => absurd h hno
    · rintro ⟨k, rfl, -⟩
      omega
  · obtain ⟨k, rfl⟩ : ∃ k, i = s.length + k := ⟨i - s.length, by omega⟩
    have hdrop : (s ++ t).drop (s.length + k) = t.drop k := by
      rw [← List.drop_drop, List.drop_left]
    rw [At, hdrop]
    constructor
    · exact fun h => ⟨k, rfl, h⟩
    · rintro ⟨k', hk, h⟩
      obtain rfl : k = k' := by omega
      exact h

theorem at_append_right (ht : ∀ c ∈ t, key c ∉ first :: rest) :
    At key (first :: rest) (s ++ t) i ↔ At key (first :: rest) s i := by
  cases t with
  | nil => rw [List.append_nil]
  | cons b t =>
    obtain ⟨hb, ht⟩ := List.forall_mem_cons.mp ht
    rw [at_separator hb (List.cons_ne_nil _ _), or_iff_left]
    rintro ⟨k, -, h⟩
    have hfirst : ∀ c ∈ t, key c ≠ first := by
      rintro c hc rfl
      exact ht c hc List.mem_cons_self
    exact not_at_of_forall hfirst h

section Search

variable (hmatch : ∀ s, isMatch s = true → first :: rest <+: s.map key) (hfirst : first ∉ rest)
  (hhead : ∃ r rs, replacement = r :: rs ∧ key r ∉ rest)
include hmatch hfirst hhead

/-- No match starts inside of the rest of the word, so the search leaves it where it stands. -/
theorem prefix_replaceAll {width : ℕ} {tail : List β} (htail : tail ⊆ rest) :
    tail <+: (replaceAll isMatch width replacement 0 text).map key ↔ tail <+: text.map key := by
  induction text generalizing tail with
  | nil => rfl
  | cons c cs ih =>
    cases tail with
    | nil => simp
    | cons w tail =>
      rw [replaceAll]
      split
      · rename_i hm
        constructor
        · intro h
          obtain ⟨r, rs, rfl, hr⟩ := hhead
          rw [List.cons_append, List.map_cons, List.cons_prefix_cons] at h
          rw [← h.1] at hr
          exact absurd (htail List.mem_cons_self) hr
        · intro h
          have hc := hmatch _ hm
          rw [List.map_cons, List.cons_prefix_cons] at h hc
          rw [hc.1, ← h.1] at hfirst
          exact absurd (htail List.mem_cons_self) hfirst
      · rw [List.map_cons, List.map_cons, List.cons_prefix_cons, List.cons_prefix_cons,
          ih (List.cons_subset.mp htail).2]

/-- In the result the word stands exactly where it stood and was no match. -/
theorem exists_at_replaceAll (hreplacement : ∀ c ∈ replacement, key c ≠ first) {skip : ℕ}
    (hskip : ∀ c ∈ text.take skip, key c ≠ first) :
    (∃ i, At key (first :: rest)
        (replaceAll isMatch (rest.length + 1) replacement skip text) i) ↔
      ∃ i, At key (first :: rest) text i ∧ isMatch (text.drop i) = false := by
  induction text generalizing skip with
  | nil =>
    have hnone : ∀ i, ¬ At key (first :: rest) ([] : List α) i := fun i => not_at_nil (by simp)
    exact ⟨fun ⟨i, h⟩ => absurd h (hnone i), fun ⟨i, h, _⟩ => absurd h (hnone i)⟩
  | cons c cs ih =>
    rw [exists_iff_zero_or_succ (p := fun i => At key (first :: rest) (c :: cs) i ∧ _)]
    simp only [at_cons_succ, List.drop_succ_cons]
    cases skip with
    | succ k =>
      have hc : key c ≠ first := hskip c (by simp)
      have hzero : ¬ At key (first :: rest) (c :: cs) 0 := by
        rw [at_zero, List.map_cons, List.cons_prefix_cons]
        exact fun h => hc h.1.symm
      rw [replaceAll, ih fun d hd => hskip d (by simp [hd])]
      simp only [hzero, false_and, false_or]
    | zero =>
      rw [replaceAll]
      split
      · rename_i hm
        have hdrop : isMatch ((c :: cs).drop 0) = true := hm
        have hinside : ∀ d ∈ cs.take rest.length, key d ≠ first := by
          have hword := hmatch _ hm
          rw [List.map_cons, List.cons_prefix_cons] at hword
          have htake : (cs.take rest.length).map key = rest := by
            rw [List.map_take]
            exact (List.prefix_iff_eq_take.mp hword.2).symm
          intro d hd hkey
          apply hfirst
          rw [← htake, ← hkey]
          exact List.mem_map_of_mem hd
        rw [exists_at_append hreplacement, Nat.add_sub_cancel, ih hinside]
        simp only [hdrop, Bool.true_eq_false, and_false, false_or]
      · rename_i hm
        have hdrop : isMatch ((c :: cs).drop 0) = false := eq_false_of_ne_true hm
        have hhere : At key (first :: rest)
            (c :: replaceAll isMatch (rest.length + 1) replacement 0 cs) 0 ↔
              At key (first :: rest) (c :: cs) 0 := by
          rw [at_zero, at_zero, List.map_cons, List.map_cons, List.cons_prefix_cons,
            List.cons_prefix_cons,
            prefix_replaceAll hmatch hfirst hhead (List.Subset.refl rest)]
        rw [exists_iff_zero_or_succ, hhere]
        simp only [at_cons_succ, hdrop, and_true]
        rw [ih (by simp)]

end Search

end Word

end Replacement

end MemoryPlane
