import MemoryPlane.Python.Lines

/-!
# Pieces of a text

What replacing a pattern and stripping do to the pieces of a text between its separators. Texts on
the two sides of a character outside the pattern are replaced in one by one, and what every piece
has is kept when it survives a change of one piece.
-/

namespace MemoryPlane

namespace Text

section Splitting

variable {α : Type} {p : α → Bool}

theorem mem_of_mem_splitOnP {s l : List α} {c : α} (hl : l ∈ s.splitOnP p) (hc : c ∈ l) :
    c ∈ s := by
  induction s generalizing l with
  | nil =>
    rw [List.splitOnP_nil, List.mem_singleton] at hl
    rw [hl] at hc
    cases hc
  | cons d s ih =>
    rw [List.splitOnP_cons_eq_if_modifyHead] at hl
    obtain ⟨x, xs, hx⟩ := List.exists_cons_of_ne_nil (List.splitOnP_ne_nil p s)
    rw [hx] at hl ih
    split at hl
    · obtain rfl | hl := List.mem_cons.mp hl
      · cases hc
      · exact List.mem_cons_of_mem _ (ih hl hc)
    · obtain rfl | hl := List.mem_cons.mp hl
      · obtain rfl | hc := List.mem_cons.mp hc
        · exact List.mem_cons_self ..
        · exact List.mem_cons_of_mem _ (ih (List.mem_cons_self ..) hc)
      · exact List.mem_cons_of_mem _ (ih (List.mem_cons_of_mem _ hl) hc)

/-- Where two texts meet, the last piece of the first goes on with the first of the second. -/
theorem splitOnP_append {s t l r : List α} {front rest : List (List α)}
    (hs : s.splitOnP p = front ++ [l]) (ht : t.splitOnP p = r :: rest) :
    (s ++ t).splitOnP p = front ++ (l ++ r) :: rest := by
  induction s generalizing front l with
  | nil =>
    rw [List.splitOnP_nil] at hs
    obtain ⟨rfl, hl⟩ := List.append_inj' (show [] ++ [[]] = front ++ [l] from hs) rfl
    cases hl
    simpa using ht
  | cons c s ih =>
    obtain ⟨first, last, hsplit⟩ :=
      (List.eq_nil_or_concat (s.splitOnP p)).resolve_left (List.splitOnP_ne_nil p s)
    rw [List.concat_eq_append] at hsplit
    have hrest := ih hsplit
    rw [List.splitOnP_cons_eq_if_modifyHead, hsplit] at hs
    rw [List.cons_append, List.splitOnP_cons_eq_if_modifyHead, hrest]
    split at hs
    · rename_i hc
      rw [← List.cons_append] at hs
      obtain ⟨rfl, hl⟩ := List.append_inj' hs rfl
      cases hl
      rw [if_pos hc]
      rfl
    · rename_i hc
      rw [if_neg hc]
      cases first with
      | nil =>
        obtain ⟨rfl, hl⟩ := List.append_inj' (show [] ++ [c :: last] = front ++ [l] from hs) rfl
        cases hl
        rfl
      | cons f first =>
        rw [List.cons_append, List.modifyHead_cons, ← List.cons_append] at hs
        obtain ⟨rfl, hl⟩ := List.append_inj' hs rfl
        cases hl
        rfl

/-- Each separator starts one more piece. -/
theorem length_splitOnP_eq (p : α → Bool) (s : List α) :
    (s.splitOnP p).length = s.countP p + 1 := by
  induction s with
  | nil => rw [List.splitOnP_nil, List.countP_nil, List.length_singleton]
  | cons c s ih =>
    rw [List.splitOnP_cons_eq_if_modifyHead, List.countP_cons]
    split
    · rename_i hc
      rw [List.length_cons, ih]
    · rename_i hc
      rw [List.length_modifyHead, ih, Nat.add_zero]

theorem length_splitOn_eq [BEq α] (s : List α) (c : α) :
    (s.splitOn c).length = s.count c + 1 :=
  length_splitOnP_eq _ s

/-- Every piece has a property. -/
def AllPieces (p : α → Bool) (R : List α → Prop) (s : List α) : Prop := ∀ l ∈ s.splitOnP p, R l

variable {R : List α → Prop} {s t : List α} {c : α}

theorem allPieces_append_cons (hc : p c = true) :
    AllPieces p R (s ++ c :: t) ↔ AllPieces p R s ∧ AllPieces p R t := by
  simp only [AllPieces, List.splitOnP_append_cons s t hc, List.mem_append, or_imp, forall_and]

theorem allPieces_cons (hc : p c = true) : AllPieces p R (c :: t) ↔ R [] ∧ AllPieces p R t := by
  have h := allPieces_append_cons (R := R) (s := []) (t := t) hc
  rw [List.nil_append] at h
  rw [h]
  simp [AllPieces]

/-- Characters dropped on the left change the first piece. -/
theorem AllPieces.of_append_left {q : α → Bool} (h : AllPieces p R (s ++ t))
    (hs : ∀ c ∈ s, q c = true) (hR : ∀ u l, (∀ c ∈ u, q c = true) → R (u ++ l) → R l) :
    AllPieces p R t := by
  obtain ⟨front, last, hsplit⟩ :=
    (List.eq_nil_or_concat (s.splitOnP p)).resolve_left (List.splitOnP_ne_nil p s)
  rw [List.concat_eq_append] at hsplit
  obtain ⟨r, rest, ht⟩ := List.exists_cons_of_ne_nil (List.splitOnP_ne_nil p t)
  have hall := splitOnP_append hsplit ht
  intro l hl
  rw [ht, List.mem_cons] at hl
  obtain rfl | hl := hl
  · have hmeet : R (last ++ l) := h _ (by rw [hall]; simp)
    refine hR last l (fun c hc => hs c ?_) hmeet
    exact mem_of_mem_splitOnP (by rw [hsplit]; simp) hc
  · exact h l (by rw [hall]; simp [hl])

/-- Characters dropped on the right change the last piece. -/
theorem AllPieces.of_append_right {q : α → Bool} (h : AllPieces p R (s ++ t))
    (ht : ∀ c ∈ t, q c = true) (hR : ∀ l u, (∀ c ∈ u, q c = true) → R (l ++ u) → R l) :
    AllPieces p R s := by
  obtain ⟨front, last, hsplit⟩ :=
    (List.eq_nil_or_concat (s.splitOnP p)).resolve_left (List.splitOnP_ne_nil p s)
  rw [List.concat_eq_append] at hsplit
  obtain ⟨r, rest, hright⟩ := List.exists_cons_of_ne_nil (List.splitOnP_ne_nil p t)
  have hall := splitOnP_append hsplit hright
  intro l hl
  rw [hsplit, List.mem_append, List.mem_singleton] at hl
  obtain hl | rfl := hl
  · exact h l (by rw [hall]; simp [hl])
  · have hmeet : R (l ++ r) := h _ (by rw [hall]; simp)
    refine hR l r (fun c hc => ht c ?_) hmeet
    exact mem_of_mem_splitOnP (by rw [hright]; simp) hc

end Splitting

section Replacing

variable {pat rep a b s : List Char} {c : Char}

theorem replaceFrom_skip (k : ℕ) (s : List Char) :
    replaceFrom pat rep k s = replace pat rep (s.drop k) := by
  induction k generalizing s with
  | zero => rfl
  | succ k ih =>
    cases s with
    | nil => rfl
    | cons c s => exact ih s

/-- The first occurrence is replaced, and what follows it by itself. -/
theorem replace_of_occurs (hpat : pat ≠ []) (h : occurs pat s = true) :
    ∃ a b, s = a ++ (pat ++ b) ∧ replace pat rep s = a ++ (rep ++ replace pat rep b) := by
  induction s with
  | nil =>
    rw [occurs, List.isEmpty_iff] at h
    exact absurd h hpat
  | cons c s ih =>
    by_cases hfirst : pat.isPrefixOf (c :: s) = true
    · obtain ⟨b, hb⟩ := List.isPrefixOf_iff_prefix.mp hfirst
      refine ⟨[], b, hb.symm, ?_⟩
      have hrest : s.drop (pat.length - 1) = b := by
        have hpos := List.length_pos_iff.mpr hpat
        have hdrop : (c :: s).drop pat.length = b := by rw [← hb, List.drop_left]
        rwa [← Nat.sub_add_cancel hpos, List.drop_succ_cons] at hdrop
      rw [replace, replaceFrom, if_pos hfirst, replaceFrom_skip, hrest]
      rfl
    · rw [occurs, Bool.or_eq_true] at h
      obtain ⟨a, b, hs, hreplaced⟩ := ih (h.resolve_left hfirst)
      refine ⟨c :: a, b, by rw [hs]; rfl, ?_⟩
      rw [replace, replaceFrom, if_neg hfirst]
      exact congrArg (c :: ·) hreplaced

/-- No occurrence spans a character outside the pattern. -/
theorem isPrefixOf_append_cons (hc : c ∉ pat) :
    pat.isPrefixOf (a ++ c :: b) = pat.isPrefixOf a := by
  rw [Bool.eq_iff_iff, List.isPrefixOf_iff_prefix, List.isPrefixOf_iff_prefix]
  constructor
  · intro h
    by_cases hlen : pat.length ≤ a.length
    · exact List.prefix_of_prefix_length_le h (List.prefix_append ..) hlen
    · have hshort : a ++ [c] <+: pat := by
        apply List.prefix_of_prefix_length_le ?_ h ?_
        · exact ⟨b, by simp⟩
        · rw [List.length_append, List.length_singleton]
          omega
      exact absurd (hshort.subset (by simp)) hc
  · exact fun h => h.trans (List.prefix_append ..)

theorem occurs_append_cons (hpat : pat ≠ []) (hc : c ∉ pat) :
    occurs pat (a ++ c :: b) = (occurs pat a || occurs pat b) := by
  have hempty : pat.isPrefixOf [] = false := by
    cases pat with
    | nil => exact absurd rfl hpat
    | cons d pat => rfl
  induction a with
  | nil =>
    have hstart := isPrefixOf_append_cons (a := []) (b := b) hc
    rw [List.nil_append] at hstart
    have hnone : pat.isEmpty = false := List.isEmpty_eq_false_iff.mpr hpat
    simp only [List.nil_append, occurs, hstart, hempty, hnone]
  | cons d a ih =>
    have hstart := isPrefixOf_append_cons (a := d :: a) (b := b) hc
    rw [List.cons_append] at hstart
    rw [List.cons_append, occurs, hstart, ih, occurs, Bool.or_assoc]

/-- Each side of a character outside the pattern is replaced in by itself. -/
theorem replace_append_cons (hpat : pat ≠ []) (hc : c ∉ pat) :
    replace pat rep (a ++ c :: b) = replace pat rep a ++ c :: replace pat rep b := by
  have hpos := List.length_pos_iff.mpr hpat
  have hskip : ∀ k ≤ a.length, replaceFrom pat rep k (a ++ c :: b) =
      replaceFrom pat rep k a ++ c :: replace pat rep b := by
    induction a with
    | nil =>
      intro k hk
      obtain rfl := Nat.le_zero.mp hk
      have hstart := isPrefixOf_append_cons (a := []) (b := b) hc
      rw [List.nil_append] at hstart ⊢
      have hempty : pat.isPrefixOf [] = false := by
        cases pat with
        | nil => exact absurd rfl hpat
        | cons d pat => rfl
      simp only [List.nil_append, replaceFrom, hstart, hempty, Bool.false_eq_true, if_false,
        replace]
    | cons d a ih =>
      intro k hk
      cases k with
      | succ k => exact ih k (by simpa using hk)
      | zero =>
        have hstart := isPrefixOf_append_cons (a := d :: a) (b := b) hc
        rw [List.cons_append] at hstart ⊢
        rw [replaceFrom, hstart, replaceFrom]
        by_cases hfirst : pat.isPrefixOf (d :: a) = true
        · have hlen := (List.isPrefixOf_iff_prefix.mp hfirst).length_le
          rw [List.length_cons] at hlen
          rw [if_pos hfirst, if_pos hfirst, ih _ (by omega), List.append_assoc]
        · rw [if_neg hfirst, if_neg hfirst, ih 0 (Nat.zero_le _), List.cons_append]
  exact hskip 0 (Nat.zero_le _)

/-- Characters of a replacement are of the text or new. -/
theorem mem_replaceFrom {pat rep s : List Char} {skip : ℕ} {c : Char}
    (hc : c ∈ replaceFrom pat rep skip s) : c ∈ s ∨ c ∈ rep := by
  induction s generalizing skip with
  | nil => exact .inl hc
  | cons d s ih =>
    cases skip with
    | succ k => exact (ih hc).imp (List.mem_cons_of_mem _) id
    | zero =>
      rw [replaceFrom] at hc
      split at hc
      · obtain hc | hc := List.mem_append.mp hc
        · exact .inr hc
        · exact (ih hc).imp (List.mem_cons_of_mem _) id
      · obtain rfl | hc := List.mem_cons.mp hc
        · exact .inl (List.mem_cons_self ..)
        · exact (ih hc).imp (List.mem_cons_of_mem _) id

/-- Characters outside the pattern and the replacement stay. -/
theorem count_replace (hpat : pat ≠ []) (hc : c ∉ pat) (hrep : c ∉ rep) (s : List Char) :
    (replace pat rep s).count c = s.count c := by
  induction hn : s.length using Nat.strong_induction_on generalizing s with
  | _ n ih =>
    by_cases hocc : occurs pat s = true
    · obtain ⟨a, b, rfl, hreplaced⟩ := replace_of_occurs hpat hocc
      have hpos := List.length_pos_iff.mpr hpat
      simp only [List.length_append] at hn
      have hrest := ih b.length (by omega) b rfl
      rw [hreplaced]
      simp only [List.count_append, hrest, List.count_eq_zero_of_not_mem hc,
        List.count_eq_zero_of_not_mem hrep]
    · rw [replace_of_not_occurs (by simpa using hocc)]

section Escaping

variable {d e : Char}

/-- Replacing one character goes from character to character. -/
theorem replace_single_cons (rep : List Char) (s : List Char) :
    replace [d] rep (c :: s) = (if c = d then rep else [c]) ++ replace [d] rep s := by
  rw [replace, replaceFrom, List.isPrefixOf]
  by_cases hc : c = d
  · simp [hc, replace]
  · have hne : (d == c) = false := by simpa using fun h => hc h.symm
    simp [hc, hne, replace]

/-- A pair of characters is replaced where it stands. -/
theorem replace_pair_cons (rep : List Char) (s : List Char) :
    replace [d, e] rep (d :: e :: s) = rep ++ replace [d, e] rep s := by
  simp [replace, replaceFrom]

/-- A character that starts no pair stays. -/
theorem replace_pair_skip (rep : List Char) (hc : c ≠ d ∨ s.head? ≠ some e) :
    replace [d, e] rep (c :: s) = c :: replace [d, e] rep s := by
  have hstart : [d, e].isPrefixOf (c :: s) = false := by
    rw [List.isPrefixOf, Bool.and_eq_false_iff]
    obtain hc | hs := hc
    · exact .inl (by simpa using fun h => hc h.symm)
    · right
      cases s with
      | nil => rfl
      | cons f s =>
        have hne : e ≠ f := by
          rintro rfl
          exact hs rfl
        simp [List.isPrefixOf, hne]
  rw [replace, replaceFrom, hstart]
  rfl

/-- Characters behind an escape are found again, for an escape that is another character. -/
theorem replace_escaped (hde : d ≠ e) (s : List Char) :
    replace [d, e] [e] (replace [e] [d, e] s) = s := by
  induction s with
  | nil => rfl
  | cons c s ih =>
    rw [replace_single_cons]
    by_cases hc : c = e
    · rw [if_pos hc, List.cons_append, List.cons_append, List.nil_append, replace_pair_cons, ih, hc]
      rfl
    · have hhead : (replace [e] [d, e] s).head? ≠ some e := by
        cases s with
        | nil => simp [replace, replaceFrom]
        | cons f s =>
          rw [replace_single_cons]
          by_cases hf : f = e
          · simpa [hf] using hde
          · simp [hf]
      rw [if_neg hc, List.singleton_append, replace_pair_skip _ (.inr hhead), ih]

/-- Doubled characters are found again. -/
theorem replace_doubled (s : List Char) : replace [d, d] [d] (replace [d] [d, d] s) = s := by
  induction s with
  | nil => rfl
  | cons c s ih =>
    rw [replace_single_cons]
    by_cases hc : c = d
    · rw [if_pos hc, List.cons_append, List.cons_append, List.nil_append, replace_pair_cons, ih, hc]
      rfl
    · rw [if_neg hc, List.singleton_append, replace_pair_skip _ (.inl hc), ih]

end Escaping

end Replacing

section Trimming

variable {α : Type}

/-- A list without the elements of a class at its ends. -/
def trim (p : α → Bool) (s : List α) : List α := ((s.dropWhile p).reverse.dropWhile p).reverse

/-- A list is what stays of it with the elements of the class at its ends. -/
theorem exists_trim (p : α → Bool) (s : List α) : ∃ a b, s = a ++ (trim p s ++ b) ∧
    (∀ c ∈ a, p c = true) ∧ ∀ c ∈ b, p c = true := by
  refine ⟨s.takeWhile p, ((s.dropWhile p).reverse.takeWhile p).reverse, ?_, ?_, ?_⟩
  · have hright : trim p s ++ ((s.dropWhile p).reverse.takeWhile p).reverse = s.dropWhile p := by
      rw [trim, ← List.reverse_append, List.takeWhile_append_dropWhile, List.reverse_reverse]
    rw [hright, List.takeWhile_append_dropWhile]
  · exact fun c hc => List.mem_takeWhile_imp hc
  · exact fun c hc => List.mem_takeWhile_imp (List.mem_reverse.mp hc)

theorem getLast?_trim {p : α → Bool} {s : List α} {c : α} (h : (trim p s).getLast? = some c) :
    p c = false := by
  rw [trim, List.getLast?_reverse] at h
  have hhead := List.head?_dropWhile_not p (s.dropWhile p).reverse
  rw [h] at hhead
  exact hhead

end Trimming

section Stripping

variable {p : Char → Bool} {s : List Char}

/-- Characters of the class do not matter at the ends. -/
theorem stripWith_padded {a b : List Char} (ha : ∀ c ∈ a, p c = true) (hb : ∀ c ∈ b, p c = true)
    (t : List Char) : stripWith p (a ++ (t ++ b)) = stripWith p t := by
  have hright : rstripWith p (t.dropWhile p ++ b) = rstripWith p (t.dropWhile p) := by
    rw [rstripWith, List.reverse_append, List.dropWhile_append_of_pos, rstripWith]
    exact fun c hc => hb c (List.mem_reverse.mp hc)
  rw [stripWith, List.dropWhile_append_of_pos ha, stripWith]
  by_cases hall : ∀ c ∈ t, p c = true
  · have hnil : t.dropWhile p = [] := List.dropWhile_eq_nil_iff.mpr hall
    have hb' : (t ++ b).dropWhile p = [] := by
      rw [List.dropWhile_eq_nil_iff]
      intro c hc
      obtain hc | hc := List.mem_append.mp hc
      · exact hall c hc
      · exact hb c hc
    rw [hnil, hb']
  · have hsplit : (t ++ b).dropWhile p = t.dropWhile p ++ b := by
      rw [List.dropWhile_append, if_neg]
      rw [List.isEmpty_iff, List.dropWhile_eq_nil_iff]
      exact hall
    rw [hsplit, hright]

/-- A text is what stays of it with the characters of the class at its ends. -/
theorem exists_stripWith (p : Char → Bool) (s : List Char) : ∃ a b, s = a ++ (stripWith p s ++ b) ∧
    (∀ c ∈ a, p c = true) ∧ ∀ c ∈ b, p c = true :=
  exists_trim p s

/-- Characters outside the class stay. -/
theorem count_stripWith {c : Char} (hc : p c = false) (s : List Char) :
    (stripWith p s).count c = s.count c := by
  obtain ⟨a, b, hs, ha, hb⟩ := exists_stripWith p s
  have hnot : ∀ u : List Char, (∀ d ∈ u, p d = true) → c ∉ u := by
    intro u hu hmem
    rw [hu c hmem] at hc
    cases hc
  nth_rewrite 2 [hs]
  simp only [List.count_append, List.count_eq_zero_of_not_mem (hnot a ha),
    List.count_eq_zero_of_not_mem (hnot b hb), Nat.zero_add, Nat.add_zero]

end Stripping

section Joining

/-- Joining adds line feeds only. -/
theorem count_joinLines {c : Char} (hc : c ≠ '\n') (ls : List (List Char)) :
    (joinLines ls).count c = (ls.map (List.count c)).sum := by
  induction ls with
  | nil => rfl
  | cons l ls ih =>
    by_cases hnil : ls = []
    · subst hnil
      simp [joinLines_singleton]
    · rw [joinLines_cons hnil, List.count_append, List.count_cons_of_ne hc.symm, ih]
      rfl

end Joining

section Words

theorem runs_of_spaces {b : List Char} (hb : ∀ c ∈ b, isSpace c = true) :
    runs (fun c => !isSpace c) [] b = [] := by
  induction b with
  | nil => rfl
  | cons c b ih =>
    rw [runs]
    simp only [hb c (List.mem_cons_self ..), Bool.not_true, Bool.false_eq_true, if_false,
      List.isEmpty_nil, if_true]
    exact ih fun d hd => hb d (List.mem_cons_of_mem _ hd)

/-- White space around a word adds no words. -/
theorem length_split_le {a m b : List Char} (ha : ∀ c ∈ a, isSpace c = true)
    (hm : ∀ c ∈ m, isSpace c = false) (hb : ∀ c ∈ b, isSpace c = true) :
    (split (a ++ (m ++ b))).length ≤ 1 := by
  have hend : ∀ acc : List Char, (runs (fun c => !isSpace c) acc b).length ≤ 1 := by
    intro acc
    cases b with
    | nil =>
      rw [runs]
      split <;> simp
    | cons c b =>
      rw [runs]
      simp only [hb c (List.mem_cons_self ..), Bool.not_true, Bool.false_eq_true, if_false,
        runs_of_spaces fun d hd => hb d (List.mem_cons_of_mem _ hd)]
      split <;> simp
  have hword : ∀ acc : List Char, (runs (fun c => !isSpace c) acc (m ++ b)).length ≤ 1 := by
    induction m with
    | nil => exact hend
    | cons c m ih =>
      intro acc
      have hc : isSpace c = false := hm c (List.mem_cons_self ..)
      rw [List.cons_append, runs]
      simp only [hc, Bool.not_false, if_true]
      exact ih (fun d hd => hm d (List.mem_cons_of_mem _ hd)) _
  rw [split]
  induction a with
  | nil => exact hword []
  | cons c a ih =>
    rw [List.cons_append, runs]
    simp only [ha c (List.mem_cons_self ..), Bool.not_true, Bool.false_eq_true, if_false,
      List.isEmpty_nil, if_true]
    exact ih fun d hd => ha d (List.mem_cons_of_mem _ hd)

end Words

end Text

end MemoryPlane
