import Mathlib.Algebra.GroupWithZero.Nat
import MemoryPlane.Python.Text

/-!
# Lines of a text

Splitting at every line boundary of the language, joining with line feeds, and replacing a
pattern. Joining what was split gives the text back when line feeds are its only boundaries.
-/

namespace MemoryPlane

/-- A line boundary of `str.splitlines`. -/
def isLineBreak (c : Char) : Bool :=
  let n := c.toNat
  (0x0a ≤ n && n ≤ 0x0d) || (0x1c ≤ n && n ≤ 0x1e) || n == 0x85 || n == 0x2028 || n == 0x2029

namespace Text

/-- A carriage return before a line feed belongs to the same boundary. -/
def dropReturns : List Char → List Char
  | [] => []
  | '\r' :: '\n' :: cs => '\n' :: dropReturns cs
  | c :: cs => c :: dropReturns cs

/-- The pieces between line boundaries, the last of which is no line if it is empty. -/
def dropEmptyEnd (pieces : List (List Char)) : List (List Char) :=
  if pieces.getLast? = some [] then pieces.dropLast else pieces

/-- `s.splitlines()`. -/
def splitlines (s : List Char) : List (List Char) :=
  dropEmptyEnd ((dropReturns s).splitOnP isLineBreak)

/-- `"\n".join(lines)`. -/
def joinLines (lines : List (List Char)) : List Char := ['\n'].intercalate lines

/-- Replacing every occurrence of a pattern, from the left and without overlaps; `skip` counts
the characters of the current occurrence still to be dropped. -/
def replaceFrom (pat rep : List Char) (skip : ℕ) : List Char → List Char
  | [] => []
  | c :: cs =>
    match skip with
    | k + 1 => replaceFrom pat rep k cs
    | 0 =>
      if pat.isPrefixOf (c :: cs) then rep ++ replaceFrom pat rep (pat.length - 1) cs
      else c :: replaceFrom pat rep 0 cs

/-- `s.replace(pat, rep)` of a pattern that is not empty. -/
def replace (pat rep s : List Char) : List Char := replaceFrom pat rep 0 s

/-- `s.startswith(pat)`. -/
def startsWith (pat s : List Char) : Bool := pat.isPrefixOf s

/-- `s.endswith(pat)`. -/
def endsWith (pat s : List Char) : Bool := pat.isSuffixOf s

section Pieces

variable {α : Type} {p : α → Bool}

/-- The pieces hold no separator. -/
theorem not_of_mem_splitOnP {s l : List α} {c : α} (hl : l ∈ s.splitOnP p) (hc : c ∈ l) :
    p c = false := by
  induction s generalizing l with
  | nil =>
    rw [List.splitOnP_nil, List.mem_singleton] at hl
    rw [hl] at hc
    cases hc
  | cons d s ih =>
    rw [List.splitOnP_cons_eq_if_modifyHead] at hl
    obtain ⟨x, xs, hx⟩ := List.exists_cons_of_ne_nil (List.splitOnP_ne_nil p s)
    rw [hx] at hl ih
    split at hl
    · obtain rfl | hl := List.mem_cons.mp hl
      · cases hc
      · exact ih hl hc
    · rename_i hd
      obtain rfl | hl := List.mem_cons.mp hl
      · obtain rfl | hc := List.mem_cons.mp hc
        · simpa using hd
        · exact ih (List.mem_cons_self ..) hc
      · exact ih (List.mem_cons_of_mem _ hl) hc

/-- The last piece is empty only after a separator. -/
theorem getLast?_splitOnP_ne {s : List α} (hs : s ≠ [])
    (h : ∀ c, s.getLast? = some c → p c = false) :
    (s.splitOnP p).getLast? ≠ some [] := by
  induction s with
  | nil => exact absurd rfl hs
  | cons d s ih =>
    rw [List.splitOnP_cons_eq_if_modifyHead]
    cases s with
    | nil =>
      have hd : p d = false := h d rfl
      simp [hd]
    | cons e s =>
      have hlast := ih (by simp) fun c hc => h c (by rw [List.getLast?_cons_cons, hc])
      obtain ⟨x, xs, hx⟩ := List.exists_cons_of_ne_nil (List.splitOnP_ne_nil p (e :: s))
      rw [hx] at hlast ⊢
      split
      · rw [List.getLast?_cons_cons]
        exact hlast
      · cases xs with
        | nil => simp
        | cons y ys =>
          rw [List.modifyHead_cons, List.getLast?_cons_cons]
          rwa [List.getLast?_cons_cons] at hlast

/-- Splitting loses the separators only. -/
theorem sum_length_splitOnP (s : List α) :
    ((s.splitOnP p).map List.length).sum = s.countP fun c => !p c := by
  induction s with
  | nil => rfl
  | cons d s ih =>
    rw [List.splitOnP_cons_eq_if_modifyHead]
    obtain ⟨x, xs, hx⟩ := List.exists_cons_of_ne_nil (List.splitOnP_ne_nil p s)
    rw [hx] at ih ⊢
    simp only [List.map_cons, List.sum_cons] at ih
    split
    · rename_i hd
      simp [hd, ← ih]
    · rename_i hd
      simp only [List.modifyHead_cons, List.map_cons, List.sum_cons, List.length_cons,
        List.countP_cons, hd, Bool.not_false, if_true]
      omega

/-- Separators that agree on a list split it alike. -/
theorem splitOnP_congr {q : α → Bool} {s : List α} (h : ∀ c ∈ s, p c = q c) :
    s.splitOnP p = s.splitOnP q := by
  induction s with
  | nil => rfl
  | cons d s ih =>
    have hs := ih fun c hc => h c (List.mem_cons_of_mem _ hc)
    rw [List.splitOnP_cons_eq_if_modifyHead, List.splitOnP_cons_eq_if_modifyHead,
      h d (List.mem_cons_self ..), hs]

end Pieces

section Breaks

variable {s t l : List Char} {ls : List (List Char)}

/-- A line boundary is white space. -/
theorem isSpace_of_isLineBreak {c : Char} (h : isLineBreak c = true) : isSpace c = true := by
  simp only [isLineBreak, isSpace, Bool.or_eq_true, Bool.and_eq_true, decide_eq_true_eq,
    beq_iff_eq] at h ⊢
  omega

/-- Only a carriage return before a line feed is dropped. -/
theorem dropReturns_cons {c : Char} (h : c = '\r' → s.head? ≠ some '\n') :
    dropReturns (c :: s) = c :: dropReturns s := by
  rw [dropReturns]
  rintro cs rfl rfl
  exact h rfl rfl

/-- A text is read part by part, unless it is cut inside a boundary. -/
theorem dropReturns_append (h : s.getLast? = some '\r' → t.head? ≠ some '\n') :
    dropReturns (s ++ t) = dropReturns s ++ dropReturns t := by
  induction s using dropReturns.induct with
  | case1 => rfl
  | case2 cs ih =>
    have hcs : cs.getLast? = some '\r' → t.head? ≠ some '\n' := by
      intro hlast
      apply h
      rw [List.getLast?_cons_cons, List.getLast?_cons, hlast]
      rfl
    simp only [List.cons_append, dropReturns, ih hcs]
  | case3 c cs hne ih =>
    have hhead : c = '\r' → cs.head? ≠ some '\n' := by
      rintro rfl hcs
      obtain ⟨ds, rfl⟩ := List.head?_eq_some_iff.mp hcs
      exact hne ds rfl rfl
    cases cs with
    | nil =>
      rw [dropReturns_cons hhead, List.singleton_append, dropReturns_cons]
      · rfl
      · rintro rfl
        exact h rfl
    | cons d cs =>
      have htail := ih fun hlast => h (by rw [List.getLast?_cons_cons, hlast])
      rw [dropReturns_cons hhead, List.cons_append, dropReturns_cons, htail, List.cons_append]
      exact hhead

/-- What ends in a line feed still does. -/
theorem exists_dropReturns_feed (s : List Char) : ∃ r, dropReturns (s ++ ['\n']) = r ++ ['\n'] := by
  induction s using dropReturns.induct with
  | case1 => exact ⟨[], rfl⟩
  | case2 cs ih =>
    obtain ⟨r, hr⟩ := ih
    exact ⟨'\n' :: r, by simp only [List.cons_append, dropReturns, hr]⟩
  | case3 c cs hne ih =>
    obtain ⟨r, hr⟩ := ih
    by_cases hc : c = '\r' ∧ cs = []
    · obtain ⟨rfl, rfl⟩ := hc
      exact ⟨[], rfl⟩
    · refine ⟨c :: r, ?_⟩
      rw [List.cons_append, dropReturns_cons, hr, List.cons_append]
      rintro rfl hhead
      cases cs with
      | nil => exact hc ⟨rfl, rfl⟩
      | cons d cs =>
        cases hhead
        exact hne cs rfl rfl

/-- Text without carriage returns is read as it is. -/
theorem dropReturns_of_plain (h : ∀ c ∈ s, c ≠ '\r') : dropReturns s = s := by
  induction s with
  | nil => rfl
  | cons c cs ih =>
    rw [dropReturns_cons fun hc => absurd hc (h c (List.mem_cons_self ..)),
      ih fun d hd => h d (List.mem_cons_of_mem _ hd)]

/-- Dropping loses no character that is not a line boundary. -/
theorem countP_dropReturns (s : List Char) :
    ((dropReturns s).countP fun c => !isLineBreak c) = s.countP fun c => !isLineBreak c := by
  induction s using dropReturns.induct with
  | case1 => rfl
  | case2 cs ih =>
    have hr : isLineBreak '\r' = true := by decide
    simp [dropReturns, List.countP_cons, ih, hr]
  | case3 c cs hne ih =>
    rw [dropReturns_cons, List.countP_cons, List.countP_cons, ih]
    rintro rfl hhead
    obtain ⟨d, cs, rfl⟩ : ∃ d ds, cs = d :: ds := by
      cases cs with
      | nil => cases hhead
      | cons d ds => exact ⟨d, ds, rfl⟩
    cases hhead
    exact hne cs rfl rfl

theorem dropEmptyEnd_feed (pieces : List (List Char)) : dropEmptyEnd (pieces ++ [[]]) = pieces := by
  simp [dropEmptyEnd]

theorem dropEmptyEnd_append (ls : List (List Char)) {pieces : List (List Char)}
    (hne : pieces ≠ []) :
    dropEmptyEnd (ls ++ pieces) = ls ++ dropEmptyEnd pieces := by
  unfold dropEmptyEnd
  rw [List.getLast?_append_of_ne_nil _ hne, List.dropLast_append_of_ne_nil hne]
  split <;> rfl

/-- Lines before a line feed and lines after it. -/
theorem splitlines_append (s t : List Char) :
    splitlines (s ++ '\n' :: t) = splitlines (s ++ ['\n']) ++ splitlines t := by
  have hfeed : isLineBreak '\n' = true := by decide
  obtain ⟨r, hr⟩ := exists_dropReturns_feed s
  have hleft : splitlines (s ++ ['\n']) = r.splitOnP isLineBreak := by
    rw [splitlines, hr, List.splitOnP_append_cons _ _ hfeed, List.splitOnP_nil, dropEmptyEnd_feed]
  have hread : dropReturns (s ++ '\n' :: t) = r ++ '\n' :: dropReturns t := by
    rw [List.append_cons, dropReturns_append (by simp), hr, ← List.append_cons]
  rw [hleft, splitlines, hread, List.splitOnP_append_cons _ _ hfeed,
    dropEmptyEnd_append _ (List.splitOnP_ne_nil _ _)]
  rfl

theorem ne_return_of_unbroken (h : ∀ c ∈ s, isLineBreak c = false) : ∀ c ∈ s, c ≠ '\r' := by
  rintro c hc rfl
  exact absurd (h _ hc) (by decide)

/-- A line and what follows it. -/
theorem splitlines_line (hl : ∀ c ∈ l, isLineBreak c = false) (t : List Char) :
    splitlines (l ++ '\n' :: t) = l :: splitlines t := by
  have hfeed : isLineBreak '\n' = true := by decide
  have hplain : dropReturns (l ++ ['\n']) = l ++ ['\n'] := by
    apply dropReturns_of_plain
    intro c hc
    obtain hc | hc := List.mem_append.mp hc
    · exact ne_return_of_unbroken hl c hc
    · rw [List.mem_singleton.mp hc]
      decide
  have hline : splitlines (l ++ ['\n']) = [l] := by
    rw [splitlines, hplain, List.splitOnP_append_cons_of_forall_mem hl _ hfeed, List.splitOnP_nil]
    exact dropEmptyEnd_feed [l]
  rw [splitlines_append, hline]
  rfl

/-- A line feed at the end starts no line. -/
theorem splitlines_feed (hs : s ≠ []) (hlast : ∀ c, s.getLast? = some c → isLineBreak c = false) :
    splitlines (s ++ ['\n']) = splitlines s := by
  have hfeed : isLineBreak '\n' = true := by decide
  obtain ⟨front, c, rfl⟩ := (List.eq_nil_or_concat s).resolve_left hs
  rw [List.concat_eq_append] at hlast ⊢
  have hc : isLineBreak c = false := hlast c List.getLast?_concat
  have hread : dropReturns (front ++ [c]) = dropReturns front ++ [c] := by
    rw [dropReturns_append, dropReturns_cons (by simp)]
    · rfl
    · rintro - hhead
      cases hhead
      cases hc
  have hfed : dropReturns (front ++ [c] ++ ['\n']) = dropReturns (front ++ [c]) ++ ['\n'] := by
    rw [dropReturns_append]
    · rfl
    · intro h
      rw [List.getLast?_concat, Option.some.injEq] at h
      subst h
      cases hc
  have hpiece : ((dropReturns (front ++ [c])).splitOnP isLineBreak).getLast? ≠ some [] := by
    rw [hread]
    apply getLast?_splitOnP_ne (by simp)
    intro d hd
    rw [List.getLast?_concat, Option.some.injEq] at hd
    rwa [← hd]
  rw [splitlines, hfed, List.splitOnP_append_cons _ _ hfeed, List.splitOnP_nil, dropEmptyEnd_feed,
    splitlines, dropEmptyEnd, if_neg hpiece]

/-- The lines hold no boundary. -/
theorem unbroken_of_mem_splitlines (hl : l ∈ splitlines s) : ∀ c ∈ l, isLineBreak c = false := by
  intro c hc
  unfold splitlines dropEmptyEnd at hl
  split at hl
  · exact not_of_mem_splitOnP (List.dropLast_subset _ hl) hc
  · exact not_of_mem_splitOnP hl hc

/-- The lines hold every character that is not a boundary. -/
theorem sum_length_splitlines (s : List Char) :
    ((splitlines s).map List.length).sum = s.countP fun c => !isLineBreak c := by
  rw [← countP_dropReturns, ← sum_length_splitOnP]
  unfold splitlines dropEmptyEnd
  split
  · rename_i hlast
    obtain ⟨front, hfront⟩ := List.getLast?_eq_some_iff.mp hlast
    rw [hfront]
    simp
  · rfl

theorem joinLines_singleton (l : List Char) : joinLines [l] = l := List.intercalate_singleton

theorem joinLines_cons (hne : ls ≠ []) : joinLines (l :: ls) = l ++ '\n' :: joinLines ls := by
  rw [joinLines, List.intercalate_cons_of_ne_nil hne]
  simp [joinLines]

theorem joinLines_append {ks : List (List Char)} (hks : ks ≠ []) (hls : ls ≠ []) :
    joinLines (ks ++ ls) = joinLines ks ++ '\n' :: joinLines ls := by
  induction ks with
  | nil => exact absurd rfl hks
  | cons k ks ih =>
    by_cases hnil : ks = []
    · subst hnil
      rw [List.singleton_append, joinLines_cons hls, joinLines_singleton]
    · rw [List.cons_append, joinLines_cons (by simp [hls]), joinLines_cons hnil, ih hnil]
      simp

/-- The lines of joined lines; an empty one at the end is lost. -/
theorem splitlines_joinLines (hls : ∀ l ∈ ls, ∀ c ∈ l, isLineBreak c = false) :
    splitlines (joinLines ls) = dropEmptyEnd ls := by
  induction ls with
  | nil => rfl
  | cons l ls ih =>
    have hl := hls l (List.mem_cons_self ..)
    have hrest := ih fun k hk => hls k (List.mem_cons_of_mem _ hk)
    by_cases hnil : ls = []
    · subst hnil
      rw [joinLines_singleton, splitlines,
        dropReturns_of_plain (ne_return_of_unbroken hl), List.splitOnP_eq_singleton hl]
    · rw [joinLines_cons hnil, splitlines_line hl, hrest]
      exact (dropEmptyEnd_append [l] hnil).symm

/-- Text is its joined lines when line feeds are its only boundaries. -/
theorem joinLines_splitlines (hs : s ≠ [])
    (hlast : ∀ c, s.getLast? = some c → isLineBreak c = false)
    (hfeed : ∀ c ∈ s, isLineBreak c = true → c = '\n') : joinLines (splitlines s) = s := by
  have hplain : dropReturns s = s := by
    apply dropReturns_of_plain
    rintro c hc rfl
    exact absurd (hfeed _ hc (by decide)) (by decide)
  have hsplit : s.splitOnP isLineBreak = s.splitOn '\n' := by
    rw [List.splitOn_eq_splitOnP]
    apply splitOnP_congr
    intro c hc
    by_cases hbreak : isLineBreak c = true
    · rw [hfeed c hc hbreak]
      decide
    · have hne : c ≠ '\n' := by
        rintro rfl
        exact hbreak (by decide)
      simp [hbreak, hne]
  rw [splitlines, hplain, dropEmptyEnd, if_neg (getLast?_splitOnP_ne hs hlast), hsplit, joinLines,
    List.intercalate_splitOn]

/-- Every character of a text is one of a line or the line feed that ends it. -/
theorem mem_joinLines {c : Char} (hc : c ∈ joinLines ls) : c = '\n' ∨ ∃ l ∈ ls, c ∈ l := by
  induction ls with
  | nil => cases hc
  | cons l ls ih =>
    by_cases hnil : ls = []
    · subst hnil
      rw [joinLines_singleton] at hc
      exact .inr ⟨l, List.mem_cons_self .., hc⟩
    · rw [joinLines_cons hnil, List.mem_append, List.mem_cons] at hc
      obtain hc | hc | hc := hc
      · exact .inr ⟨l, List.mem_cons_self .., hc⟩
      · exact .inl hc
      · obtain h | ⟨k, hk, hck⟩ := ih hc
        · exact .inl h
        · exact .inr ⟨k, List.mem_cons_of_mem _ hk, hck⟩

/-- Joining adds line feeds only. -/
theorem countP_joinLines (ls : List (List Char)) :
    ((joinLines ls).countP (· ≠ '\n')) = (ls.map (List.countP (· ≠ '\n'))).sum := by
  induction ls with
  | nil => rfl
  | cons l ls ih =>
    by_cases hnil : ls = []
    · subst hnil
      simp [joinLines_singleton]
    · rw [joinLines_cons hnil, List.countP_append, List.countP_cons, ih]
      simp

end Breaks

section Ends

variable {p : Char → Bool} {s t : List Char}

/-- Stripping leaves a part of the text. -/
theorem stripWith_isInfix (p : Char → Bool) (s : List Char) : stripWith p s <:+: s := by
  have hright : rstripWith p (s.dropWhile p) <+: s.dropWhile p := by
    rw [rstripWith, ← List.reverse_suffix, List.reverse_reverse]
    exact List.dropWhile_suffix p
  exact hright.isInfix.trans (List.dropWhile_suffix p).isInfix

/-- What is stripped starts outside the class. -/
theorem head?_stripWith {c : Char} (h : (stripWith p s).head? = some c) : p c = false := by
  have hprefix : stripWith p s <+: s.dropWhile p := by
    rw [stripWith, rstripWith, ← List.reverse_suffix, List.reverse_reverse]
    exact List.dropWhile_suffix p
  obtain ⟨rest, hrest⟩ := hprefix
  have hhead : (s.dropWhile p).head? = some c := by
    rw [← hrest, List.head?_append, h]
    rfl
  have hnot := List.head?_dropWhile_not p s
  rw [hhead] at hnot
  simpa using hnot

/-- What is stripped ends outside the class. -/
theorem getLast?_stripWith {c : Char} (h : (stripWith p s).getLast? = some c) : p c = false := by
  rw [stripWith, rstripWith, List.getLast?_reverse] at h
  have hnot := List.head?_dropWhile_not p (s.dropWhile p).reverse
  rw [h] at hnot
  simpa using hnot

theorem dropWhile_append_of_all {a : List Char} (ha : ∀ c ∈ a, p c = true)
    (ht : ∀ c, t.head? = some c → p c = false) : (a ++ t).dropWhile p = t := by
  rw [List.dropWhile_append_of_pos ha]
  cases t with
  | nil => rfl
  | cons c t => simp [ht c rfl]

/-- Characters of the class at the ends are stripped. -/
theorem stripWith_pad {a b : List Char} (ha : ∀ c ∈ a, p c = true) (hb : ∀ c ∈ b, p c = true)
    (hne : t ≠ []) (hhead : ∀ c, t.head? = some c → p c = false)
    (hlast : ∀ c, t.getLast? = some c → p c = false) : stripWith p (a ++ (t ++ b)) = t := by
  have hleft : (a ++ (t ++ b)).dropWhile p = t ++ b := by
    apply dropWhile_append_of_all ha
    intro c hc
    rw [List.head?_append_of_ne_nil _ hne] at hc
    exact hhead c hc
  rw [stripWith, hleft, rstripWith, List.reverse_append, dropWhile_append_of_all,
    List.reverse_reverse]
  · exact fun c hc => hb c (List.mem_reverse.mp hc)
  · intro c hc
    rw [List.head?_reverse] at hc
    exact hlast c hc

/-- A text with both ends outside the class is stripped. -/
theorem stripWith_of_ends (hhead : ∀ c, s.head? = some c → p c = false)
    (hlast : ∀ c, s.getLast? = some c → p c = false) : stripWith p s = s := by
  cases s with
  | nil => rfl
  | cons c s =>
    have h := stripWith_pad (a := []) (b := []) (by simp) (by simp)
      (List.cons_ne_nil c s) hhead hlast
    rwa [List.nil_append, List.append_nil] at h

/-- Stripping twice is stripping. -/
theorem stripWith_stripWith (p : Char → Bool) (s : List Char) :
    stripWith p (stripWith p s) = stripWith p s :=
  stripWith_of_ends (fun _ => head?_stripWith) fun _ => getLast?_stripWith

/-- Only the end after a character outside the class is stripped. -/
theorem rstripWith_append {c : Char} (hc : c ∈ t) (hp : p c = false) (s : List Char) :
    rstripWith p (s ++ t) = s ++ rstripWith p t := by
  have hne : t.reverse.dropWhile p ≠ [] := by
    intro h
    rw [List.dropWhile_eq_nil_iff] at h
    have := h c (List.mem_reverse.mpr hc)
    rw [hp] at this
    cases this
  have happend : (t.reverse ++ s.reverse).dropWhile p = t.reverse.dropWhile p ++ s.reverse := by
    rw [List.dropWhile_append, if_neg]
    simpa using hne
  rw [rstripWith, rstripWith, List.reverse_append, happend, List.reverse_append,
    List.reverse_reverse]

end Ends

section Replacing

variable {pat rep s : List Char}

/-- Nothing is replaced where the pattern does not occur. -/
theorem replace_of_not_occurs (h : occurs pat s = false) : replace pat rep s = s := by
  unfold replace
  induction s with
  | nil => rfl
  | cons c s ih =>
    rw [occurs, Bool.or_eq_false_iff] at h
    rw [replaceFrom, h.1, ih h.2]
    rfl

/-- Characters that the replacement does not hold become no more. -/
theorem countP_replaceFrom_le {p : Char → Bool} (hrep : ∀ c ∈ rep, p c = false) (skip : ℕ) :
    (replaceFrom pat rep skip s).countP p ≤ s.countP p := by
  induction s generalizing skip with
  | nil => exact Nat.le_refl 0
  | cons c s ih =>
    rw [List.countP_cons]
    cases skip with
    | succ k =>
      have := ih k
      rw [replaceFrom]
      omega
    | zero =>
      rw [replaceFrom]
      split
      · have := ih (pat.length - 1)
        rw [List.countP_append, List.countP_eq_zero.mpr fun c hc => by simp [hrep c hc]]
        omega
      · have := ih 0
        rw [List.countP_cons]
        omega

/-- A replacement that is not longer makes no text longer. -/
theorem length_replaceFrom_le (hrep : rep.length ≤ pat.length) (skip : ℕ) :
    (replaceFrom pat rep skip s).length ≤ s.length - skip := by
  induction s generalizing skip with
  | nil => simp [replaceFrom]
  | cons c s ih =>
    cases skip with
    | succ k =>
      have := ih k
      rw [replaceFrom, List.length_cons]
      omega
    | zero =>
      rw [replaceFrom]
      split
      · rename_i hpat
        have hlen := (List.isPrefixOf_iff_prefix.mp hpat).length_le
        have := ih (pat.length - 1)
        rw [List.length_append, List.length_cons] at *
        omega
      · have := ih 0
        rw [List.length_cons, List.length_cons]
        omega

/-- A shorter replacement of a pattern that occurs makes the text shorter. -/
theorem length_replace_lt (rep : List Char) (hrep : rep.length < pat.length)
    (hpat : occurs pat s = true) :
    (replace pat rep s).length < s.length := by
  unfold replace
  induction s with
  | nil =>
    rw [occurs, List.isEmpty_iff] at hpat
    subst hpat
    cases hrep
  | cons c s ih =>
    rw [replaceFrom]
    split
    · rename_i hprefix
      have hlen := (List.isPrefixOf_iff_prefix.mp hprefix).length_le
      have := length_replaceFrom_le (s := s) hrep.le (pat.length - 1)
      rw [List.length_append, List.length_cons] at *
      omega
    · rename_i hprefix
      rw [occurs, Bool.or_eq_true] at hpat
      have := ih (hpat.resolve_left hprefix)
      rw [List.length_cons, List.length_cons]
      omega

end Replacing

end Text

end MemoryPlane
