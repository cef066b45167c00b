import MemoryPlane.Python.Pieces
import MemoryPlane.Services.Ingestion

/-!
# Chunking

The windows that the chunker visits. They move forward without gaps and cover the normalised text,
and each of them but the last ends in its second half, at its full size or behind a separator. Only
the first window may fail to: where it has no separator, the sentinel of a failed search passes for
a position behind its start.
-/

namespace MemoryPlane

/-- The pattern occurs at `i`, within `s[start:stop]`. -/
def Text.OccursAt (pat : List Char) (start stop : ℕ) (s : List Char) (i : ℕ) : Prop :=
  start ≤ i ∧ i + pat.length ≤ stop ∧ pat <+: s.drop i

/-- A search finds an occurrence, or there is none and it returns −1. -/
theorem Text.rfind_cases (pat : List Char) (start stop : ℕ) (s : List Char) :
    (∃ i : ℕ, rfind pat start stop s = i ∧ OccursAt pat start stop s i) ∨
      rfind pat start stop s = -1 ∧ ∀ i, ¬ OccursAt pat start stop s i := by
  unfold rfind
  cases hfind : (List.range (stop + 1)).reverse.find? fun i =>
      start ≤ i && i + pat.length ≤ stop && pat.isPrefixOf (s.drop i) with
  | some i =>
    left
    have hi := List.find?_some hfind
    simp only [Bool.and_eq_true, decide_eq_true_eq, List.isPrefixOf_iff_prefix] at hi
    exact ⟨i, rfl, hi.1.1, hi.1.2, hi.2⟩
  | none =>
    right
    refine ⟨rfl, ?_⟩
    rintro i ⟨hstart, hstop, hprefix⟩
    have hno := List.find?_eq_none.mp hfind i (by simp; omega)
    apply hno
    simp only [Bool.and_eq_true, decide_eq_true_eq, List.isPrefixOf_iff_prefix]
    exact ⟨⟨hstart, hstop⟩, hprefix⟩

section Ends

variable {s t : List Char} {c : Char}

/-- A last character that is no separator stays at the end of the last part. -/
theorem Text.exists_splitOnP_last {p : Char → Bool} (hc : p c = false) (s : List Char) :
    ∃ init l, (s ++ [c]).splitOnP p = init ++ [l ++ [c]] := by
  induction s with
  | nil => exact ⟨[], [], by simp [List.splitOnP_cons_eq_if_modifyHead, hc]⟩
  | cons a s ih =>
    obtain ⟨init, l, h⟩ := ih
    rw [List.cons_append, List.splitOnP_cons_eq_if_modifyHead, h]
    by_cases ha : p a = true
    · exact ⟨[] :: init, l, by simp [ha]⟩
    · cases init with
      | nil => exact ⟨[], a :: l, by simp [ha]⟩
      | cons k init => exact ⟨(a :: k) :: init, l, by simp [ha]⟩

/-- The lines of a text begin with its first character. -/
theorem Text.splitlines_cons (hc : isLineBreak c = false) (s : List Char) :
    ∃ l lines, splitlines (c :: s) = (c :: l) :: lines := by
  have hplain : dropReturns (c :: s) = c :: dropReturns s := by
    apply dropReturns_cons
    rintro rfl
    exact absurd hc (by decide)
  unfold splitlines
  rw [hplain, List.splitOnP_cons_eq_if_modifyHead, hc]
  cases hpieces : (dropReturns s).splitOnP isLineBreak with
  | nil => exact absurd hpieces (List.splitOnP_ne_nil _ _)
  | cons l lines =>
    cases lines with
    | nil => exact ⟨l, [], by simp [dropEmptyEnd]⟩
    | cons k lines =>
      have hpiece : dropEmptyEnd ([c :: l] ++ k :: lines) = [c :: l] ++ dropEmptyEnd (k :: lines) :=
        dropEmptyEnd_append _ (by simp)
      exact ⟨l, _, hpiece⟩

/-- The lines of a text end with its last character. -/
theorem Text.splitlines_concat (hc : isLineBreak c = false) (s : List Char) :
    ∃ init l, splitlines (s ++ [c]) = init ++ [l ++ [c]] := by
  have hplain : dropReturns (s ++ [c]) = dropReturns s ++ [c] := by
    rw [dropReturns_append]
    · rw [dropReturns_cons (by simp)]
      rfl
    · rintro - h
      obtain rfl : c = '\n' := by simpa using h
      exact absurd hc (by decide)
  obtain ⟨init, l, h⟩ := exists_splitOnP_last hc (dropReturns s)
  refine ⟨init, l, ?_⟩
  rw [splitlines, hplain, h, dropEmptyEnd_append _ (by simp)]
  simp [dropEmptyEnd]

end Ends

namespace TextChunker

open Text

/-- A character other than white space breaks no line. -/
theorem isLineBreak_of_not_isSpace {c : Char} (h : isSpace c = false) : isLineBreak c = false := by
  rw [Bool.eq_false_iff] at h ⊢
  exact mt isSpace_of_isLineBreak h

/-- Nothing is stripped behind a character other than white space. -/
theorem rstripWith_concat {c : Char} (hc : isSpace c = false) (l : List Char) :
    rstripWith isSpace (l ++ [c]) = l ++ [c] := by
  rw [rstripWith_append (List.mem_singleton.mpr rfl) hc]
  simp [rstripWith, hc]

/-- A normalised text does not begin with white space. -/
theorem head?_normalized {text : String} {c : Char} (h : (normalized text).head? = some c) :
    isSpace c = false := by
  unfold normalized at h
  cases hs : stripWith isSpace text.toList with
  | nil =>
    rw [hs] at h
    cases h
  | cons a s =>
    have ha : isSpace a = false := head?_stripWith (s := text.toList) (by rw [hs]; rfl)
    obtain ⟨l, lines, hlines⟩ := splitlines_cons (isLineBreak_of_not_isSpace ha) s
    have hfirst : rstripWith isSpace (a :: l) = a :: rstripWith isSpace l := by
      by_cases hblank : ∀ b ∈ l, isSpace b = true
      · have hnil : rstripWith isSpace l = [] := by
          simpa [rstripWith, List.dropWhile_eq_nil_iff] using hblank
        rw [hnil, rstripWith, List.reverse_cons, List.dropWhile_append_of_pos]
        · simp [ha]
        · simpa using hblank
      · push Not at hblank
        obtain ⟨b, hb, hspace⟩ := hblank
        exact rstripWith_append hb (by simpa using hspace) [a]
    rw [hs, hlines, List.map_cons, hfirst] at h
    have hhead : c = a := by
      cases hrest : lines.map (rstripWith isSpace) with
      | nil => simpa [hrest, joinLines_singleton, eq_comm] using h
      | cons k ks =>
        rw [hrest, joinLines_cons (by simp)] at h
        simpa [eq_comm] using h
    rw [hhead]
    exact ha

/-- A normalised text does not end with white space. -/
theorem getLast?_normalized {text : String} {c : Char}
    (h : (normalized text).getLast? = some c) : isSpace c = false := by
  unfold normalized at h
  obtain hs | ⟨s, a, hs⟩ := List.eq_nil_or_concat (stripWith isSpace text.toList)
  · rw [hs] at h
    cases h
  · have ha : isSpace a = false := getLast?_stripWith (s := text.toList) (by rw [hs]; simp)
    obtain ⟨init, l, hlines⟩ := splitlines_concat (isLineBreak_of_not_isSpace ha) s
    rw [hs, List.concat_eq_append, hlines, List.map_append,
      List.map_singleton, rstripWith_concat ha] at h
    have hlast : c = a := by
      cases hinit : init.map (rstripWith isSpace) with
      | nil => simpa [hinit, joinLines_singleton, eq_comm] using h
      | cons k ks =>
        rw [hinit, joinLines_append (by simp) (by simp), joinLines_singleton,
          List.append_cons, ← List.append_assoc, List.getLast?_concat] at h
        simpa [eq_comm] using h
    rw [hlast]
    exact ha

/-- A line that neither starts nor ends with white space is its normalised form. -/
theorem normalized_line {s : List Char} (hne : s ≠ []) (hline : ∀ c ∈ s, isLineBreak c = false)
    (hhead : ∀ c, s.head? = some c → isSpace c = false)
    (hlast : ∀ c, s.getLast? = some c → isSpace c = false) : normalized (String.ofList s) = s := by
  have hlines : splitlines s = [s] := by
    have hunbroken : ∀ l ∈ [s], ∀ c ∈ l, isLineBreak c = false := by simpa using hline
    have hjoined := splitlines_joinLines hunbroken
    rw [joinLines_singleton] at hjoined
    rw [hjoined]
    simp [dropEmptyEnd, hne]
  have hright : rstripWith isSpace s = s := by
    obtain hnil | ⟨init, c, rfl⟩ := List.eq_nil_or_concat s
    · exact absurd hnil hne
    · rw [List.concat_eq_append] at hlast ⊢
      exact rstripWith_concat (hlast c (by simp)) init
  rw [normalized, String.toList_ofList, stripWith_of_ends hhead hlast, hlines, List.map_singleton,
    hright, joinLines_singleton]

/-- The blank line and the end of a sentence. -/
def separators : List (List Char) := [['\n', '\n'], ['.', ' ']]

variable (text : List Char) (size overlap : ℕ)

/-- A separator lies in the second half of the window from `start` on. -/
def Separated (start : ℕ) : Prop :=
  ∃ pat ∈ separators, ∃ i, Text.OccursAt pat (start + size / 2) (start + size) text i

/-- Where a window ends: at the end of the text, behind a separator of its second half, at its
full size, or, for the first window without a separator, behind its first character. -/
inductive EndsAt (start : ℕ) : ℕ → Prop
  | text (h : text.length ≤ start + size) : EndsAt start text.length
  | separator {pat : List Char} {i : ℕ} (inside : start + size < text.length)
      (sep : pat ∈ separators)
      (occurs : Text.OccursAt pat (start + size / 2) (start + size) text i) : EndsAt start (i + 2)
  | full (inside : start + size < text.length) (none : ¬ Separated text size start)
      (later : 0 < start) : EndsAt start (start + size)
  | sentinel (inside : start + size < text.length) (none : ¬ Separated text size start)
      (first : start = 0) : EndsAt start 1

/-- The chosen end of a chunk is one of those the rules allow. -/
theorem endsAt_chunkEnd (start : ℕ) : EndsAt text size start (chunkEnd text size start) := by
  by_cases hinside : start + size < text.length
  · have hhard : min text.length (start + size) = start + size := by omega
    have hblank : ∀ i, Text.OccursAt ['\n', '\n'] (start + size / 2) (start + size) text i →
        EndsAt text size start (i + 2) := fun i hi => .separator hinside (.head _) hi
    have hsentence : ∀ i, Text.OccursAt ['.', ' '] (start + size / 2) (start + size) text i →
        EndsAt text size start (i + 2) := fun i hi => .separator hinside (.tail _ (.head _)) hi
    have hsentinel : ¬ (0 : ℤ) ≤ -1 := by decide
    simp only [chunkEnd, hhard, if_pos hinside]
    obtain ⟨i, hi, hoi⟩ | ⟨hi, hnoi⟩ :=
        Text.rfind_cases ['\n', '\n'] (start + size / 2) (start + size) text <;>
      obtain ⟨j, hj, hoj⟩ | ⟨hj, hnoj⟩ :=
        Text.rfind_cases ['.', ' '] (start + size / 2) (start + size) text <;>
      rw [hi, hj]
    · have histart := hoi.1
      rw [if_pos (Int.natCast_nonneg i), if_pos (by omega)]
      obtain hmax | hmax := max_choice ((i : ℤ) + 2) (j + 2)
      · rw [hmax]
        exact hblank i hoi
      · rw [hmax]
        exact hsentence j hoj
    · have histart := hoi.1
      have hmax : max ((i : ℤ) + 2) (-1 + 2) = (i + 2 : ℕ) := by omega
      rw [if_pos (Int.natCast_nonneg i), hmax, if_pos (by omega), Int.toNat_natCast]
      exact hblank i hoi
    · have hjstart := hoj.1
      have hmax : max (-1 : ℤ) (j + 2) = (j + 2 : ℕ) := by omega
      rw [if_neg hsentinel, hmax, if_pos (by omega), Int.toNat_natCast]
      exact hsentence j hoj
    · have hnone : ¬ Separated text size start := by
        rintro ⟨pat, hpat, k, hk⟩
        simp only [separators, List.mem_cons, List.not_mem_nil, or_false] at hpat
        obtain rfl | rfl := hpat
        · exact hnoi k hk
        · exact hnoj k hk
      have hmax : max (-1 : ℤ) (-1 + 2) = 1 := by omega
      rw [if_neg hsentinel, hmax]
      obtain rfl | hlater := Nat.eq_zero_or_pos start
      · exact .sentinel hinside hnone rfl
      · rw [if_neg (by omega)]
        exact .full hinside hnone hlater
  · have hhard : min text.length (start + size) = text.length := by omega
    simp only [chunkEnd, hhard, if_neg (Nat.lt_irrefl _)]
    exact .text (Nat.le_of_not_lt hinside)

variable {text size overlap} {start : ℕ}

/-- A window is not empty, no longer than its size, and within the text. -/
theorem chunkEnd_bounds (hsize : 256 ≤ size) (hstart : start < text.length) :
    start < chunkEnd text size start ∧ chunkEnd text size start ≤ start + size ∧
      chunkEnd text size start ≤ text.length := by
  have h := endsAt_chunkEnd text size start
  generalize chunkEnd text size start = stop at h ⊢
  cases h with
  | text h => omega
  | @separator pat i inside sep occurs =>
    have hlen : pat.length = 2 := by
      simp only [separators, List.mem_cons, List.not_mem_nil, or_false] at sep
      obtain rfl | rfl := sep <;> rfl
    obtain ⟨hle, hfits, -⟩ := occurs
    omega
  | full inside none later => omega
  | sentinel inside none first => omega

variable (text size overlap) in
/-- The windows that the loop of `split` visits from `start` on, until it comes to its end. -/
inductive Visits : ℕ → List (ℕ × ℕ) → Prop
  | done {start : ℕ} (h : text.length ≤ start) : Visits start []
  | last {start : ℕ} (h : start < text.length) (stop : text.length ≤ chunkEnd text size start) :
      Visits start [(start, chunkEnd text size start)]
  | next {start : ℕ} {spans : List (ℕ × ℕ)} (h : start < text.length)
      (stop : chunkEnd text size start < text.length)
      (rest : Visits (max (start + 1) (chunkEnd text size start - overlap)) spans) :
      Visits start ((start, chunkEnd text size start) :: spans)

/-- The loop comes to its end, since each window starts behind the one before. -/
theorem exists_visits (text : List Char) (size overlap start : ℕ) :
    ∃ spans, Visits text size overlap start spans := by
  induction hn : text.length - start using Nat.strong_induction_on generalizing start with
  | _ n ih =>
    by_cases h : start < text.length
    · by_cases hstop : chunkEnd text size start < text.length
      · obtain ⟨spans, hspans⟩ := ih _ (by omega)
          (max (start + 1) (chunkEnd text size start - overlap)) rfl
        exact ⟨_, .next h hstop hspans⟩
      · exact ⟨_, .last h (Nat.le_of_not_lt hstop)⟩
    · exact ⟨[], .done (Nat.le_of_not_lt h)⟩

variable (text) in
/-- What `split` returns for a window: nothing where it is blank. -/
def chunkOf (s : ℕ × ℕ) : Option DocumentChunk :=
  let chunk := Text.stripWith isSpace (PrivacyGuard.slice text s.1 s.2)
  if chunk = [] then none else some ⟨s.1, s.2, String.ofList chunk⟩

/-- `split` returns the chunks of the windows. -/
theorem splitFrom_of_visits {spans : List (ℕ × ℕ)} (h : Visits text size overlap start spans)
    {rounds : ℕ} (hrounds : text.length ≤ start + rounds) :
    splitFrom text size overlap rounds start = spans.filterMap (chunkOf text) := by
  induction h generalizing rounds with
  | @done start h =>
    cases rounds with
    | zero => rfl
    | succ rounds => rw [splitFrom, if_neg (by omega), List.filterMap_nil]
  | @last start h stop =>
    obtain ⟨rounds, rfl⟩ : ∃ n, rounds = n + 1 := ⟨rounds - 1, by omega⟩
    rw [splitFrom, if_pos h]
    simp only [if_pos stop, chunkOf, List.filterMap_cons, List.filterMap_nil]
    split <;> simp_all
  | @next start spans h stop rest ih =>
    obtain ⟨rounds, rfl⟩ : ∃ n, rounds = n + 1 := ⟨rounds - 1, by omega⟩
    rw [splitFrom, if_pos h]
    have hround : splitFrom text size overlap rounds
        (max (start + 1) (chunkEnd text size start - overlap)) = spans.filterMap (chunkOf text) :=
      ih (by omega)
    simp only [if_neg (Nat.not_le.mpr stop), hround, chunkOf, List.filterMap_cons]
    split <;> simp_all

/-- The chunks are those of the windows visited. -/
theorem split_of_visits {document : String} {spans : List (ℕ × ℕ)}
    (h : Visits (normalized document) size overlap 0 spans) :
    split document size overlap = spans.filterMap (chunkOf (normalized document)) :=
  splitFrom_of_visits h (by omega)

variable (text size) in
/-- Windows that lead from the beginning of a text to its end: they move forward, each starts at
the end of the one before at the latest, and none is empty or too long. -/
structure Covered (spans : List (ℕ × ℕ)) : Prop where
  first : ∀ s ∈ spans.head?, s.1 = 0
  forward : spans.Pairwise fun a b => a.1 < b.1
  joined : spans.IsChain fun a b => b.1 ≤ a.2
  last : ∀ s ∈ spans.getLast?, s.2 = text.length
  sized : ∀ s ∈ spans, s.1 < s.2 ∧ s.2 ≤ s.1 + size

section Runs

variable {spans : List (ℕ × ℕ)}

/-- No window starts before the visit does. -/
theorem Visits.start_le (h : Visits text size overlap start spans) : ∀ s ∈ spans, start ≤ s.1 := by
  induction h with
  | done => simp
  | last => simp
  | @next start spans h stop rest ih =>
    intro s hs
    obtain rfl | hs := List.mem_cons.mp hs
    · exact le_refl _
    · have hle := ih s hs
      omega

/-- A run of the loop that starts inside the text visits a window there first. -/
theorem Visits.head?_eq (h : Visits text size overlap start spans) (hstart : start < text.length) :
    spans.head? = some (start, chunkEnd text size start) := by
  cases h with
  | done h => omega
  | last => rfl
  | next => rfl

/-- Each window starts behind the one before. -/
theorem Visits.forward (h : Visits text size overlap start spans) :
    spans.Pairwise fun a b => a.1 < b.1 := by
  induction h with
  | done => exact .nil
  | last => exact List.pairwise_singleton _ _
  | @next start spans h stop rest ih =>
    refine List.Pairwise.cons (fun s hs => ?_) ih
    have hle := rest.start_le s hs
    omega

/-- No text is lost between two windows. -/
theorem Visits.joined (hsize : 256 ≤ size) (h : Visits text size overlap start spans) :
    spans.IsChain fun a b => b.1 ≤ a.2 := by
  induction h with
  | done => exact .nil
  | last => exact .singleton _
  | @next start spans h stop rest ih =>
    obtain ⟨hlt, -⟩ := chunkEnd_bounds hsize h
    have hnext : max (start + 1) (chunkEnd text size start - overlap) ≤
        chunkEnd text size start := by
      omega
    have hhead := rest.head?_eq (by omega)
    cases spans with
    | nil => exact .singleton _
    | cons s spans =>
      obtain rfl : s = _ := Option.some.inj hhead
      exact .cons_cons hnext ih

/-- The last window reaches the end of the text. -/
theorem Visits.last_eq (hsize : 256 ≤ size) (h : Visits text size overlap start spans) :
    ∀ s ∈ spans.getLast?, s.2 = text.length := by
  induction h with
  | done => simp
  | @last start h stop =>
    rintro s ⟨⟩
    have hbounds := chunkEnd_bounds hsize h
    change chunkEnd text size start = text.length
    omega
  | @next start spans h stop rest ih =>
    have hbounds := chunkEnd_bounds hsize h
    have hhead := rest.head?_eq (by omega)
    cases spans with
    | nil => cases hhead
    | cons s spans =>
      rw [List.getLast?_cons_cons]
      exact ih

/-- No window is empty or longer than the size. -/
theorem Visits.sized (hsize : 256 ≤ size) (h : Visits text size overlap start spans) :
    ∀ s ∈ spans, s.1 < s.2 ∧ s.2 ≤ s.1 + size := by
  induction h with
  | done => simp
  | last h stop =>
    have hbounds := chunkEnd_bounds hsize h
    simpa using ⟨hbounds.1, hbounds.2.1⟩
  | next h stop rest ih =>
    have hbounds := chunkEnd_bounds hsize h
    rw [List.forall_mem_cons]
    exact ⟨⟨hbounds.1, hbounds.2.1⟩, ih⟩

/-- Every later position of the text lies in a window. -/
theorem Visits.exists_window (hsize : 256 ≤ size) (h : Visits text size overlap start spans)
    {i : ℕ} (hstart : start ≤ i) (hi : i < text.length) : ∃ s ∈ spans, s.1 ≤ i ∧ i < s.2 := by
  induction h with
  | done h => omega
  | last h stop => exact ⟨_, List.mem_singleton.mpr rfl, hstart, by dsimp only; omega⟩
  | @next start spans h stop rest ih =>
    by_cases hin : i < chunkEnd text size start
    · exact ⟨_, List.mem_cons_self .., hstart, hin⟩
    · have hbounds := chunkEnd_bounds hsize h
      obtain ⟨s, hs, hrest⟩ := ih (by omega)
      exact ⟨s, List.mem_cons_of_mem _ hs, hrest⟩

/-- The windows cover the text in order. -/
theorem Visits.covered (hsize : 256 ≤ size) (h : Visits text size overlap 0 spans) :
    Covered text size spans := by
  refine ⟨?_, h.forward, h.joined hsize, h.last_eq hsize, h.sized hsize⟩
  by_cases hne : 0 < text.length
  · rw [h.head?_eq hne]
    rintro s ⟨⟩
    rfl
  · cases h with
    | done h => simp
    | last h => exact absurd h hne
    | next h => exact absurd h hne

/-- A window with a character that is not white space is returned. -/
theorem exists_chunkOf {s : ℕ × ℕ} {i : ℕ} {c : Char} (hi : text[i]? = some c)
    (hc : isSpace c = false) (hin : s.1 ≤ i ∧ i < s.2) :
    ∃ chunk, chunkOf text s = some chunk ∧ chunk.start = s.1 ∧ chunk.stop = s.2 := by
  have hmem : c ∈ PrivacyGuard.slice text s.1 s.2 := by
    rw [List.mem_iff_getElem?]
    refine ⟨i - s.1, ?_⟩
    rw [PrivacyGuard.slice, List.getElem?_take_of_lt (by omega), List.getElem?_drop,
      Nat.add_sub_cancel' hin.1, hi]
  have hne : Text.stripWith isSpace (PrivacyGuard.slice text s.1 s.2) ≠ [] := by
    intro hnil
    obtain ⟨a, b, hslice, ha, hb⟩ :=
      Text.exists_stripWith isSpace (PrivacyGuard.slice text s.1 s.2)
    rw [hnil] at hslice
    rw [hslice, List.nil_append, List.mem_append] at hmem
    rw [hmem.elim (ha c) (hb c)] at hc
    cases hc
  exact ⟨_, if_neg hne, rfl, rfl⟩

end Runs

/-- The chunker comes to its end, its windows lead from the beginning of the normalised text to its
end, and every character that is not white space lies in a returned chunk. -/
theorem split_covers (document : String) {size : ℕ} (hsize : 256 ≤ size) (overlap : ℕ) :
    ∃ spans, Visits (normalized document) size overlap 0 spans ∧
      split document size overlap = spans.filterMap (chunkOf (normalized document)) ∧
      Covered (normalized document) size spans ∧
      ∀ i c, (normalized document)[i]? = some c → isSpace c = false →
        ∃ chunk ∈ split document size overlap, chunk.start ≤ i ∧ i < chunk.stop := by
  obtain ⟨spans, h⟩ := exists_visits (normalized document) size overlap 0
  refine ⟨spans, h, split_of_visits h, h.covered hsize, fun i c hi hc => ?_⟩
  obtain ⟨hlen, -⟩ := List.getElem?_eq_some_iff.mp hi
  obtain ⟨s, hs, hin⟩ := h.exists_window hsize (Nat.zero_le i) hlen
  obtain ⟨chunk, hchunk, hstart, hstop⟩ := exists_chunkOf hi hc hin
  refine ⟨chunk, ?_, by omega, by omega⟩
  rw [split_of_visits h]
  exact List.mem_filterMap.mpr ⟨s, hs, hchunk⟩

/-- A sentence of 201 characters and a word of 300. -/
def twoSentences : List Char := List.replicate 200 'a' ++ (['.', ' '] ++ List.replicate 300 'b')

/-- The example has four different characters. -/
theorem mem_twoSentences {c : Char} (h : c ∈ twoSentences) :
    c = 'a' ∨ c = '.' ∨ c = ' ' ∨ c = 'b' := by
  simp only [twoSentences, List.mem_append, List.mem_cons, List.not_mem_nil, or_false] at h
  obtain h | (h | h) | h := h
  · exact .inl (List.eq_of_mem_replicate h)
  · exact .inr (.inl h)
  · exact .inr (.inr (.inl h))
  · exact .inr (.inr (.inr (List.eq_of_mem_replicate h)))

/-- The example is in normal form already. -/
theorem normalized_twoSentences : normalized (String.ofList twoSentences) = twoSentences := by
  apply normalized_line
  · exact List.append_ne_nil_of_left_ne_nil (by simp) _
  · intro c hc
    obtain rfl | rfl | rfl | rfl := mem_twoSentences hc <;> decide
  · intro c hc
    cases hc
    decide
  · intro c hc
    have hword : List.replicate 300 'b' ≠ [] := List.cons_ne_nil 'b' _
    have hrest : ['.', ' '] ++ List.replicate 300 'b' ≠ [] := List.cons_ne_nil '.' _
    rw [twoSentences, List.getLast?_append_of_ne_nil _ hrest,
      List.getLast?_append_of_ne_nil _ hword] at hc
    rw [List.eq_of_mem_replicate (List.mem_of_getLast? hc)]
    decide

/-- A text of several windows: the word in it is covered to its end. -/
theorem split_covers_twoSentences : ∃ chunk ∈ split (String.ofList twoSentences) 256 32,
    chunk.start ≤ 400 ∧ 400 < chunk.stop := by
  obtain ⟨spans, -, -, -, hall⟩ :=
    split_covers (String.ofList twoSentences) (Nat.le_refl 256) 32
  rw [normalized_twoSentences] at hall
  exact hall 400 'b' (by decide +kernel) (by decide)

section Boundaries

variable {spans : List (ℕ × ℕ)} {stop : ℕ}

variable (text size start stop) in
/-- The window ends in its second half, at its full size or directly behind a separator. -/
def EndsWell : Prop :=
  size / 2 ≤ stop - start ∧ (stop = start + size ∨
    ∃ pat ∈ separators, ∃ i, Text.OccursAt pat start (start + size) text i ∧ stop = i + 2)

variable (text size) in
/-- The first window holds the whole text, or has a separator in its second half. -/
def FirstCut : Prop := text.length ≤ size ∨ Separated text size 0

/-- A window inside the text ends well, unless it is the first one and has no separator. -/
theorem endsWell_chunkEnd (hinside : chunkEnd text size start < text.length)
    (hcut : 0 < start ∨ FirstCut text size) :
    EndsWell text size start (chunkEnd text size start) := by
  have h := endsAt_chunkEnd text size start
  generalize chunkEnd text size start = stop at h hinside ⊢
  cases h with
  | text h => omega
  | @separator pat i inside sep occurs =>
    have hlow := occurs.1
    refine ⟨by omega, .inr ⟨pat, sep, i, ⟨by omega, occurs.2⟩, rfl⟩⟩
  | full inside none later => exact ⟨by omega, .inl rfl⟩
  | sentinel inside none first =>
    subst first
    obtain hcut | hcut | hcut := hcut
    · omega
    · omega
    · exact absurd hcut none

/-- With an admissible first cut every window but the last ends well. -/
theorem Visits.endsWell (hsize : 256 ≤ size) (h : Visits text size overlap start spans)
    (hcut : 0 < start ∨ FirstCut text size) : ∀ s ∈ spans.dropLast, EndsWell text size s.1 s.2 := by
  induction h with
  | done => simp
  | last => simp
  | @next start spans h stop rest ih =>
    have hbounds := chunkEnd_bounds hsize h
    have hne : spans ≠ [] := by
      intro hnil
      have hhead := rest.head?_eq (by omega)
      rw [hnil] at hhead
      cases hhead
    rw [List.dropLast_cons_of_ne_nil hne, List.forall_mem_cons]
    exact ⟨endsWell_chunkEnd stop hcut, ih (.inl (by omega))⟩

/-- Without a separator the first window ends behind its first character. -/
theorem chunkEnd_of_not_firstCut (hcut : ¬ FirstCut text size) : chunkEnd text size 0 = 1 := by
  rw [FirstCut, not_or] at hcut
  have h := endsAt_chunkEnd text size 0
  generalize chunkEnd text size 0 = stop at h ⊢
  cases h with
  | text h => omega
  | @separator pat i inside sep occurs => exact absurd ⟨pat, sep, i, occurs⟩ hcut.2
  | full inside none later => omega
  | sentinel => rfl

/-- There is an element at every index within the list. -/
theorem exists_getElem? {α : Type} {xs : List α} {i : ℕ} (h : i < xs.length) :
    ∃ a, xs[i]? = some a := ⟨xs[i], List.getElem?_eq_getElem h⟩

/-- Filtering drops no last element that was not last before. -/
theorem mem_dropLast_of_filter {α : Type} {p : α → Bool} {xs : List α} {a : α}
    (h : a ∈ (xs.filter p).dropLast) : a ∈ xs.dropLast := by
  obtain rfl | ⟨init, b, rfl⟩ := List.eq_nil_or_concat xs
  · cases h
  · rw [List.concat_eq_append] at h ⊢
    rw [List.dropLast_concat]
    rw [List.filter_append] at h
    by_cases hb : p b = true
    · rw [List.filter_singleton, hb, Bool.cond_true, List.dropLast_concat] at h
      exact List.mem_of_mem_filter h
    · rw [List.filter_singleton, Bool.eq_false_iff.mpr hb, Bool.cond_false, List.append_nil] at h
      exact List.mem_of_mem_filter (List.dropLast_subset _ h)

/-- The places of the returned chunks are the windows that are not blank. -/
theorem places_filterMap (spans : List (ℕ × ℕ)) :
    (spans.filterMap (chunkOf text)).map (fun c => (c.start, c.stop)) =
      spans.filter fun s => (chunkOf text s).isSome := by
  induction spans with
  | nil => rfl
  | cons s rest ih =>
    rw [List.filterMap_cons, List.filter_cons]
    by_cases hnil : Text.stripWith isSpace (PrivacyGuard.slice text s.1 s.2) = []
    · simp [chunkOf, hnil, ih]
    · simp [chunkOf, hnil, ih]

/-- Without a first cut the first window has one character. -/
theorem eq_cons_of_first (hsize : 256 ≤ size) (h : Visits text size overlap 0 spans)
    (hcut : ¬ FirstCut text size) :
    ∃ rest, spans = (0, 1) :: rest ∧ Visits text size overlap 1 rest ∧ size < text.length := by
  have hstop := chunkEnd_of_not_firstCut hcut
  rw [FirstCut, not_or] at hcut
  cases h with
  | done h => omega
  | last h stop => omega
  | @next _ rest h stop hrest =>
    rw [hstop] at hrest ⊢
    exact ⟨rest, rfl, by simpa using hrest, by omega⟩

/-- Without a separator the first chunk that is returned is the first character, and it is not the
last chunk. -/
theorem exists_first_of_not_firstCut {document : String} (hsize : 256 ≤ size)
    (hcut : ¬ FirstCut (normalized document) size) (overlap : ℕ) :
    ∃ chunk ∈ (split document size overlap).dropLast, chunk.start = 0 ∧ chunk.stop = 1 := by
  obtain ⟨spans, h⟩ := exists_visits (normalized document) size overlap 0
  obtain ⟨rest, rfl, hrest, hlong⟩ := eq_cons_of_first hsize h hcut
  -- the first and the last character of the text are in different returned chunks
  obtain ⟨a, ha⟩ : ∃ a, (normalized document)[0]? = some a :=
    exists_getElem? (by omega)
  obtain ⟨b, hb⟩ : ∃ b, (normalized document)[(normalized document).length - 1]? = some b :=
    exists_getElem? (by omega)
  have hasp : isSpace a = false := head?_normalized (by rw [List.head?_eq_getElem?, ha])
  have hbsp : isSpace b = false := getLast?_normalized (by rw [List.getLast?_eq_getElem?, hb])
  obtain ⟨first, hfirst, hstart, hstop⟩ := exists_chunkOf (s := (0, 1)) ha hasp (by simp)
  obtain ⟨s, hs, hin⟩ := hrest.exists_window hsize (i := (normalized document).length - 1)
    (by omega) (by omega)
  obtain ⟨chunk, hchunk, -⟩ := exists_chunkOf hb hbsp hin
  have hne : rest.filterMap (chunkOf (normalized document)) ≠ [] := by
    apply List.ne_nil_of_mem
    exact List.mem_filterMap.mpr ⟨s, hs, hchunk⟩
  refine ⟨first, ?_, hstart, hstop⟩
  rw [split_of_visits h, List.filterMap_cons, hfirst, List.dropLast_cons_of_ne_nil hne]
  exact List.mem_cons_self ..

/-- A window of one character does not end well. -/
theorem not_endsWell_first (hsize : 256 ≤ size) : ¬ EndsWell text size 0 1 := by
  rintro ⟨hhalf, -⟩
  omega

/-- All windows but the last end well exactly when the first one holds the whole text or has a
separator in its second half, and so do all returned chunks but the last. -/
theorem split_boundaries_iff (document : String) {size : ℕ} (hsize : 256 ≤ size) (overlap : ℕ) :
    ((∀ spans, Visits (normalized document) size overlap 0 spans → ∀ s ∈ spans.dropLast,
        EndsWell (normalized document) size s.1 s.2) ↔ FirstCut (normalized document) size) ∧
    ((∀ chunk ∈ (split document size overlap).dropLast,
        EndsWell (normalized document) size chunk.start chunk.stop) ↔
      FirstCut (normalized document) size) := by
  obtain ⟨spans, h⟩ := exists_visits (normalized document) size overlap 0
  have hvisited : FirstCut (normalized document) size → ∀ spans,
      Visits (normalized document) size overlap 0 spans → ∀ s ∈ spans.dropLast,
        EndsWell (normalized document) size s.1 s.2 :=
    fun hcut spans h => h.endsWell hsize (.inr hcut)
  refine ⟨⟨fun hall => ?_, hvisited⟩, fun hall => ?_, fun hcut chunk hchunk => ?_⟩
  · by_contra hcut
    obtain ⟨rest, rfl, hrest, hlong⟩ := eq_cons_of_first hsize h hcut
    have hne : rest ≠ [] := by
      rintro rfl
      have hhead := hrest.head?_eq (by omega)
      cases hhead
    apply not_endsWell_first hsize
    exact hall _ h (0, 1) (by rw [List.dropLast_cons_of_ne_nil hne]; exact List.mem_cons_self ..)
  · by_contra hcut
    obtain ⟨first, hmem, hstart, hstop⟩ := exists_first_of_not_firstCut hsize hcut overlap
    have hwell := hall first hmem
    rw [hstart, hstop] at hwell
    exact not_endsWell_first hsize hwell
  · have hmem : (chunk.start, chunk.stop) ∈ spans.dropLast := by
      apply mem_dropLast_of_filter (p := fun s => (chunkOf (normalized document) s).isSome)
      rw [← places_filterMap, ← split_of_visits h, ← List.map_dropLast]
      exact List.mem_map_of_mem hchunk
    exact hvisited hcut spans h _ hmem

/-- The first window ends behind the sentence, and so all chunks but the last end well. -/
theorem split_boundaries_twoSentences :
    (split (String.ofList twoSentences) 256 32).length = 3 ∧
      ∀ chunk ∈ (split (String.ofList twoSentences) 256 32).dropLast,
        EndsWell twoSentences 256 chunk.start chunk.stop := by
  have hcut : FirstCut twoSentences 256 := by
    refine .inr ⟨['.', ' '], .tail _ (.head _), 200, by decide, by decide, ?_⟩
    exact ⟨List.replicate 300 'b', by decide +kernel⟩
  have hiff := (split_boundaries_iff (String.ofList twoSentences) (Nat.le_refl 256) 32).2
  have hlength : (split (String.ofList twoSentences) 256 32).length = 3 := by
    rw [split, normalized_twoSentences]
    decide +kernel
  rw [normalized_twoSentences] at hiff
  exact ⟨hlength, hiff.mpr hcut⟩

/-- A word that is longer than a window. -/
def longWord : String := String.ofList (List.replicate 300 'a')

/-- The first chunk of a long word is its first character. -/
theorem split_longWord : ∃ chunk ∈ (split longWord 256 0).dropLast,
    chunk.start = 0 ∧ chunk.stop = 1 ∧
      ¬ EndsWell (normalized longWord) 256 chunk.start chunk.stop := by
  have hplain : normalized longWord = List.replicate 300 'a' := by
    apply normalized_line
    · exact List.ne_nil_of_length_pos (by rw [List.length_replicate]; omega)
    · intro c hc
      rw [List.eq_of_mem_replicate hc]
      decide
    · intro c hc
      rw [List.eq_of_mem_replicate (List.mem_of_head? hc)]
      decide
    · intro c hc
      rw [List.eq_of_mem_replicate (List.mem_of_getLast? hc)]
      decide
  have hcut : ¬ FirstCut (normalized longWord) 256 := by
    rw [FirstCut, hplain, not_or]
    refine ⟨by rw [List.length_replicate]; omega, ?_⟩
    rintro ⟨pat, hpat, i, -, -, hprefix⟩
    have hletters : ∀ c ∈ pat, c = 'a' := by
      intro c hc
      exact List.eq_of_mem_replicate (List.mem_of_mem_drop ( hprefix.subset hc))
    simp only [separators, List.mem_cons, List.not_mem_nil, or_false] at hpat
    obtain rfl | rfl := hpat <;> simp at hletters
  obtain ⟨chunk, hmem, hstart, hstop⟩ := exists_first_of_not_firstCut (by omega) hcut 0
  refine ⟨chunk, hmem, hstart, hstop, ?_⟩
  rw [hstart, hstop]
  exact not_endsWell_first (by omega)

end Boundaries

end TextChunker

end MemoryPlane
