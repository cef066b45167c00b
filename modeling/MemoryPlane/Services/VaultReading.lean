import MemoryPlane.Services.VaultExport
import MemoryPlane.Services.VaultNotes

/-!
# Reading back what was written

The reader of notes against their writer. The sanitizer keeps a text exactly when its line feeds
are its only boundaries, none of its lines is blank but for spaces or technical, and no gap is
longer than one empty line: every other text loses a character.
-/

namespace MemoryPlane

namespace VaultNotes

open Text

variable {rt : NoteRuntime}

/-- A line that the sanitizer keeps as it is. -/
def LineSurvives (rt : NoteRuntime) (line : List Char) : Prop :=
  line = [] ∨ stripWith isSpace line ≠ [] ∧ isTechnical rt line = false

/-- A text that the sanitizer keeps as it is. -/
structure TextSurvives (rt : NoteRuntime) (text : List Char) : Prop where
  breaks : ∀ c ∈ text, isLineBreak c = true → c = '\n'
  lines : ∀ line ∈ splitlines text, LineSurvives rt line
  gaps : occurs "\n\n\n".toList text = false

/-- The characters of the lines. -/
def size (ls : List (List Char)) : ℕ := (ls.map List.length).sum

@[simp] theorem size_cons (l : List Char) (ls : List (List Char)) :
    size (l :: ls) = l.length + size ls := rfl

@[simp] theorem size_nil : size [] = 0 := rfl

theorem size_append (ks ls : List (List Char)) : size (ks ++ ls) = size ks + size ls := by
  simp [size]

/-- Dropping lines and clearing blank ones adds no character. -/
theorem size_keptLines_le (fence : Bool) (depth : ℕ) (ls : List (List Char)) :
    size (keptLines rt fence depth ls) ≤ size ls := by
  induction ls generalizing fence depth with
  | nil => exact Nat.le_refl 0
  | cons line rest ih =>
    rw [keptLines, size_cons]
    split
    · exact (ih _ _).trans (Nat.le_add_left ..)
    split
    · exact (ih _ _).trans (Nat.le_add_left ..)
    split
    · rw [size_cons]
      exact Nat.add_le_add (Nat.zero_le _) (ih _ _)
    split
    · split
      · exact (ih _ _).trans (Nat.le_add_left ..)
      split
      · exact (ih _ _).trans (Nat.le_add_left ..)
      · exact (ih _ _).trans (Nat.le_add_left ..)
    · rw [size_cons]
      exact Nat.add_le_add_left (ih _ _) _

/-- A line that survives stays, and every other line loses its characters. -/
theorem keptLines_cons (rt : NoteRuntime) (line : List Char) (rest : List (List Char)) :
    LineSurvives rt line ∧ keptLines rt false 0 (line :: rest) = line :: keptLines rt false 0 rest ∨
      line ≠ [] ∧ size (keptLines rt false 0 (line :: rest)) ≤ size rest := by
  have hle : ∀ fence depth, size (keptLines rt fence depth rest) ≤ size rest :=
    fun fence depth => size_keptLines_le fence depth rest
  by_cases hnil : line = []
  · subst hnil
    exact .inl ⟨.inl rfl, by simp [keptLines, stripWith, rstripWith]⟩
  by_cases hblank : stripWith isSpace line = []
  · right
    refine ⟨hnil, ?_⟩
    simp only [keptLines, hblank, Bool.false_eq_true, if_false, ne_eq, not_true_eq_false, if_true,
      size_cons, List.length_nil, Nat.zero_add]
    exact hle _ _
  cases htechnical : isTechnical rt line with
  | false =>
    left
    exact ⟨.inr ⟨hblank, htechnical⟩, by simp [keptLines, hblank, htechnical]⟩
  | true =>
    right
    refine ⟨hnil, ?_⟩
    simp only [keptLines, hblank, htechnical, Bool.false_eq_true, if_false, ne_eq,
      not_true_eq_false, if_true]
    split
    · exact hle _ _
    split
    · exact hle _ _
    · exact hle _ _

/-- Lines that survive stay. -/
theorem keptLines_of_survives {ls : List (List Char)} (h : ∀ line ∈ ls, LineSurvives rt line) :
    keptLines rt false 0 ls = ls := by
  induction ls with
  | nil => rfl
  | cons line rest ih =>
    have hrest := ih fun k hk => h k (List.mem_cons_of_mem _ hk)
    rw [keptLines]
    obtain rfl | ⟨hblank, htechnical⟩ := h line (List.mem_cons_self ..)
    · simp [hrest, stripWith, rstripWith]
    · simp [hrest, hblank, htechnical]

/-- When no character is lost, every line survives. -/
theorem survives_of_size_le {ls : List (List Char)} (h : size ls ≤ size (keptLines rt false 0 ls)) :
    ∀ line ∈ ls, LineSurvives rt line := by
  induction ls with
  | nil => simp
  | cons line rest ih =>
    obtain ⟨hline, hkept⟩ | ⟨hline, hlost⟩ := keptLines_cons rt line rest
    · rw [hkept, size_cons, size_cons] at h
      have hrest := ih (Nat.le_of_add_le_add_left h)
      intro k hk
      obtain rfl | hk := List.mem_cons.mp hk
      · exact hline
      · exact hrest k hk
    · have hpos := List.length_pos_iff.mpr hline
      rw [size_cons] at h
      omega

/-- The long gaps are gone once the loop has had as many rounds as there are characters. -/
theorem occurs_collapseFrom {n : ℕ} {value : List Char} (hn : value.length ≤ n) :
    occurs "\n\n\n".toList (collapseFrom n value) = false := by
  induction n generalizing value with
  | zero =>
    rw [List.length_eq_zero_iff.mp (Nat.le_zero.mp hn)]
    decide
  | succ n ih =>
    rw [collapseFrom]
    split
    · rename_i hocc
      have hlt := length_replace_lt "\n\n".toList (by decide) hocc
      exact ih (by omega)
    · rename_i hocc
      simpa using hocc

theorem collapseFrom_of_not_occurs {value : List Char}
    (h : occurs "\n\n\n".toList value = false) (n : ℕ) : collapseFrom n value = value := by
  cases n with
  | zero => rfl
  | succ n =>
    rw [collapseFrom, h]
    rfl

/-- Collapsing gaps loses line feeds only. -/
theorem countP_collapseFrom_le (n : ℕ) (value : List Char) :
    (collapseFrom n value).countP (· ≠ '\n') ≤ value.countP (· ≠ '\n') := by
  induction n generalizing value with
  | zero => exact Nat.le_refl _
  | succ n ih =>
    rw [collapseFrom]
    split
    · exact (ih _).trans (countP_replaceFrom_le (by simp) 0)
    · exact Nat.le_refl _

/-- The characters of lines that hold no line feed. -/
theorem countP_joinLines_of_unbroken {ls : List (List Char)}
    (h : ∀ l ∈ ls, ∀ c ∈ l, isLineBreak c = false) :
    (joinLines ls).countP (· ≠ '\n') = size ls := by
  rw [countP_joinLines, size]
  congr 1
  apply List.map_congr_left
  intro l hl
  rw [List.countP_eq_length]
  intro c hc
  have hne : c ≠ '\n' := by
    rintro rfl
    exact absurd (h l hl _ hc) (by decide)
  simpa using hne

/-- The lines of a note between its frontmatter and its provenance. -/
def bodyLines (text : List Char) : List (List Char) := [] :: (splitlines text ++ [[]])

/-- The body that is read from these lines. -/
def bodyOf (rt : NoteRuntime) (text : List Char) : List Char :=
  sanitizeEditableBody rt
    (joinLines ((bodyLines text).takeWhile fun line => !isSystemHeading rt line))

theorem unbroken_bodyLines (text : List Char) :
    ∀ l ∈ bodyLines text, ∀ c ∈ l, isLineBreak c = false := by
  intro l hl
  simp only [bodyLines, List.mem_cons, List.mem_append, List.not_mem_nil, or_false] at hl
  obtain rfl | hl | rfl := hl
  · simp
  · exact unbroken_of_mem_splitlines hl
  · simp

theorem size_bodyLines (text : List Char) :
    size (bodyLines text) = text.countP fun c => !isLineBreak c := by
  rw [bodyLines, size_cons, size_append, ← sum_length_splitlines]
  simp [size]

/-- A heading of the exporter does not survive. -/
theorem LineSurvives.not_heading {line : List Char} (h : LineSurvives rt line) :
    isSystemHeading rt line = false := by
  obtain rfl | ⟨-, h⟩ := h
  · rfl
  · simp only [isTechnical, Bool.or_eq_false_iff] at h
    exact h.1.1.1.1

variable {text : List Char}

/-- A text that survives is read as it was written. -/
theorem bodyOf_of_survives (hne : text ≠ []) (hhead : ∀ c, text.head? = some c → isSpace c = false)
    (hlast : ∀ c, text.getLast? = some c → isSpace c = false) (h : TextSurvives rt text) :
    bodyOf rt text = text := by
  have hbreak : ∀ c, isSpace c = false → isLineBreak c = false := by
    intro c hc
    by_contra hbreak
    rw [isSpace_of_isLineBreak (by simpa using hbreak)] at hc
    cases hc
  have hall : ∀ line ∈ bodyLines text, isSystemHeading rt line = false := by
    intro line hline
    simp only [bodyLines, List.mem_cons, List.mem_append, List.not_mem_nil, or_false] at hline
    obtain rfl | hline | rfl := hline
    · rfl
    · exact (h.lines line hline).not_heading
    · rfl
  have htake : (bodyLines text).takeWhile (fun line => !isSystemHeading rt line) =
      bodyLines text := by
    rw [List.takeWhile_eq_self_iff]
    intro line hline
    simp [hall line hline]
  have hsplit : splitlines (joinLines (bodyLines text)) = [] :: splitlines text := by
    rw [splitlines_joinLines (unbroken_bodyLines text), bodyLines, ← List.cons_append,
      dropEmptyEnd_feed]
  have hkept : keptLines rt false 0 ([] :: splitlines text) = [] :: splitlines text := by
    apply keptLines_of_survives
    intro line hline
    obtain rfl | hline := List.mem_cons.mp hline
    · exact .inl rfl
    · exact h.lines line hline
  have hlines : splitlines text ≠ [] := by
    intro hnil
    have hjoin := joinLines_splitlines hne (fun c hc => hbreak c (hlast c hc)) h.breaks
    rw [hnil] at hjoin
    exact hne hjoin.symm
  have hjoin : joinLines ([] :: splitlines text) = '\n' :: text := by
    rw [joinLines_cons hlines,
      joinLines_splitlines hne (fun c hc => hbreak c (hlast c hc)) h.breaks]
    rfl
  have hgap : occurs "\n\n\n".toList ('\n' :: text) = false := by
    rw [occurs, h.gaps, Bool.or_false]
    cases text with
    | nil => exact absurd rfl hne
    | cons c cs =>
      have hc : ('\n' == c) = false := by
        rw [beq_eq_false_iff_ne]
        rintro rfl
        exact absurd (hhead _ rfl) (by decide)
      simp [List.isPrefixOf, hc]
  rw [bodyOf, htake, sanitizeEditableBody, hsplit, hkept, hjoin, collapseBlankLines,
    collapseFrom_of_not_occurs hgap]
  have hstrip := stripWith_pad (p := isSpace) (a := ['\n']) (b := [])
    (List.forall_mem_singleton.mpr (by decide)) (by simp) hne hhead hlast
  rwa [List.append_nil] at hstrip

/-- What stays is a line or empty. -/
theorem mem_keptLines {fence : Bool} {depth : ℕ} {ls : List (List Char)} {l : List Char}
    (hl : l ∈ keptLines rt fence depth ls) : l = [] ∨ l ∈ ls := by
  induction ls generalizing fence depth with
  | nil => cases hl
  | cons line rest ih =>
    have hstep : l = [] ∨ l = line ∨ ∃ fence depth, l ∈ keptLines rt fence depth rest := by
      rw [keptLines] at hl
      split at hl
      · exact .inr (.inr ⟨_, _, hl⟩)
      split at hl
      · exact .inr (.inr ⟨_, _, hl⟩)
      split at hl
      · exact (List.mem_cons.mp hl).imp id fun h => .inr ⟨_, _, h⟩
      split at hl
      · split at hl
        · exact .inr (.inr ⟨_, _, hl⟩)
        split at hl
        · exact .inr (.inr ⟨_, _, hl⟩)
        · exact .inr (.inr ⟨_, _, hl⟩)
      · exact .inr ((List.mem_cons.mp hl).imp id fun h => ⟨_, _, h⟩)
    obtain h | rfl | ⟨_, _, h⟩ := hstep
    · exact .inl h
    · exact .inr (List.mem_cons_self ..)
    · exact (ih h).imp id fun h => List.mem_cons_of_mem _ h

theorem dropEmptyEnd_eq (ls : List (List Char)) :
    dropEmptyEnd ls = ls ∨ ls = dropEmptyEnd ls ++ [[]] := by
  unfold dropEmptyEnd
  split
  · rename_i h
    obtain ⟨front, rfl⟩ := List.getLast?_eq_some_iff.mp h
    right
    rw [List.dropLast_concat]
  · exact .inl rfl

theorem size_dropEmptyEnd (ls : List (List Char)) : size (dropEmptyEnd ls) = size ls := by
  obtain h | h := dropEmptyEnd_eq ls
  · rw [h]
  · nth_rewrite 2 [h]
    rw [size_append]
    rfl

/-- A class that is no smaller on a list than one that holds it agrees with it there. -/
theorem imp_of_countP_le {α : Type} {p q : α → Bool} {xs : List α}
    (h : ∀ x, p x = true → q x = true)
    (hle : xs.countP q ≤ xs.countP p) : ∀ x ∈ xs, q x = true → p x = true := by
  induction xs with
  | nil => simp
  | cons y ys ih =>
    have hmono : ys.countP p ≤ ys.countP q := List.countP_mono_left fun x _ => h x
    rw [List.countP_cons, List.countP_cons] at hle
    have hy : q y = true → p y = true := by
      intro hq
      by_contra hp
      rw [if_pos hq, if_neg hp] at hle
      omega
    have hys : ys.countP q ≤ ys.countP p := by
      by_cases hq : q y = true
      · rw [if_pos hq, if_pos (hy hq)] at hle
        omega
      · have hp : p y ≠ true := fun hp => hq (h y hp)
        rw [if_neg hq, if_neg hp] at hle
        omega
    intro x hx
    obtain rfl | hx := List.mem_cons.mp hx
    · exact hy
    · exact ih hys x hx

/-- A text that is read as it was written survives. -/
theorem survives_of_bodyOf (hread : bodyOf rt text = text) : TextSurvives rt text := by
  set taken := (bodyLines text).takeWhile fun line => !isSystemHeading rt line with htaken
  set kept := keptLines rt false 0 (dropEmptyEnd taken) with hkept
  have hsub : ∀ l ∈ taken, l ∈ bodyLines text := fun l hl => List.takeWhile_subset _ hl
  have hunbroken : ∀ l ∈ taken, ∀ c ∈ l, isLineBreak c = false :=
    fun l hl => unbroken_bodyLines text l (hsub l hl)
  have hbody : stripWith isSpace (collapseBlankLines (joinLines kept)) = text := by
    rw [← hread, bodyOf, sanitizeEditableBody, ← htaken, splitlines_joinLines hunbroken]
  have hkeptUnbroken : ∀ l ∈ kept, ∀ c ∈ l, isLineBreak c = false := by
    intro l hl
    obtain rfl | hl := mem_keptLines hl
    · simp
    · apply hunbroken
      obtain h | h := dropEmptyEnd_eq taken
      · rwa [h] at hl
      · rw [h]
        exact List.mem_append_left _ hl
  set dropped := (bodyLines text).dropWhile fun line => !isSystemHeading rt line with hdropped
  have hbodyLines : bodyLines text = taken ++ dropped := (List.takeWhile_append_dropWhile ..).symm
  have hplain : ∀ c, (!isLineBreak c) = true → decide (c ≠ '\n') = true := by
    intro c hc
    rw [decide_eq_true_eq]
    rintro rfl
    cases hc
  -- No step from the text to what is read of it adds a character, so none loses one.
  have hreadSize : text.countP (· ≠ '\n') ≤ size kept := by
    rw [← countP_joinLines_of_unbroken hkeptUnbroken]
    nth_rewrite 1 [← hbody]
    exact ((stripWith_isInfix _ _).sublist.countP_le).trans (countP_collapseFrom_le _ _)
  have hkeptSize : size kept ≤ size taken := by
    rw [← size_dropEmptyEnd taken]
    exact size_keptLines_le ..
  have htakenSize : size taken + size dropped = text.countP fun c => !isLineBreak c := by
    rw [← size_bodyLines, hbodyLines, size_append]
  have hplainSize : (text.countP fun c => !isLineBreak c) ≤ text.countP (· ≠ '\n') :=
    List.countP_mono_left fun c _ => hplain c
  have hnil : dropped = [] := by
    cases hd : dropped with
    | nil => rfl
    | cons l rest =>
      have hheading := List.head?_dropWhile_not (fun line => !isSystemHeading rt line)
        (bodyLines text)
      rw [← hdropped, hd] at hheading
      have hl : l ≠ [] := by
        rintro rfl
        have hnone : isSystemHeading rt [] = false := rfl
        simp [hnone] at hheading
      have hpos := List.length_pos_iff.mpr hl
      rw [hd, size_cons] at htakenSize
      omega
  have hsurvive : ∀ line ∈ dropEmptyEnd taken, LineSurvives rt line := by
    apply survives_of_size_le
    rw [size_dropEmptyEnd, ← hkept]
    omega
  refine ⟨?_, ?_, ?_⟩
  · intro c hc hbreak
    by_contra hne
    have := imp_of_countP_le hplain (by omega) c hc (by simpa using hne)
    rw [hbreak] at this
    cases this
  · intro line hline
    have hmem : line ∈ taken := by
      have : line ∈ bodyLines text := List.mem_cons_of_mem _ (List.mem_append_left _ hline)
      rwa [hbodyLines, hnil, List.append_nil] at this
    obtain h | h := dropEmptyEnd_eq taken
    · rw [← h] at hmem
      exact hsurvive line hmem
    · rw [h] at hmem
      obtain hmem | hmem := List.mem_append.mp hmem
      · exact hsurvive line hmem
      · exact .inl (List.mem_singleton.mp hmem)
  · have hgone : occurs "\n\n\n".toList (collapseBlankLines (joinLines kept)) = false :=
      occurs_collapseFrom (Nat.le_refl _)
    rw [Bool.eq_false_iff, ne_eq, occurs_iff] at hgone ⊢
    intro h
    rw [← hbody] at h
    exact hgone (h.trans (stripWith_isInfix _ _))

end VaultNotes

end MemoryPlane
