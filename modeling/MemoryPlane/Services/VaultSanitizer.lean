import MemoryPlane.Python.Pieces
import MemoryPlane.Services.VaultReading

/-!
# The sanitizer

The sanitizer keeps or drops whole lines, shortens gaps and strips the text, and none of this can
make a kept line technical: what it returns is a text that it keeps.
-/

namespace MemoryPlane

namespace VaultNotes

open Text

variable {rt : NoteRuntime}

variable (rt) in
/-- A line that the sanitizer keeps on its own. -/
def LineKept (line : List Char) : Prop := stripWith isSpace line = [] ∨ isTechnical rt line = false

/-- A kept line as it stands in the result: blank lines lose their white space. -/
def blanked (line : List Char) : List Char := if stripWith isSpace line = [] then [] else line

/-- Lines that are kept on their own stay, whatever follows them. -/
theorem keptLines_append {ls : List (List Char)} (h : ∀ l ∈ ls, LineKept rt l)
    (rest : List (List Char)) :
    keptLines rt false 0 (ls ++ rest) = ls.map blanked ++ keptLines rt false 0 rest := by
  induction ls with
  | nil => rfl
  | cons line ls ih =>
    have hrest := ih fun l hl => h l (List.mem_cons_of_mem _ hl)
    rw [List.cons_append, keptLines, List.map_cons, blanked]
    by_cases hblank : stripWith isSpace line = []
    · simp [hrest, hblank]
    · have htechnical := (h line (List.mem_cons_self ..)).resolve_left hblank
      simp [hrest, hblank, htechnical]

/-- Kept lines stay kept when white space at their ends is dropped. -/
theorem LineSurvives.of_pad {u l v : List Char} (hu : ∀ c ∈ u, isSpace c = true)
    (hv : ∀ c ∈ v, isSpace c = true) (h : LineSurvives rt (u ++ (l ++ v))) : LineSurvives rt l := by
  have hstrip : stripWith isSpace (u ++ (l ++ v)) = stripWith isSpace l := stripWith_padded hu hv l
  obtain hnil | ⟨hblank, htechnical⟩ := h
  · simp only [List.append_eq_nil_iff] at hnil
    exact .inl hnil.2.1
  · right
    rw [hstrip] at hblank
    refine ⟨hblank, ?_⟩
    rw [← htechnical, isTechnical, isTechnical, isSystemHeading, isSystemHeading, hstrip]

/-- The lines that stay survive. -/
theorem survives_of_mem_keptLines {fence : Bool} {depth : ℕ} {ls : List (List Char)} {l : List Char}
    (hl : l ∈ keptLines rt fence depth ls) : LineSurvives rt l := by
  induction ls generalizing fence depth with
  | nil => cases hl
  | cons line rest ih =>
    rw [keptLines] at hl
    split at hl
    · exact ih hl
    split at hl
    · exact ih hl
    split at hl
    · obtain rfl | hl := List.mem_cons.mp hl
      · exact .inl rfl
      · exact ih hl
    rename_i hblank
    split at hl
    · split at hl
      · exact ih hl
      split at hl
      · exact ih hl
      · exact ih hl
    · rename_i htechnical
      obtain rfl | hl := List.mem_cons.mp hl
      · exact .inr ⟨hblank, by simpa using htechnical⟩
      · exact ih hl

section Gaps

variable {s t : List Char} {R : List Char → Prop}

theorem feed_isLineBreak : isLineBreak '\n' = true := by decide

/-- Replacing gaps drops empty pieces. -/
theorem allPieces_replace_gap (hnil : R []) (h : AllPieces isLineBreak R s) :
    AllPieces isLineBreak R (replace "\n\n\n".toList "\n\n".toList s) := by
  induction hn : s.length using Nat.strong_induction_on generalizing s with
  | _ n ih =>
    by_cases hocc : occurs "\n\n\n".toList s = true
    · obtain ⟨a, b, rfl, hreplaced⟩ : ∃ a b, s = a ++ ("\n\n\n".toList ++ b) ∧
          replace "\n\n\n".toList "\n\n".toList s =
            a ++ ("\n\n".toList ++ replace "\n\n\n".toList "\n\n".toList b) :=
        replace_of_occurs (by decide) hocc
      have hpat : "\n\n\n".toList = ['\n', '\n', '\n'] := by decide
      have hrep : "\n\n".toList = ['\n', '\n'] := by decide
      rw [hpat] at h hn
      simp only [List.cons_append, List.nil_append] at h hn
      rw [allPieces_append_cons feed_isLineBreak, allPieces_cons feed_isLineBreak,
        allPieces_cons feed_isLineBreak] at h
      have hrest := ih b.length (by rw [← hn, List.length_append]; simp; omega) h.2.2.2 rfl
      rw [hreplaced, hrep]
      simp only [List.cons_append, List.nil_append]
      rw [allPieces_append_cons feed_isLineBreak, allPieces_cons feed_isLineBreak]
      exact ⟨h.1, hnil, hrest⟩
    · rw [replace_of_not_occurs (by simpa using hocc)]
      exact h

theorem allPieces_collapseFrom (hnil : R []) (n : ℕ) (h : AllPieces isLineBreak R s) :
    AllPieces isLineBreak R (collapseFrom n s) := by
  induction n generalizing s with
  | zero => exact h
  | succ n ih =>
    rw [collapseFrom]
    split
    · exact ih (allPieces_replace_gap hnil h)
    · exact h

theorem mem_collapseFrom {n : ℕ} {c : Char} (hc : c ∈ collapseFrom n s) : c ∈ s ∨ c = '\n' := by
  induction n generalizing s with
  | zero => exact .inl hc
  | succ n ih =>
    rw [collapseFrom] at hc
    split at hc
    · obtain hc | rfl := ih hc
      · obtain hc | hc := mem_replaceFrom hc
        · exact .inl hc
        · right
          simpa using hc
      · exact .inr rfl
    · exact .inl hc

end Gaps

/-- The pieces of joined lines. -/
theorem allPieces_joinLines {R : List Char → Prop} {ls : List (List Char)} (hnil : R [])
    (hunbroken : ∀ l ∈ ls, ∀ c ∈ l, isLineBreak c = false) (h : ∀ l ∈ ls, R l) :
    AllPieces isLineBreak R (joinLines ls) := by
  induction ls with
  | nil =>
    intro l hl
    rw [show joinLines [] = [] from rfl, List.splitOnP_nil, List.mem_singleton] at hl
    rwa [hl]
  | cons l ls ih =>
    have hl : AllPieces isLineBreak R l := by
      intro k hk
      rw [List.splitOnP_eq_singleton (hunbroken l (List.mem_cons_self ..)),
        List.mem_singleton] at hk
      rw [hk]
      exact h l (List.mem_cons_self ..)
    have hrest := ih (fun k hk => hunbroken k (List.mem_cons_of_mem _ hk))
      fun k hk => h k (List.mem_cons_of_mem _ hk)
    by_cases hempty : ls = []
    · subst hempty
      rwa [joinLines_singleton]
    · rw [joinLines_cons hempty, allPieces_append_cons feed_isLineBreak]
      exact ⟨hl, hrest⟩

/-- Lines are pieces when line feeds are the only boundaries. -/
theorem of_mem_splitlines {R : List Char → Prop} {s : List Char}
    (hbreaks : ∀ c ∈ s, isLineBreak c = true → c = '\n') (h : AllPieces isLineBreak R s) :
    ∀ l ∈ Text.splitlines s, R l := by
  have hplain : dropReturns s = s := by
    apply dropReturns_of_plain
    rintro c hc rfl
    exact absurd (hbreaks _ hc (by decide)) (by decide)
  intro l hl
  apply h
  rw [Text.splitlines, hplain] at hl
  obtain heq | heq := dropEmptyEnd_eq (s.splitOnP isLineBreak)
  · rwa [heq] at hl
  · rw [heq]
    exact List.mem_append_left _ hl

variable (rt) in
/-- The lines that the sanitizer keeps of a text. -/
def keptOf (value : List Char) : List (List Char) := keptLines rt false 0 (splitlines value)

theorem unbroken_keptOf (value : List Char) :
    ∀ l ∈ keptOf rt value, ∀ c ∈ l, isLineBreak c = false := by
  intro l hl
  obtain rfl | hl := mem_keptLines hl
  · simp
  · exact unbroken_of_mem_splitlines hl

/-- What the sanitizer returns is a text that it keeps. -/
theorem survives_sanitize (value : List Char) :
    TextSurvives rt (sanitizeEditableBody rt value) := by
  set collapsed := collapseBlankLines (joinLines (keptOf rt value)) with hcollapsed
  change TextSurvives rt (stripWith isSpace collapsed)
  have hkept : AllPieces isLineBreak (LineSurvives rt) collapsed :=
    allPieces_collapseFrom (.inl rfl) _ (allPieces_joinLines (.inl rfl) (unbroken_keptOf value)
      fun l hl => survives_of_mem_keptLines hl)
  obtain ⟨a, b, hsplit, ha, hb⟩ := exists_stripWith isSpace collapsed
  have hsub : ∀ c ∈ stripWith isSpace collapsed, c ∈ collapsed :=
    fun c hc => (stripWith_isInfix isSpace collapsed).subset hc
  have hbreaks : ∀ c ∈ stripWith isSpace collapsed, isLineBreak c = true → c = '\n' := by
    intro c hc hbreak
    obtain hjoined | rfl := mem_collapseFrom (hsub c hc)
    · obtain rfl | ⟨l, hl, hcl⟩ := mem_joinLines hjoined
      · rfl
      · rw [unbroken_keptOf value l hl c hcl] at hbreak
        cases hbreak
    · rfl
  refine ⟨hbreaks, ?_, ?_⟩
  · rw [hsplit] at hkept
    have hright := hkept.of_append_left ha fun u l hu h =>
      LineSurvives.of_pad (v := []) hu (by simp) (by rwa [List.append_nil])
    have hpieces := hright.of_append_right hb fun l u hu h =>
      LineSurvives.of_pad (u := []) (by simp) hu h
    exact of_mem_splitlines hbreaks hpieces
  · have hgone : occurs "\n\n\n".toList collapsed = false := occurs_collapseFrom (Nat.le_refl _)
    rw [Bool.eq_false_iff, ne_eq, occurs_iff] at hgone ⊢
    exact fun h => hgone (h.trans (stripWith_isInfix _ _))

/-- A stripped text that survives is its joined lines. -/
theorem TextSurvives.joinLines_splitlines {text : List Char} (h : TextSurvives rt text)
    (hstrip : stripWith isSpace text = text) : joinLines (splitlines text) = text := by
  by_cases hne : text = []
  · subst hne
    rfl
  have hlast : ∀ c, text.getLast? = some c → isLineBreak c = false := by
    intro c hc
    rw [← hstrip] at hc
    have hspace := getLast?_stripWith hc
    by_contra hbreak
    rw [isSpace_of_isLineBreak (by simpa using hbreak)] at hspace
    cases hspace
  exact Text.joinLines_splitlines hne hlast h.breaks

/-- A text that survives is returned as it is, if it is stripped. -/
theorem sanitize_of_survives {text : List Char} (hstrip : stripWith isSpace text = text)
    (h : TextSurvives rt text) : sanitizeEditableBody rt text = text := by
  rw [sanitizeEditableBody, keptLines_of_survives h.lines, h.joinLines_splitlines hstrip,
    collapseBlankLines, collapseFrom_of_not_occurs h.gaps, hstrip]

/-- What the sanitizer returns has no technical line and no long gap, and is returned again. -/
theorem sanitized_normal_form (rt : NoteRuntime) (s : List Char) :
    let t := sanitizeEditableBody rt s
    (∀ line ∈ splitlines t, stripWith isSpace line ≠ [] → isTechnical rt line = false) ∧
      occurs "\n\n\n".toList t = false ∧ sanitizeEditableBody rt t = t := by
  intro t
  have ht : TextSurvives rt t := survives_sanitize s
  refine ⟨fun line hline hblank => ?_, ht.gaps, ?_⟩
  · obtain rfl | ⟨-, htechnical⟩ := ht.lines line hline
    · exact absurd rfl hblank
    · exact htechnical
  · exact sanitize_of_survives (stripWith_stripWith ..) ht

end VaultNotes

end MemoryPlane
