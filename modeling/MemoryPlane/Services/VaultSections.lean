import MemoryPlane.Services.VaultPatch
import MemoryPlane.Services.VaultSanitizer

/-!
# Section patches

The section that a heading names, and what a patch of it leaves of the text. The spliced text is
cleared as a whole, so the lines around the section stay as they are exactly when the sanitizer has
nothing to do on them.
-/

namespace MemoryPlane

namespace VaultNotes

open Text

variable {rt : NoteRuntime}

section Splicing

variable {α β : Type} {f : α → Option β}

/-- The only element of a list that a partial function is defined on. -/
theorem filterMap_zipIdx_eq_singleton {ls : List α} {k i : ℕ} {b : β} :
    ((ls.zipIdx k).filterMap fun x => (f x.1).map fun b => (x.2, b)) = [(i, b)] ↔
      ∃ before x after, ls = before ++ x :: after ∧ i = k + before.length ∧ f x = some b ∧
        (∀ y ∈ before, f y = none) ∧ ∀ y ∈ after, f y = none := by
  constructor
  · intro h
    obtain ⟨l₁, ⟨x, j⟩, l₂, hsplit, hnone, hx, hrest⟩ := List.filterMap_eq_cons_iff.mp h
    rw [List.filterMap_eq_nil_iff] at hrest
    have hls := congrArg (List.map Prod.fst) hsplit
    rw [List.map_append, List.map_cons, List.zipIdx_map_fst] at hls
    obtain ⟨c, hc, hpair⟩ := Option.map_eq_some_iff.mp hx
    cases hpair
    have hindex : j = k + l₁.length := by
      have hget := congrArg (fun l => l[l₁.length]?) hsplit
      simp only [List.getElem?_append_right (Nat.le_refl _), Nat.sub_self,
        List.getElem?_cons_zero, List.getElem?_zipIdx] at hget
      obtain ⟨y, -, hy⟩ := Option.map_eq_some_iff.mp hget
      cases hy
      rfl
    refine ⟨_, x, _, hls, by rw [List.length_map, hindex], hc, ?_, ?_⟩
    · intro y hy
      obtain ⟨z, hz, rfl⟩ := List.mem_map.mp hy
      simpa using hnone z hz
    · intro y hy
      obtain ⟨z, hz, rfl⟩ := List.mem_map.mp hy
      simpa using hrest z hz
  · rintro ⟨before, x, after, rfl, rfl, hx, hbefore, hafter⟩
    have hnone : ∀ (ys : List α) (n : ℕ), (∀ y ∈ ys, f y = none) →
        ((ys.zipIdx n).filterMap fun x => (f x.1).map fun b => (x.2, b)) = [] := by
      intro ys n hys
      rw [List.filterMap_eq_nil_iff]
      intro y hy
      rw [hys y.1 (List.fst_mem_of_mem_zipIdx hy), Option.map_none]
    rw [List.zipIdx_append, List.filterMap_append, hnone before k hbefore, List.nil_append,
      List.zipIdx_cons, List.filterMap_cons]
    simp only [hx, Option.map_some, hnone after _ hafter]

end Splicing

variable (rt) in
/-- The level of a heading with the requested title. -/
def titleLevel (requested line : List Char) : Option ℕ :=
  (headingOf line).bind fun (level, title) =>
    if casefold rt title = casefold rt requested then some level else none

/-- The matches are the title lines at their levels, with their places. -/
theorem sectionMatches_eq (requested : List Char) (lines : List (List Char)) :
    sectionMatches rt requested lines =
      lines.zipIdx.filterMap fun x =>
        (titleLevel rt requested x.1).map fun level => (x.2, level) := by
  rw [sectionMatches]
  apply List.filterMap_congr
  rintro ⟨line, index⟩ -
  simp only [titleLevel]
  cases headingOf line with
  | none => rfl
  | some x =>
    obtain ⟨level, title⟩ := x
    simp only [Option.bind_some]
    split <;> rfl

/-- The title that a request names. -/
def requestedTitle (heading : List Char) : List Char :=
  stripWith isSpace ((stripWith isSpace heading).dropWhile (· = '#'))

variable (rt) in
/-- The one section of a text with a title: the lines before it, its heading, its body up to the
next heading that is not deeper, and the lines after it. -/
structure MatchedSection (text requested : List Char) (before : List (List Char)) (head : List Char)
    (body after : List (List Char)) : Prop where
  lines : splitlines text = before ++ head :: (body ++ after)
  title : ∃ level, titleLevel rt requested head = some level ∧
    (∀ l ∈ body, ∀ n, headingLevel l = some n → level < n) ∧
      ∀ l, after.head? = some l → ∃ n ≤ level, headingLevel l = some n
  only : ∀ l ∈ before ++ (body ++ after), titleLevel rt requested l = none

variable {text heading content result : List Char} {before body after : List (List Char)}
  {head : List Char}

/-- A patch that returns has found one heading with the title. -/
theorem replaceMarkdownSection_eq_ok
    (h : replaceMarkdownSection rt text heading content = .ok result) :
    ∃ start level, sectionMatches rt (requestedTitle heading) (splitlines text) = [(start, level)] ∧
      result = sanitizeEditableBody rt (joinLines ((splitlines text).take (start + 1) ++
        splitlines (stripWith isSpace content) ++ ((splitlines text).drop (start + 1)).dropWhile
          fun line => !(headingLevel line).any fun n => n ≤ level)) := by
  rw [replaceMarkdownSection] at h
  dsimp only at h
  split at h
  · cases h
  split at h
  · cases h
  split at h
  · cases h
  · rename_i start level hmatches
    exact ⟨start, level, hmatches, (Except.ok.inj h).symm⟩
  · cases h

/-- The section that a patch replaces. -/
theorem exists_matchedSection (h : replaceMarkdownSection rt text heading content = .ok result) :
    ∃ before head body after,
      MatchedSection rt text (requestedTitle heading) before head body after := by
  obtain ⟨start, level, hmatches, -⟩ := replaceMarkdownSection_eq_ok h
  rw [sectionMatches_eq] at hmatches
  obtain ⟨before, head, rest, hlines, -, hhead, hbefore, hrest⟩ :=
    filterMap_zipIdx_eq_singleton.mp hmatches
  set deeper := fun line => !(headingLevel line).any fun n => decide (n ≤ level) with hdeeper
  have hsplit : rest.takeWhile deeper ++ rest.dropWhile deeper = rest :=
    List.takeWhile_append_dropWhile
  refine ⟨before, head, rest.takeWhile deeper, rest.dropWhile deeper, ?_,
    ⟨level, hhead, ?_, ?_⟩, ?_⟩
  · rw [hsplit]
    exact hlines
  · intro l hl n hn
    have hl := List.mem_takeWhile_imp hl
    simpa [hdeeper, hn] using hl
  · intro l hl
    have hstop := List.head?_dropWhile_not deeper rest
    rw [hl] at hstop
    cases hn : headingLevel l with
    | none => simp [hdeeper, hn] at hstop
    | some n => exact ⟨n, by simpa [hdeeper, hn] using hstop, rfl⟩
  · rw [hsplit]
    intro l hl
    obtain hl | hl := List.mem_append.mp hl
    · exact hbefore l hl
    · exact hrest l hl

/-- The lines that the patch puts together. -/
def splicedLines (content : List Char) (before : List (List Char)) (head : List Char)
    (after : List (List Char)) : List (List Char) :=
  before ++ head :: (splitlines (stripWith isSpace content) ++ after)

/-- The patch is the cleared text of the spliced lines. -/
theorem MatchedSection.result_eq
    (hsection : MatchedSection rt text (requestedTitle heading) before head body after)
    (h : replaceMarkdownSection rt text heading content = .ok result) :
    result = sanitizeEditableBody rt (joinLines (splicedLines content before head after)) := by
  obtain ⟨start, level, hmatches, hresult⟩ := replaceMarkdownSection_eq_ok h
  obtain ⟨n, hhead, hbody, hafter⟩ := hsection.title
  have hplace : sectionMatches rt (requestedTitle heading) (splitlines text) =
      [(before.length, n)] := by
    rw [sectionMatches_eq, filterMap_zipIdx_eq_singleton]
    exact ⟨before, head, body ++ after, hsection.lines, (Nat.zero_add _).symm, hhead,
      fun l hl => hsection.only l (List.mem_append_left _ hl),
      fun l hl => hsection.only l (List.mem_append_right _ hl)⟩
  rw [hplace, List.cons.injEq, Prod.mk.injEq] at hmatches
  obtain ⟨⟨rfl, rfl⟩, -⟩ := hmatches
  have hlines : splitlines text = (before ++ [head]) ++ (body ++ after) := by
    rw [hsection.lines, List.append_assoc, List.singleton_append]
  have hfront : (splitlines text).take (before.length + 1) = before ++ [head] := by
    rw [hlines]
    exact List.take_left' (by simp)
  have hback : (splitlines text).drop (before.length + 1) = body ++ after := by
    rw [hlines]
    exact List.drop_left' (by simp)
  have hend : (body ++ after).dropWhile (fun line => !(headingLevel line).any fun m =>
      decide (m ≤ n)) = after := by
    rw [List.dropWhile_append_of_pos]
    · cases after with
      | nil => rfl
      | cons l after =>
        obtain ⟨m, hm, hl⟩ := hafter l rfl
        simp [hl, hm]
    · intro l hl
      cases hl' : headingLevel l with
      | none => rfl
      | some m =>
        have := hbody l hl m hl'
        simpa [hl'] using this
  have hspliced : before ++ [head] ++ splitlines (stripWith isSpace content) ++ after =
      splicedLines content before head after := by simp [splicedLines]
  rw [hresult, hfront, hback, hend, hspliced]

section Clearing

/-- A line of white space. -/
def isBlankLine (line : List Char) : Bool := line.all isSpace

/-- The lines without the blank ones at both ends. -/
def trimBlank (ls : List (List Char)) : List (List Char) := trim isBlankLine ls

/-- A blank line strips to nothing. -/
theorem stripWith_of_isBlankLine {l : List Char} (h : isBlankLine l = true) :
    stripWith isSpace l = [] := by
  have hpad := stripWith_padded (p := isSpace) (List.all_eq_true.mp h) (b := []) (by simp) []
  rw [List.append_nil, List.append_nil] at hpad
  exact hpad

/-- A blank line is written as an empty one. -/
theorem blanked_of_isBlankLine {l : List Char} (h : isBlankLine l = true) : blanked l = [] := by
  rw [blanked, if_pos (stripWith_of_isBlankLine h)]

/-- No rule drops a blank line. -/
theorem lineKept_of_isBlankLine {l : List Char} (h : isBlankLine l = true) : LineKept rt l :=
  .inl (stripWith_of_isBlankLine h)

/-- Line feeds at the ends of a text that starts and ends with something else are shortened by
themselves. -/
theorem replace_gap_padded {a y b : List Char} (ha : ∀ c ∈ a, c = '\n') (hb : ∀ c ∈ b, c = '\n')
    (hne : y ≠ []) (hhead : ∀ c, y.head? = some c → isSpace c = false)
    (hlast : ∀ c, y.getLast? = some c → isSpace c = false)
    (hgap : occurs "\n\n\n".toList y = false) :
    ∃ a' b', replace "\n\n\n".toList "\n\n".toList (a ++ (y ++ b)) = a' ++ (y ++ b') ∧
      (∀ c ∈ a', c = '\n') ∧ ∀ c ∈ b', c = '\n' := by
  have hfeeds : ∀ s : List Char, (∀ c ∈ s, c = '\n') →
      ∀ c ∈ replace "\n\n\n".toList "\n\n".toList s, c = '\n' := by
    intro s hs c hc
    obtain hc | hc := mem_replaceFrom hc
    · exact hs c hc
    · simpa using hc
  have hout : ∀ c, isSpace c = false → c ∉ "\n\n\n".toList := by
    intro c hc hmem
    have : c = '\n' := by simpa using hmem
    subst this
    exact absurd hc (by decide)
  obtain ⟨d, y, rfl⟩ := List.exists_cons_of_ne_nil hne
  have hd := hhead d rfl
  refine ⟨_, replace "\n\n\n".toList "\n\n".toList b, ?_, hfeeds a ha, hfeeds b hb⟩
  rw [List.cons_append, replace_append_cons (by decide) (hout d hd)]
  congr 1
  obtain rfl | ⟨z, e, rfl⟩ := List.eq_nil_or_concat y
  · rfl
  · rw [List.concat_eq_append] at hgap hlast ⊢
    have he : isSpace e = false := hlast e (by rw [← List.cons_append, List.getLast?_concat])
    rw [← List.nil_append (d :: _), occurs_append_cons (by decide) (hout d hd),
      Bool.or_eq_false_iff, occurs_append_cons (by decide) (hout e he), Bool.or_eq_false_iff]
        at hgap
    rw [List.append_assoc, List.singleton_append, replace_append_cons (by decide) (hout e he),
      replace_of_not_occurs hgap.2.1]
    simp

/-- Collapsing shortens the line feeds around a text and leaves the text. -/
theorem collapseFrom_padded (n : ℕ) {a y b : List Char} (ha : ∀ c ∈ a, c = '\n')
    (hb : ∀ c ∈ b, c = '\n') (hne : y ≠ []) (hhead : ∀ c, y.head? = some c → isSpace c = false)
    (hlast : ∀ c, y.getLast? = some c → isSpace c = false)
    (hgap : occurs "\n\n\n".toList y = false) :
    ∃ a' b', collapseFrom n (a ++ (y ++ b)) = a' ++ (y ++ b') ∧
      (∀ c ∈ a', c = '\n') ∧ ∀ c ∈ b', c = '\n' := by
  induction n generalizing a b with
  | zero => exact ⟨a, b, rfl, ha, hb⟩
  | succ n ih =>
    rw [collapseFrom]
    split
    · obtain ⟨a', b', hreplaced, ha', hb'⟩ := replace_gap_padded ha hb hne hhead hlast hgap
      rw [hreplaced]
      exact ih ha' hb'
    · exact ⟨a, b, rfl, ha, hb⟩

variable (rt) in
/-- Lines that the sanitizer has nothing to do on: it keeps every one of them, no two blank ones are
next to each other, and the text has no white space at its ends. -/
structure CleanLines (ls : List (List Char)) : Prop where
  survive : ∀ l ∈ ls, LineSurvives rt l
  gaps : occurs "\n\n\n".toList (joinLines ls) = false
  ends : stripWith isSpace (joinLines ls) = joinLines ls

/-- Empty lines around other lines are line feeds around their text. -/
theorem joinLines_padded {u t v : List (List Char)} (hu : ∀ l ∈ u, l = []) (hv : ∀ l ∈ v, l = [])
    (ht : t ≠ []) : ∃ a b, joinLines (u ++ (t ++ v)) = a ++ (joinLines t ++ b) ∧
      (∀ c ∈ a, c = '\n') ∧ ∀ c ∈ b, c = '\n' := by
  have hfeeds : ∀ w : List (List Char), (∀ l ∈ w, l = []) → ∀ c ∈ joinLines w, c = '\n' := by
    intro w hw c hc
    obtain rfl | ⟨l, hl, hcl⟩ := mem_joinLines hc
    · rfl
    · rw [hw l hl] at hcl
      cases hcl
  obtain ⟨b, hright, hb⟩ : ∃ b, joinLines (t ++ v) = joinLines t ++ b ∧ ∀ c ∈ b, c = '\n' := by
    by_cases hnil : v = []
    · exact ⟨[], by simp [hnil], by simp⟩
    · refine ⟨'\n' :: joinLines v, joinLines_append ht hnil, ?_⟩
      intro c hc
      obtain rfl | hc := List.mem_cons.mp hc
      · rfl
      · exact hfeeds v hv c hc
  have htv : t ++ v ≠ [] := by simp [ht]
  by_cases hnil : u = []
  · exact ⟨[], b, by rw [hnil, List.nil_append, hright, List.nil_append], by simp, hb⟩
  · refine ⟨joinLines u ++ ['\n'], b, ?_, ?_, hb⟩
    · rw [joinLines_append hnil htv, hright, List.append_assoc, List.singleton_append]
    · intro c hc
      obtain hc | hc := List.mem_append.mp hc
      · exact hfeeds u hu c hc
      · exact List.mem_singleton.mp hc

variable {ls : List (List Char)}

/-- The text of blank lines alone is cleared. -/
theorem sanitize_of_blank (hls : ∀ l ∈ ls, ∀ c ∈ l, isLineBreak c = false)
    (h : ∀ l ∈ ls, isBlankLine l = true) : sanitizeEditableBody rt (joinLines ls) = [] := by
  have hlines : ∀ l ∈ dropEmptyEnd ls, isBlankLine l = true := by
    intro l hl
    apply h
    obtain heq | heq := dropEmptyEnd_eq ls
    · rwa [heq] at hl
    · rw [heq]
      exact List.mem_append_left _ hl
  have hkept : keptLines rt false 0 (dropEmptyEnd ls ++ []) =
      (dropEmptyEnd ls).map blanked ++ keptLines rt false 0 [] :=
    keptLines_append (fun l hl => lineKept_of_isBlankLine (hlines l hl)) []
  rw [List.append_nil, keptLines, List.append_nil] at hkept
  rw [sanitizeEditableBody, splitlines_joinLines hls, hkept]
  have hfeeds : ∀ c ∈ collapseBlankLines (joinLines ((dropEmptyEnd ls).map blanked)),
      isSpace c = true := by
    intro c hc
    obtain hc | rfl := mem_collapseFrom hc
    · obtain rfl | ⟨l, hl, hcl⟩ := mem_joinLines hc
      · decide
      · obtain ⟨k, hk, rfl⟩ := List.mem_map.mp hl
        rw [blanked_of_isBlankLine (hlines k hk)] at hcl
        cases hcl
    · decide
  have hpad := stripWith_padded (p := isSpace) hfeeds (b := []) (by simp) []
  rw [List.append_nil, List.append_nil] at hpad
  exact hpad

/-- Trimmed lines have no empty end to drop. -/
theorem dropEmptyEnd_trimBlank (ls : List (List Char)) :
    dropEmptyEnd (trimBlank ls) = trimBlank ls := by
  obtain heq | heq := dropEmptyEnd_eq (trimBlank ls)
  · exact heq
  · have hlast : (trimBlank ls).getLast? = some [] := by
      rw [heq, List.getLast?_concat]
    exact absurd (getLast?_trim hlast) (by decide)

/-- Joining and splitting keeps lines whose last one is not empty. -/
theorem splitlines_joinLines_trimBlank (hls : ∀ l ∈ ls, ∀ c ∈ l, isLineBreak c = false) :
    splitlines (joinLines (trimBlank ls)) = trimBlank ls := by
  obtain ⟨u, v, hsplit, -, -⟩ := exists_trim isBlankLine ls
  have hunbroken : ∀ l ∈ trimBlank ls, ∀ c ∈ l, isLineBreak c = false := by
    intro l hl
    apply hls
    rw [hsplit]
    exact List.mem_append_right _ (List.mem_append_left _ hl)
  rw [splitlines_joinLines hunbroken, dropEmptyEnd_trimBlank]

/-- The lines that the sanitizer reads are the trimmed lines with blank ones around them. -/
theorem exists_dropEmptyEnd (ls : List (List Char)) (hne : trimBlank ls ≠ []) :
    ∃ u v, dropEmptyEnd ls = u ++ (trimBlank ls ++ v) ∧ (∀ l ∈ u, isBlankLine l = true) ∧
      ∀ l ∈ v, isBlankLine l = true := by
  obtain ⟨u, v, hsplit, hu, hv⟩ := exists_trim isBlankLine ls
  change ls = u ++ (trimBlank ls ++ v) at hsplit
  by_cases hnil : v = []
  · refine ⟨u, [], ?_, hu, by simp⟩
    rw [hnil, List.append_nil] at hsplit
    rw [List.append_nil]
    nth_rewrite 1 [hsplit]
    rw [dropEmptyEnd_append u hne, dropEmptyEnd_trimBlank]
  · refine ⟨u, dropEmptyEnd v, ?_, hu, fun l hl => ?_⟩
    · nth_rewrite 1 [hsplit]
      rw [← List.append_assoc, dropEmptyEnd_append _ hnil, List.append_assoc]
    · apply hv
      obtain heq | heq := dropEmptyEnd_eq v
      · rwa [heq] at hl
      · rw [heq]
        exact List.mem_append_left _ hl

/-- A surviving line is kept and written as it is. -/
theorem LineSurvives.blanked {l : List Char} (h : LineSurvives rt l) :
    LineKept rt l ∧ VaultNotes.blanked l = l := by
  obtain rfl | ⟨hblank, htechnical⟩ := h
  · exact ⟨.inl rfl, rfl⟩
  · exact ⟨.inr htechnical, if_neg hblank⟩

/-- Of clean lines with blank ones around them, the clean ones stay and the others are emptied. -/
theorem keptLines_of_clean (hclean : CleanLines rt (trimBlank ls)) (hne : trimBlank ls ≠ []) :
    ∃ u v, keptLines rt false 0 (dropEmptyEnd ls) = u ++ (trimBlank ls ++ v) ∧ (∀ l ∈ u, l = []) ∧
      ∀ l ∈ v, l = [] := by
  obtain ⟨u, v, hend, hu, hv⟩ := exists_dropEmptyEnd ls hne
  have hlines : ∀ l ∈ u ++ (trimBlank ls ++ v), LineKept rt l := by
    intro l hl
    obtain hl | hl := List.mem_append.mp hl
    · exact lineKept_of_isBlankLine (hu l hl)
    obtain hl | hl := List.mem_append.mp hl
    · exact (hclean.survive l hl).blanked.1
    · exact lineKept_of_isBlankLine (hv l hl)
  have hempty : ∀ w : List (List Char), (∀ l ∈ w, isBlankLine l = true) →
      ∀ l ∈ w.map blanked, l = [] := by
    intro w hw l hl
    obtain ⟨k, hk, rfl⟩ := List.mem_map.mp hl
    exact blanked_of_isBlankLine (hw k hk)
  have hsame : (trimBlank ls).map blanked = trimBlank ls :=
    (List.map_congr_left fun l hl => (hclean.survive l hl).blanked.2).trans (List.map_id _)
  have hkept := keptLines_append hlines []
  rw [List.append_nil, keptLines, List.append_nil, List.map_append, List.map_append, hsame] at hkept
  exact ⟨u.map blanked, v.map blanked, by rw [hend, hkept], hempty u hu, hempty v hv⟩

/-- Clean lines stay, without the blank ones around them. -/
theorem sanitize_of_clean (hls : ∀ l ∈ ls, ∀ c ∈ l, isLineBreak c = false)
    (hclean : CleanLines rt (trimBlank ls)) :
    sanitizeEditableBody rt (joinLines ls) = joinLines (trimBlank ls) := by
  obtain ⟨u, v, hsplit, hu, hv⟩ := exists_trim isBlankLine ls
  change ls = u ++ (trimBlank ls ++ v) at hsplit
  by_cases hnil : trimBlank ls = []
  · rw [hnil]
    apply sanitize_of_blank hls
    rw [hsplit, hnil, List.nil_append]
    intro l hl
    obtain hl | hl := List.mem_append.mp hl
    · exact hu l hl
    · exact hv l hl
  obtain ⟨u', v', hkept, hu', hv'⟩ := keptLines_of_clean hclean hnil
  obtain ⟨a, b, hjoin, ha, hb⟩ := joinLines_padded hu' hv' hnil
  set y := joinLines (trimBlank ls) with hy
  have hne : y ≠ [] := by
    intro hy'
    have hlines := splitlines_joinLines_trimBlank hls
    rw [← hy, hy'] at hlines
    exact hnil hlines.symm
  have hends : stripWith isSpace y = y := hclean.ends
  have hhead : ∀ c, y.head? = some c → isSpace c = false := by
    intro c hc
    rw [← hends] at hc
    exact head?_stripWith hc
  have hlast : ∀ c, y.getLast? = some c → isSpace c = false := by
    intro c hc
    rw [← hends] at hc
    exact getLast?_stripWith hc
  obtain ⟨a', b', hcollapsed, ha', hb'⟩ := collapseFrom_padded
    (joinLines (u' ++ (trimBlank ls ++ v'))).length ha hb hne hhead hlast hclean.gaps
  have hspace : ∀ w : List Char, (∀ c ∈ w, c = '\n') → ∀ c ∈ w, isSpace c = true := by
    intro w hw c hc
    rw [hw c hc]
    decide
  rw [sanitizeEditableBody, splitlines_joinLines hls, hkept, collapseBlankLines]
  nth_rewrite 2 [hjoin]
  rw [hcollapsed]
  exact stripWith_pad (hspace a' ha') (hspace b' hb') hne hhead hlast

/-- A patch that returns leaves the lines around its section as they are, with the lines of the
content in it, exactly when those lines are clean. -/
theorem section_patch_verbatim_iff
    (h : replaceMarkdownSection rt text heading content = .ok result) :
    (∃ before head body after,
      MatchedSection rt text (requestedTitle heading) before head body after) ∧
      ∀ before head body after,
        MatchedSection rt text (requestedTitle heading) before head body after →
          (splitlines result = trimBlank (splicedLines content before head after) ↔
            CleanLines rt (trimBlank (splicedLines content before head after))) := by
  refine ⟨exists_matchedSection h, fun before head body after hsection => ?_⟩
  have hresult := hsection.result_eq h
  have hls : ∀ l ∈ splicedLines content before head after, ∀ c ∈ l, isLineBreak c = false := by
    have htext : ∀ l ∈ before ++ head :: (body ++ after), ∀ c ∈ l, isLineBreak c = false := by
      rw [← hsection.lines]
      exact fun l => unbroken_of_mem_splitlines
    intro l hl
    simp only [splicedLines, List.mem_append, List.mem_cons] at hl htext
    obtain hl | hl | hl | hl := hl
    · exact htext l (.inl hl)
    · exact htext l (.inr (.inl hl))
    · exact unbroken_of_mem_splitlines hl
    · exact htext l (.inr (.inr (.inr hl)))
  constructor
  · intro hsame
    have hsurvives : TextSurvives rt result := by
      rw [hresult]
      exact survives_sanitize _
    have hstrip : stripWith isSpace result = result := by
      rw [hresult]
      exact stripWith_stripWith ..
    have hjoin := hsurvives.joinLines_splitlines hstrip
    rw [← hsame]
    exact ⟨hsurvives.lines, by rw [hjoin]; exact hsurvives.gaps, by rw [hjoin]; exact hstrip⟩
  · intro hclean
    rw [hresult, sanitize_of_clean hls hclean, splitlines_joinLines_trimBlank hls]

/-- A text with a section of goals between a line and a section of notes with one line. -/
def goalsText (last : String) : List Char :=
  joinLines (["intro", "# Goals", "old", "# Notes", last].map String.toList)

/-- The example's patch is the spliced text, sanitized. -/
theorem goals_patched (last : String) (h : last ∈ ["ready", "status: ready"]) :
    replaceMarkdownSection asciiNotes (goalsText last) "Goals".toList "new".toList =
      .ok (sanitizeEditableBody asciiNotes
        (joinLines (["intro", "# Goals", "new", "# Notes", last].map String.toList))) := by
  obtain rfl | h := List.mem_cons.mp h
  · decide +kernel
  · obtain rfl := List.mem_singleton.mp h
    decide +kernel

/-- The example's section lies between its heading and the next. -/
theorem goals_section (last : String) (h : last ∈ ["ready", "status: ready"]) :
    MatchedSection asciiNotes (goalsText last) (requestedTitle "Goals".toList) ["intro".toList]
      "# Goals".toList ["old".toList] ["# Notes".toList, last.toList] where
  lines := by
    obtain rfl | h := List.mem_cons.mp h
    · decide +kernel
    · obtain rfl := List.mem_singleton.mp h
      decide +kernel
  title := by
    refine ⟨1, by decide +kernel, fun l hl n hn => ?_, fun l hl => ?_⟩
    · obtain rfl := List.mem_singleton.mp hl
      have hnone : headingLevel "old".toList = none := by decide
      rw [hnone] at hn
      cases hn
    · cases hl
      exact ⟨1, Nat.le_refl 1, by decide +kernel⟩
  only := by
    have hall :
      (["intro", "old", "# Notes", "ready", "status: ready"].map String.toList).all fun l =>
        (titleLevel asciiNotes (requestedTitle "Goals".toList) l).isNone := by decide +kernel
    intro l hl
    refine Option.isNone_iff_eq_none.mp (List.all_eq_true.mp hall l ?_)
    simp only [List.mem_cons, List.not_mem_nil, or_false] at h
    revert l
    rcases h with rfl | rfl <;> decide +kernel

/-- The lines are clean, so all others of the text stay. -/
theorem section_patch_at_ready :
    ∃ result, replaceMarkdownSection asciiNotes (goalsText "ready") "Goals".toList "new".toList =
        .ok result ∧
      splitlines result = ["intro", "# Goals", "new", "# Notes", "ready"].map String.toList := by
  have hpatch := goals_patched "ready" (List.mem_cons_self ..)
  have hlines : trimBlank (splicedLines "new".toList ["intro".toList] "# Goals".toList
      ["# Notes".toList, "ready".toList]) =
      ["intro", "# Goals", "new", "# Notes", "ready"].map String.toList := by decide +kernel
  have hsurvive : ∀ l ∈ ["intro", "# Goals", "new", "# Notes", "ready"].map String.toList,
      l = [] ∨ stripWith isSpace l ≠ [] ∧ isTechnical asciiNotes l = false := by decide +kernel
  refine ⟨_, hpatch, ?_⟩
  rw [← hlines]
  refine ((section_patch_verbatim_iff hpatch).2 _ _ _ _
    (goals_section "ready" (List.mem_cons_self ..))).mpr ?_
  rw [hlines]
  exact ⟨hsurvive, by decide +kernel, by decide +kernel⟩

/-- The patch of a section drops the line `status: ready` of the section behind it. -/
theorem patch_drops_other_line :
    ¬ ∀ (text heading content result : List Char) (before body after : List (List Char))
      (head : List Char), replaceMarkdownSection asciiNotes text heading content = .ok result →
        MatchedSection asciiNotes text (requestedTitle heading) before head body after →
          splitlines result = trimBlank (splicedLines content before head after) := by
  intro h
  have hsame := h _ _ _ _ _ _ _ _ (goals_patched "status: ready" (by simp))
    (goals_section "status: ready" (by simp))
  exact absurd hsame (by decide +kernel)

end Clearing

end VaultNotes

end MemoryPlane
