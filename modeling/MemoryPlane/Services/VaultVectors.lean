import MemoryPlane.Services.VaultSanitizer

/-!
# Vectors on several lines

A numeric array that is written over several lines, as the sanitizer sees it. The block that it
drops is opened by a line that ends in a bracket, so an array whose first line already holds a
number leaves its other lines behind.
-/

namespace MemoryPlane

/-- A character of a float literal, apart from white space and digits of other scripts. -/
def isFloatChar (c : Char) : Bool := isDigit c || "+-.e_infaty".toList.contains c.toLower

section Literals

variable {u : Unicode} {cs ds : List Char} {c : Char}

/-- Dropping the sign loses a character of a float at most. -/
theorem mem_dropSign (hc : c ∈ cs) : isFloatChar c = true ∨ c ∈ (dropSign cs).2 := by
  unfold dropSign
  split
  · obtain rfl | hc := List.mem_cons.mp hc
    · exact .inl (by decide)
    · exact .inr hc
  · obtain rfl | hc := List.mem_cons.mp hc
    · exact .inl (by decide)
    · exact .inr hc
  · exact .inr hc

/-- A digit may stand in a float. -/
theorem isFloatChar_of_isDigit (hc : isDigit c = true) : isFloatChar c = true := by
  rw [isFloatChar, hc]
  rfl

/-- A readable exponent has only characters of a float. -/
theorem isFloatChar_of_readExponent {e : ℤ} (h : readExponent cs = some e) (hc : c ∈ cs) :
    isFloatChar c = true := by
  cases cs with
  | nil => cases hc
  | cons d cs =>
    rw [readExponent] at h
    dsimp only at h
    split at h
    · rename_i hexp
      obtain ⟨hd, -, hdigits⟩ := hexp
      obtain rfl | hc := List.mem_cons.mp hc
      · obtain rfl | rfl := hd <;> decide
      · obtain hsign | hc := mem_dropSign hc
        · exact hsign
        · exact isFloatChar_of_isDigit (List.all_eq_true.mp hdigits c hc)
    · cases h

/-- A readable decimal has only characters of a float. -/
theorem isFloatChar_of_readDecimal {q : ℚ} (h : readDecimal cs = some q) (hc : c ∈ cs) :
    isFloatChar c = true := by
  have hdigit : ∀ s : List Char, c ∈ s.takeWhile isDigit → isFloatChar c = true :=
    fun s hc => isFloatChar_of_isDigit (List.mem_takeWhile_imp hc)
  rw [← List.takeWhile_append_dropWhile (p := isDigit) (l := cs), List.mem_append] at hc
  obtain hc | hc := hc
  · exact hdigit cs hc
  rw [readDecimal] at h
  dsimp only at h
  split at h
  · rename_i ds hrest
    split at h
    · cases h
    obtain ⟨e, he, -⟩ := Option.map_eq_some_iff.mp h
    rw [hrest] at hc
    obtain rfl | hc := List.mem_cons.mp hc
    · decide
    rw [← List.takeWhile_append_dropWhile (p := isDigit) (l := ds), List.mem_append] at hc
    obtain hc | hc := hc
    · exact hdigit ds hc
    · exact isFloatChar_of_readExponent he hc
  · split at h
    · cases h
    obtain ⟨e, he, -⟩ := Option.map_eq_some_iff.mp h
    exact isFloatChar_of_readExponent he hc

/-- Dropping the underscores loses characters of a float only. -/
theorem mem_dropUnderscores {b : Bool} (h : dropUnderscores b cs = some ds) (hc : c ∈ cs) :
    isFloatChar c = true ∨ c ∈ ds := by
  induction b, cs using dropUnderscores.induct generalizing ds with
  | case1 => cases hc
  | case2 b cs hdigit ih =>
    rw [dropUnderscores, if_pos hdigit] at h
    obtain rfl | hc := List.mem_cons.mp hc
    · exact .inl (by decide)
    · exact ih h hc
  | case3 b cs hdigit =>
    rw [dropUnderscores, if_neg hdigit] at h
    cases h
  | case4 b d cs hne ih =>
    rw [dropUnderscores] at h
    · obtain ⟨es, hes, rfl⟩ := Option.map_eq_some_iff.mp h
      obtain rfl | hc := List.mem_cons.mp hc
      · exact .inr (List.mem_cons_self ..)
      · exact (ih hes hc).imp_right (List.mem_cons_of_mem _)
    · exact hne

/-- The characters of a number, as its parser sees them. -/
theorem isFloatChar_of_readFloat {round : ℚ → ℚ} {s : List Char} {x : PyFloat}
    (h : readFloat u round s = some x) :
    ∀ c ∈ Text.stripWith isAsciiSpace (s.map (toAsciiDigit u)), isFloatChar c = true := by
  obtain ⟨cs, hcs, h⟩ := Option.bind_eq_some_iff.mp h
  have hword : ∀ word : String, (∀ d ∈ word.toList, "+-.e_infaty".toList.contains d = true) →
      (dropSign cs).2.map Char.toLower = word.toList → ∀ c ∈ (dropSign cs).2,
        isFloatChar c = true := by
    intro word hletters hds c hc
    have hmem : c.toLower ∈ word.toList := by
      rw [← hds]
      exact List.mem_map_of_mem hc
    rw [isFloatChar, hletters _ hmem, Bool.or_true]
  have hds : ∀ c ∈ (dropSign cs).2, isFloatChar c = true := by
    dsimp only at h
    split at h
    · rename_i hinf
      obtain hinf | hinf := hinf
      · exact hword "inf" (List.all_eq_true.mp (by decide)) hinf
      · exact hword "infinity" (List.all_eq_true.mp (by decide)) hinf
    split at h
    · rename_i hnan
      exact hword "nan" (List.all_eq_true.mp (by decide)) hnan
    · obtain ⟨q, hq, -⟩ := Option.map_eq_some_iff.mp h
      exact fun c hc => isFloatChar_of_readDecimal hq hc
  intro c hc
  obtain hfloat | hc := mem_dropUnderscores hcs hc
  · exact hfloat
  · obtain hfloat | hc := mem_dropSign hc
    · exact hfloat
    · exact hds c hc

/-- White space of the parser is white space of the language. -/
theorem isSpace_of_toAsciiDigit (h : isAsciiSpace (toAsciiDigit u c) = true) :
    isSpace c = true := by
  unfold toAsciiDigit at h
  split at h
  · simp only [isAsciiSpace, Bool.or_eq_true, Bool.and_eq_true, decide_eq_true_eq,
      beq_iff_eq] at h
    simp only [isSpace, Bool.or_eq_true, Bool.and_eq_true, decide_eq_true_eq, beq_iff_eq]
    omega
  split at h
  · assumption
  split at h
  · rename_i d _
    have hnone : ∀ n, 48 ≤ n → isAsciiSpace (Char.ofNat n) = false := by
      intro n hn
      have hval : (Char.ofNat n).toNat = n ∨ (Char.ofNat n).toNat = 0 := by
        by_cases hvalid : n.isValidChar
        · have hof : Char.ofNat n = Char.ofNatAux n hvalid := dif_pos hvalid
          exact .inl (hof ▸ UInt32.toNat_ofNatLT ..)
        · have hof : Char.ofNat n = '\x00' := dif_neg hvalid
          exact .inr (hof ▸ rfl)
      simp only [isAsciiSpace, Bool.or_eq_false_iff, Bool.and_eq_false_iff,
        decide_eq_false_iff_not, beq_eq_false_iff_ne]
      omega
    unfold hexDigit at h
    split at h
    · rw [hnone _ (by omega)] at h
      cases h
    · rw [hnone _ (by omega)] at h
      cases h
  · exact absurd h (by decide)

/-- White space of the language is no character of a number, as its parser sees it. -/
theorem isSpace_of_isFloatChar (h : isFloatChar (toAsciiDigit u c) = true) : isSpace c = false := by
  by_contra hspace
  rw [Bool.not_eq_false] at hspace
  have hascii : ∀ n < 127, isSpace (Char.ofNat n) = true → isFloatChar (Char.ofNat n) = false := by
    decide +kernel
  unfold toAsciiDigit at h
  split at h
  · rename_i hn
    have hc := hascii c.toNat hn
    rw [Char.ofNat_toNat] at hc
    rw [hc hspace] at h
    cases h
  · exact absurd h (by decide)

end Literals

namespace VaultNotes

open Text

variable {rt : NoteRuntime} {s x : List Char} {c : Char}

/-- A number is one word with white space around it. -/
theorem exists_word (h : isFloatLike rt s = true) : ∃ a m b, s = a ++ (m ++ b) ∧
    (∀ c ∈ a, isSpace c = true) ∧ (∀ c ∈ b, isSpace c = true) ∧
      ∀ c ∈ m, isFloatChar (toAsciiDigit rt.unicode c) = true := by
  obtain ⟨v, hv⟩ := Option.isSome_iff_exists.mp h
  have hchars := isFloatChar_of_readFloat hv
  obtain ⟨a', b', hsplit, ha', hb'⟩ :=
    exists_stripWith isAsciiSpace (s.map (toAsciiDigit rt.unicode))
  obtain ⟨a, rest, rfl, rfl, hrest⟩ := List.map_eq_append_iff.mp hsplit
  obtain ⟨m, b, rfl, hm, rfl⟩ := List.map_eq_append_iff.mp hrest
  refine ⟨a, m, b, rfl, fun c hc => ?_, fun c hc => ?_, fun c hc => ?_⟩
  · exact isSpace_of_toAsciiDigit (ha' _ (List.mem_map_of_mem hc))
  · exact isSpace_of_toAsciiDigit (hb' _ (List.mem_map_of_mem hc))
  · apply hchars
    rw [← hm]
    exact List.mem_map_of_mem hc

/-- Characters that no number has. -/
theorem not_mem_of_isFloatLike (h : isFloatLike rt s = true) (hc : c.toNat < 127)
    (hspace : isSpace c = false) (hfloat : isFloatChar c = false) : c ∉ s := by
  obtain ⟨a, m, b, rfl, ha, hb, hm⟩ := exists_word h
  have hends : ∀ l : List Char, (∀ d ∈ l, isSpace d = true) → c ∉ l := by
    intro l hl hmem
    rw [hl c hmem] at hspace
    cases hspace
  simp only [List.mem_append, not_or]
  refine ⟨hends a ha, fun hmem => ?_, hends b hb⟩
  have hdigit := hm c hmem
  rw [toAsciiDigit, if_pos hc, hfloat] at hdigit
  cases hdigit

variable (rt) in
/-- One number and an optional comma. -/
def HoldsNumber (s : List Char) : Prop :=
  ∃ number, isFloatLike rt number = true ∧ (s = number ∨ s = number ++ [','])

/-- A text that holds a number is not empty. -/
theorem HoldsNumber.ne_nil (h : HoldsNumber rt s) : s ≠ [] := by
  obtain ⟨number, hnumber, rfl | rfl⟩ := h
  · rintro rfl
    cases hnumber
  · simp

/-- Characters that no number and no comma has. -/
theorem HoldsNumber.not_mem (h : HoldsNumber rt s) (hc : c.toNat < 127) (hspace : isSpace c = false)
    (hfloat : isFloatChar c = false) (hcomma : c ≠ ',') : c ∉ s := by
  obtain ⟨number, hnumber, rfl | rfl⟩ := h
  · exact not_mem_of_isFloatLike hnumber hc hspace hfloat
  · simp [not_mem_of_isFloatLike hnumber hc hspace hfloat, hcomma]

variable (rt) in
/-- A numeric array over several lines: a bracket, or a bracket and a number, then numbers, then
the closing bracket, by itself or behind the last number. -/
structure NumericArray (first : List Char) (inner : List (List Char)) (last : List Char) :
    Prop where
  opens : stripWith isSpace first = ['['] ∨
    ∃ s, HoldsNumber rt s ∧ stripWith isSpace first = '[' :: s
  numbers : ∀ l ∈ inner, HoldsNumber rt (stripWith isSpace l)
  closes : stripWith isSpace last = [']'] ∨
    ∃ s, HoldsNumber rt s ∧ stripWith isSpace last = s ++ [']']

/-- No text starts with a pattern whose character it lacks. -/
theorem not_startsWith {pat : List Char} (hpat : c ∈ pat) (hs : c ∉ s) :
    startsWith pat s = false := by
  rw [startsWith, Bool.eq_false_iff, ne_eq, List.isPrefixOf_iff_prefix]
  exact fun h => hs (h.subset hpat)

/-- A text without one of the mark's characters does not end with the mark. -/
theorem not_endsWith {pat : List Char} (hpat : c ∈ pat) (hs : c ∉ s) : endsWith pat s = false := by
  rw [endsWith, Bool.eq_false_iff, ne_eq, List.isSuffixOf_iff_suffix]
  exact fun h => hs (h.subset hpat)

/-- A line that opens no block leaves nothing open. -/
theorem keptLines_plain {line : List Char} (hfence : '`' ∉ stripWith isSpace line)
    (hbrace : '\x7b' ∉ stripWith isSpace line)
    (hbracket : endsWith ['['] (stripWith isSpace line) = false) (rest : List (List Char)) :
    ∃ ls, keptLines rt false 0 (line :: rest) = ls ++ keptLines rt false 0 rest := by
  have hnofence : startsWith "```".toList (stripWith isSpace line) = false :=
    not_startsWith (by decide) hfence
  have hnobrace := not_endsWith (List.mem_singleton_self '\x7b') hbrace
  rw [keptLines]
  by_cases hblank : stripWith isSpace line = []
  · exact ⟨[[]], by simp [hblank]⟩
  by_cases htechnical : isTechnical rt line = true
  · refine ⟨[], ?_⟩
    simp only [hblank, htechnical, hnofence, hnobrace, hbracket, Bool.false_eq_true, if_false,
      ne_eq, not_true_eq_false, if_true, Bool.or_self, List.nil_append]
  · exact ⟨[line], by simp [hblank, htechnical]⟩

/-- Lines with one number each open no block. -/
theorem keptLines_numbers {ls : List (List Char)}
    (h : ∀ l ∈ ls, HoldsNumber rt (stripWith isSpace l)) (rest : List (List Char)) :
    ∃ ks, keptLines rt false 0 (ls ++ rest) = ks ++ keptLines rt false 0 rest := by
  induction ls with
  | nil => exact ⟨[], rfl⟩
  | cons line ls ih =>
    obtain ⟨ks, hks⟩ := ih fun l hl => h l (List.mem_cons_of_mem _ hl)
    have hnumber := h line (List.mem_cons_self ..)
    have hbracket := hnumber.not_mem (c := '[') (by decide) (by decide) (by decide) (by decide)
    obtain ⟨js, hjs⟩ : ∃ js, keptLines rt false 0 (line :: (ls ++ rest)) =
        js ++ keptLines rt false 0 (ls ++ rest) := keptLines_plain
      (hnumber.not_mem (by decide) (by decide) (by decide) (by decide))
      (hnumber.not_mem (by decide) (by decide) (by decide) (by decide))
      (not_endsWith (List.mem_singleton_self '[') hbracket) (ls ++ rest)
    exact ⟨js ++ ks, by rw [List.cons_append, hjs, hks, List.append_assoc]⟩

/-- Within a block, lines with one number each change nothing. -/
theorem keptLines_inside {ls : List (List Char)}
    (h : ∀ l ∈ ls, HoldsNumber rt (stripWith isSpace l)) (rest : List (List Char)) :
    keptLines rt false 1 (ls ++ rest) = keptLines rt false 1 rest := by
  induction ls with
  | nil => rfl
  | cons line ls ih =>
    have hnumber := h line (List.mem_cons_self ..)
    have hnone : ∀ c : Char, c.toNat < 127 → isSpace c = false → isFloatChar c = false → c ≠ ',' →
        (stripWith isSpace line).count c = 0 := fun c hc hspace hfloat hcomma =>
      List.count_eq_zero_of_not_mem (hnumber.not_mem hc hspace hfloat hcomma)
    have hdepth : blockDepth 1 (stripWith isSpace line) = 1 := by
      rw [blockDepth, hnone '\x7b' (by decide) (by decide) (by decide) (by decide),
        hnone '[' (by decide) (by decide) (by decide) (by decide),
        hnone '\x7d' (by decide) (by decide) (by decide) (by decide),
        hnone ']' (by decide) (by decide) (by decide) (by decide)]
    rw [List.cons_append, keptLines]
    simp only [Bool.false_eq_true, if_false, ne_eq, one_ne_zero, not_false_eq_true, if_true, hdepth]
    exact ih fun l hl => h l (List.mem_cons_of_mem _ hl)

section Closing

/-- Lowering adds no ASCII character but letters. -/
def LowersLetters (rt : NoteRuntime) : Prop :=
  ∀ s, ∀ c ∈ rt.lower s, c.toNat < 128 → c.isAlpha = false → c ∈ s

/-- Words of a number that is closed by a bracket. -/
theorem length_split_number {number : List Char} (h : isFloatLike rt number = true) :
    (split (stripWith (fun c => c == '[' || c == ']')
      (stripWith isSpace (number ++ [']'])))).length ≤ 1 := by
  obtain ⟨a, m, b, rfl, ha, hb, hm⟩ := exists_word h
  have hword : ∀ c ∈ m, isSpace c = false := fun c hc => isSpace_of_isFloatChar (hm c hc)
  have hspaces : stripWith isSpace ((a ++ (m ++ b)) ++ [']']) =
      stripWith isSpace (m ++ (b ++ [']'])) := by
    have hpad := stripWith_padded (p := isSpace) ha (b := []) (by simp) (m ++ (b ++ [']']))
    simpa using hpad
  rw [hspaces]
  by_cases hnil : m = []
  · subst hnil
    have hclose : stripWith isSpace (b ++ [']']) = [']'] := by
      have hpad := stripWith_padded (p := isSpace) hb (b := []) (by simp) [']']
      rw [List.append_nil] at hpad
      rw [hpad]
      decide
    rw [List.nil_append, hclose]
    decide
  · have hends : stripWith isSpace (m ++ (b ++ [']'])) = m ++ (b ++ [']']) := by
      apply stripWith_of_ends
      · intro c hc
        rw [List.head?_append_of_ne_nil _ hnil] at hc
        exact hword c (List.mem_of_head? hc)
      · intro c hc
        rw [← List.append_assoc, List.getLast?_concat, Option.some.injEq] at hc
        subst hc
        decide
    have hnumber : ∀ c ∈ m ++ b, (c == '[' || c == ']') = false := by
      intro c hc
      have hnone : ∀ d : Char, d.toNat < 127 → isSpace d = false → isFloatChar d = false →
          d ∉ m ++ b := by
        intro d hd hspace hfloat hmem
        exact not_mem_of_isFloatLike h hd hspace hfloat (List.mem_append_right _ hmem)
      rw [Bool.or_eq_false_iff, beq_eq_false_iff_ne, beq_eq_false_iff_ne]
      constructor
      · rintro rfl
        exact hnone _ (by decide) (by decide) (by decide) hc
      · rintro rfl
        exact hnone _ (by decide) (by decide) (by decide) hc
    have hbrackets : stripWith (fun c => c == '[' || c == ']') (m ++ (b ++ [']'])) = m ++ b := by
      have hpad := stripWith_padded (p := fun c => c == '[' || c == ']') (a := []) (b := [']'])
        (by simp) (by simp) (m ++ b)
      rw [List.nil_append, List.append_assoc] at hpad
      rw [hpad, stripWith_of_all_not hnumber]
    rw [hends, hbrackets]
    exact length_split_le (a := []) (by simp) hword hb

/-- The line that closes an array does not look like a vector by itself. -/
theorem vectorPayload_numbers (hx : x = [] ∨ HoldsNumber rt x) :
    looksLikeVectorPayload rt (stripWith isSpace (x ++ [']'])) = false := by
  rw [looksLikeVectorPayload, stripWith_stripWith]
  dsimp only
  split
  · -- at most one comma, so at most two parts
    rename_i hcomma
    have hcount : (stripWith (fun c => c == '[' || c == ']')
        (stripWith isSpace (x ++ [']']))).count ',' ≤ 1 := by
      rw [count_stripWith (by decide), count_stripWith (by decide), List.count_append]
      obtain rfl | ⟨number, hnumber, rfl | rfl⟩ := hx
      · decide
      · have hnone := not_mem_of_isFloatLike hnumber (c := ',') (by decide) (by decide) (by decide)
        rw [List.count_eq_zero_of_not_mem hnone]
        decide
      · have hnone := not_mem_of_isFloatLike hnumber (c := ',') (by decide) (by decide) (by decide)
        rw [List.count_append, List.count_eq_zero_of_not_mem hnone]
        decide
    have hparts : ∀ s : List Char, s.count ',' ≤ 1 →
        (((s.splitOn ',').map (stripWith isSpace)).filter (· ≠ [])).length < 4 := by
      intro s hs
      have hfilter := List.length_filter_le (fun t : List Char => decide (t ≠ []))
        ((s.splitOn ',').map (stripWith isSpace))
      have hlength := length_splitOn_eq s ','
      rw [List.length_map] at hfilter
      omega
    have hshort := hparts _ hcount
    rw [Bool.and_eq_false_iff, decide_eq_false_iff_not]
    exact .inl (by omega)
  · rename_i hcomma
    have hnone : ',' ∉ stripWith (fun c => c == '[' || c == ']')
        (stripWith isSpace (x ++ [']'])) := by
      simpa using hcomma
    rw [Bool.and_eq_false_iff, decide_eq_false_iff_not]
    left
    obtain rfl | ⟨number, hnumber, rfl | rfl⟩ := hx
    · decide
    · have hshort := length_split_number hnumber
      omega
    · rw [← List.count_eq_zero, count_stripWith (by decide), count_stripWith (by decide)] at hnone
      simp at hnone

/-- Every mark of an assignment has a colon or an equals sign. -/
theorem marks_signed (mark : String) (hmark : mark ∈ [":", "\":", "':", "=", " ="]) :
    ':' ∈ mark.toList ∨ '=' ∈ mark.toList := by
  have hall : [":", "\":", "':", "=", " ="].all fun mark =>
      mark.toList.contains ':' || mark.toList.contains '=' := by decide
  have hsign := List.all_eq_true.mp hall mark hmark
  rw [Bool.or_eq_true, List.contains_iff_mem, List.contains_iff_mem] at hsign
  exact hsign

/-- The line that closes an array is not technical. -/
theorem survives_closing (hlower : LowersLetters rt) {line : List Char}
    (hx : x = [] ∨ HoldsNumber rt x) (hline : stripWith isSpace line = x ++ [']']) :
    LineSurvives rt line := by
  have hnot : ∀ c : Char, c.toNat < 127 → isSpace c = false → isFloatChar c = false → c ≠ ',' →
      c ≠ ']' → c ∉ x ++ [']'] := by
    intro c hc hspace hfloat hcomma hbracket hmem
    obtain hmem | hmem := List.mem_append.mp hmem
    · obtain rfl | hx := hx
      · cases hmem
      · exact hx.not_mem hc hspace hfloat hcomma hmem
    · exact hbracket (List.mem_singleton.mp hmem)
  have hlowered : ∀ c : Char, c.toNat < 127 → isSpace c = false → isFloatChar c = false → c ≠ ',' →
      c ≠ ']' → c.isAlpha = false → c ∉ rt.lower (x ++ [']']) := fun c hc hspace hfloat hcomma
        hbracket halpha hmem =>
    hnot c hc hspace hfloat hcomma hbracket (hlower _ c hmem (by omega) halpha)
  right
  refine ⟨by simp [hline], ?_⟩
  have hheading : isSystemHeading rt line = false := by
    have hnone := hnot '#' (by decide) (by decide) (by decide) (by decide) (by decide)
    rw [isSystemHeading, hline, not_startsWith (c := '#') (by decide) hnone]
    rfl
  have hfield : looksLikeSystemField rt (x ++ [']']) = false := by
    have hcolon := hlowered ':' (by decide) (by decide) (by decide) (by decide) (by decide)
      (by decide)
    have hequals := hlowered '=' (by decide) (by decide) (by decide) (by decide) (by decide)
      (by decide)
    rw [looksLikeSystemField, List.any_eq_false]
    intro key hkey
    rw [Bool.and_eq_true, not_and, Bool.not_eq_true, List.any_eq_false]
    intro hstart mark hmark
    have hrest : ∀ c, c ∉ rt.lower (x ++ [']']) → c ∉ ((rt.lower (x ++ [']'])).dropWhile fun c =>
        c == '"' || c == '\'').drop key.length := by
      intro c hc hmem
      exact hc ((List.dropWhile_sublist _).subset (List.mem_of_mem_drop hmem))
    have hsign : ':' ∈ mark.toList ∨ '=' ∈ mark.toList := marks_signed mark hmark
    rw [Bool.not_eq_true]
    obtain hsign | hsign := hsign
    · exact not_startsWith hsign (hrest _ hcolon)
    · exact not_startsWith hsign (hrest _ hequals)
  have hstart : looksLikeVectorBlockStart rt (x ++ [']']) = false := by
    have hnone : '[' ∉ stripWith isSpace (x ++ [']']) := fun hmem =>
      hnot '[' (by decide) (by decide) (by decide) (by decide) (by decide)
        ((stripWith_isInfix isSpace _).subset hmem)
    have hne : stripWith isSpace (x ++ [']']) ≠ ['['] := by
      intro he
      exact hnone (by rw [he]; exact List.mem_singleton_self _)
    rw [looksLikeVectorBlockStart, not_startsWith (List.mem_singleton_self '[') hnone,
      beq_eq_false_iff_ne.mpr hne]
    rfl
  have hpayload : looksLikeStructuredPayloadStart rt (x ++ [']']) = false := by
    have hfence := hlowered '`' (by decide) (by decide) (by decide) (by decide) (by decide)
      (by decide)
    have hbrace := hlowered '\x7b' (by decide) (by decide) (by decide) (by decide) (by decide)
      (by decide)
    have hbracket := hlowered '[' (by decide) (by decide) (by decide) (by decide) (by decide)
      (by decide)
    rw [looksLikeStructuredPayloadStart, not_startsWith (c := '`') (by decide) hfence,
      not_startsWith (List.mem_singleton_self '\x7b') hbrace,
      not_startsWith (List.mem_singleton_self '[') hbracket]
    rfl
  have hvector := vectorPayload_numbers hx
  rw [← hline, stripWith_stripWith, hline] at hvector
  simp only [isTechnical, hline, hheading, hfield, hstart, hpayload, hvector, Bool.or_self]

end Closing

/-- A line that closes a vector may hold one more number in front of its bracket. -/
theorem HoldsNumber.closing {line : List Char} (h : stripWith isSpace line = [']'] ∨
    ∃ s, HoldsNumber rt s ∧ stripWith isSpace line = s ++ [']']) :
    ∃ x, (x = [] ∨ HoldsNumber rt x) ∧ stripWith isSpace line = x ++ [']'] := by
  obtain hline | ⟨s, hs, hline⟩ := h
  · exact ⟨[], .inl rfl, hline⟩
  · exact ⟨s, .inr hs, hline⟩

/-- The line that closes the array closes the block. -/
theorem keptLines_closing {line : List Char} (hx : x = [] ∨ HoldsNumber rt x)
    (hline : stripWith isSpace line = x ++ [']']) (rest : List (List Char)) :
    keptLines rt false 1 (line :: rest) = keptLines rt false 0 rest := by
  have hnone : ∀ c : Char, c.toNat < 127 → isSpace c = false → isFloatChar c = false → c ≠ ',' →
      x.count c = 0 := by
    intro c hc hspace hfloat hcomma
    obtain rfl | hx := hx
    · rfl
    · exact List.count_eq_zero_of_not_mem (hx.not_mem hc hspace hfloat hcomma)
  have hdepth : blockDepth 1 (x ++ [']']) = 0 := by
    simp only [blockDepth, List.count_append,
      hnone '\x7b' (by decide) (by decide) (by decide) (by decide),
      hnone '[' (by decide) (by decide) (by decide) (by decide),
      hnone '\x7d' (by decide) (by decide) (by decide) (by decide),
      hnone ']' (by decide) (by decide) (by decide) (by decide)]
    decide
  rw [keptLines]
  simp only [Bool.false_eq_true, if_false, ne_eq, one_ne_zero, not_false_eq_true, if_true, hline,
    hdepth]

/-- A bracket alone opens the block. -/
theorem keptLines_opening {line : List Char} (hline : stripWith isSpace line = ['['])
    (rest : List (List Char)) :
    keptLines rt false 0 (line :: rest) = keptLines rt false 1 rest := by
  have hstart : looksLikeVectorBlockStart rt ['['] = true := by
    have hbare : stripWith isSpace ['['] = ['['] := by decide
    rw [looksLikeVectorBlockStart, hbare]
    rfl
  have htechnical : isTechnical rt line = true := by
    simp only [isTechnical, hline, hstart, Bool.or_true, Bool.true_or]
  have hfence : startsWith "```".toList ['['] = false := by decide
  have hopen : endsWith ['['] ['['] = true := by decide
  rw [keptLines]
  simp only [hline, htechnical, hfence, hopen, Bool.false_eq_true, if_false, if_true, ne_eq,
    not_true_eq_false, reduceCtorEq, Bool.or_true]

/-- A bracket with a number behind it opens no block. -/
theorem keptLines_unopened {line : List Char} (hs : HoldsNumber rt s)
    (hline : stripWith isSpace line = '[' :: s) (rest : List (List Char)) :
    ∃ ks, keptLines rt false 0 (line :: rest) = ks ++ keptLines rt false 0 rest := by
  have hnone : ∀ c : Char, c.toNat < 127 → isSpace c = false → isFloatChar c = false → c ≠ ',' →
      c ≠ '[' → c ∉ '[' :: s := by
    intro c hc hspace hfloat hcomma hbracket hmem
    obtain rfl | hmem := List.mem_cons.mp hmem
    · exact hbracket rfl
    · exact hs.not_mem hc hspace hfloat hcomma hmem
  have hlast : endsWith ['['] ('[' :: s) = false := by
    rw [endsWith, Bool.eq_false_iff, ne_eq, List.isSuffixOf_iff_suffix]
    rintro ⟨t, ht⟩
    obtain ⟨u, d, rfl⟩ := (List.eq_nil_or_concat s).resolve_left hs.ne_nil
    rw [List.concat_eq_append] at ht hs
    rw [← List.cons_append] at ht
    obtain rfl : '[' = d := List.singleton_inj.mp (List.append_inj_right' ht rfl)
    apply hs.not_mem (c := '[') (by decide) (by decide) (by decide) (by decide)
    exact List.mem_append_right _ (List.mem_singleton_self _)
  have hfence := hnone '`' (by decide) (by decide) (by decide) (by decide) (by decide)
  have hbrace := hnone '\x7b' (by decide) (by decide) (by decide) (by decide) (by decide)
  apply keptLines_plain
  · rw [hline]
    exact hfence
  · rw [hline]
    exact hbrace
  · rw [hline]
    exact hlast

/-- Shortening gaps drops line feeds only. -/
theorem count_collapseFrom (hc : c ≠ '\n') (n : ℕ) (s : List Char) :
    (collapseFrom n s).count c = s.count c := by
  have hgap : ∀ pat : List Char, (∀ d ∈ pat, d = '\n') → c ∉ pat :=
    fun pat hpat hmem => hc (hpat c hmem)
  induction n generalizing s with
  | zero => rfl
  | succ n ih =>
    rw [collapseFrom]
    split
    · have hthree := hgap "\n\n\n".toList (by simp)
      have htwo := hgap "\n\n".toList (by simp)
      rw [ih, count_replace (by decide) hthree htwo]
    · rfl

/-- A character other than white space occurs as often as in the kept lines. -/
theorem count_sanitized (hc : c ≠ '\n') (hspace : isSpace c = false) (ls : List (List Char)) :
    (stripWith isSpace (collapseBlankLines (joinLines ls))).count c =
      (ls.map (List.count c)).sum := by
  rw [count_stripWith hspace, collapseBlankLines, count_collapseFrom hc, count_joinLines hc]

/-- A numeric array over several lines is dropped, with nothing but it, exactly when its first
line is a bracket alone. -/
theorem vector_block_dropped_iff (hlower : LowersLetters rt) {text : List Char}
    {before inner after : List (List Char)} {first last : List Char}
    (htext : splitlines text = before ++ (first :: (inner ++ last :: after)))
    (hbefore : ∀ l ∈ before, LineKept rt l) (hafter : ∀ l ∈ after, LineKept rt l)
    (harray : NumericArray rt first inner last) :
    sanitizeEditableBody rt text =
        stripWith isSpace (collapseBlankLines (joinLines ((before ++ after).map blanked))) ↔
      stripWith isSpace first = ['['] := by
  obtain ⟨x, hx, hlast⟩ := HoldsNumber.closing harray.closes
  have hend := keptLines_append hafter []
  rw [List.append_nil, keptLines, List.append_nil] at hend
  rw [sanitizeEditableBody, htext, keptLines_append hbefore, List.map_append]
  constructor
  · -- behind a first line with a number, the closing bracket stays
    intro hsame
    obtain hbare | ⟨s, hs, hfirst⟩ := harray.opens
    · exact hbare
    exfalso
    obtain ⟨js, hjs⟩ := keptLines_unopened hs hfirst (inner ++ last :: after)
    obtain ⟨ks, hks⟩ := keptLines_numbers harray.numbers (last :: after)
    have hsurvives := survives_closing hlower hx hlast
    have hblank : stripWith isSpace last ≠ [] := by simp [hlast]
    have hclosing : keptLines rt false 0 ([last] ++ after) =
        [last].map blanked ++ keptLines rt false 0 after := keptLines_append
      (List.forall_mem_singleton.mpr (.inr (hsurvives.resolve_left fun hnil => by
        rw [hnil] at hblank
        exact hblank rfl).2)) after
    rw [List.singleton_append, hend, List.map_singleton, blanked, if_neg hblank] at hclosing
    rw [hjs, hks, hclosing] at hsame
    have hcount := congrArg (List.count ']') hsame
    rw [count_sanitized (by decide) (by decide), count_sanitized (by decide) (by decide)] at hcount
    have hbracket : 0 < last.count ']' := by
      rw [← count_stripWith (p := isSpace) (by decide), hlast, List.count_append]
      simp
    simp only [List.map_append, List.sum_append, List.map_cons, List.sum_cons, List.map_nil,
      List.sum_nil] at hcount
    omega
  · intro hbare
    rw [keptLines_opening hbare, keptLines_inside harray.numbers, keptLines_closing hx hlast, hend]

/-- Lowering in ASCII adds letters only. -/
theorem lowersLetters_asciiNotes : LowersLetters asciiNotes := by
  intro s c hc hascii halpha
  obtain ⟨d, hd, rfl⟩ := List.mem_map.mp hc
  by_cases hupper : d.val ≥ 'A'.val ∧ d.val ≤ 'Z'.val
  · have hletters : ∀ n < 91, 65 ≤ n → (Char.ofNat n).toLower.isAlpha = true := by decide +kernel
    have hlow : 65 ≤ d.toNat := UInt32.le_iff_toNat_le.mp hupper.1
    have hhigh : d.toNat ≤ 90 := UInt32.le_iff_toNat_le.mp hupper.2
    have hletter := hletters d.toNat (by omega) hlow
    rw [Char.ofNat_toNat, halpha] at hletter
    cases hletter
  · rwa [toLower_of_not_upper hupper]

/-- A text with two numbers in an array that the given line opens. -/
def vectorText (first : String) : List Char :=
  joinLines (["a", first, "0.1,", "0.2", "]", "b"].map String.toList)

/-- A bare opening bracket starts a block that is dropped. -/
theorem vector_block_dropped_at_bare :
    sanitizeEditableBody asciiNotes (vectorText "[") = "a\nb".toList ↔
      stripWith isSpace ['['] = ['['] := by
  have hlines : splitlines (vectorText "[") =
      ["a".toList] ++ (['['] :: (["0.1,".toList, "0.2".toList] ++ [']'] :: ["b".toList])) := by
    decide +kernel
  have hdropped := vector_block_dropped_iff lowersLetters_asciiNotes hlines
    (List.forall_mem_singleton.mpr (.inr (by decide +kernel)))
    (List.forall_mem_singleton.mpr (.inr (by decide +kernel)))
    ⟨.inl (by decide), by
      intro l hl
      obtain rfl | hl := List.mem_cons.mp hl
      · exact ⟨"0.1".toList, by decide +kernel, .inr (by decide)⟩
      · obtain rfl := List.mem_singleton.mp hl
        exact ⟨"0.2".toList, by decide +kernel, .inl (by decide)⟩, .inl (by decide)⟩
  have htext : stripWith isSpace (collapseBlankLines (joinLines
      ((["a".toList] ++ ["b".toList]).map blanked))) = "a\nb".toList := by decide +kernel
  rwa [htext] at hdropped

/-- The array `[0.3, 0.1, 0.2]` with its first number on the line of the bracket: all but that
line stays. -/
theorem numbered_bracket_leaks :
    ¬ ∀ (text : List Char) (before inner after : List (List Char)) (first last : List Char),
      splitlines text = before ++ (first :: (inner ++ last :: after)) →
        (∀ l ∈ before, LineKept asciiNotes l) → (∀ l ∈ after, LineKept asciiNotes l) →
          NumericArray asciiNotes first inner last →
            sanitizeEditableBody asciiNotes text =
              stripWith isSpace (collapseBlankLines
                (joinLines ((before ++ after).map blanked))) := by
  intro h
  have hleak := h (vectorText "[0.3,") ["a".toList] ["0.1,".toList, "0.2".toList] ["b".toList]
    "[0.3,".toList [']'] (by decide +kernel)
    (List.forall_mem_singleton.mpr (.inr (by decide +kernel)))
    (List.forall_mem_singleton.mpr (.inr (by decide +kernel)))
    ⟨.inr ⟨"0.3,".toList, ⟨"0.3".toList, by decide +kernel, .inr (by decide)⟩, by decide⟩, by
      intro l hl
      obtain rfl | hl := List.mem_cons.mp hl
      · exact ⟨"0.1".toList, by decide +kernel, .inr (by decide)⟩
      · obtain rfl := List.mem_singleton.mp hl
        exact ⟨"0.2".toList, by decide +kernel, .inl (by decide)⟩, .inl (by decide)⟩
  have htext : sanitizeEditableBody asciiNotes (vectorText "[0.3,") =
      "a\n0.1,\n0.2\n]\nb".toList := by decide +kernel
  rw [htext] at hleak
  exact absurd hleak (by decide +kernel)

end VaultNotes

end MemoryPlane
