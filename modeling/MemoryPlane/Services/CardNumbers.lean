import MemoryPlane.Services.Redaction

/-!
# Card numbers in a text

The pattern of payment cards by what it finds. From the start of a group of digits it reads groups
that are apart by spaces and hyphens only, and ends with the first group that makes at least 13
digits; it finds nothing where that makes more than 19, or where a word character follows. Only the
digits up to there are tested, and the search goes on behind them.
-/

namespace MemoryPlane

/-- What the runtime documents about digits: they are word characters, spaces and hyphens are not,
and a character that agrees with a letter under case folding is no digit. -/
structure Unicode.DigitLaws (u : Unicode) : Prop where
  isAlnum_digit : ∀ c, u.isDigit c = true → u.isAlnum c = true
  isAlnum_space : u.isAlnum ' ' = false
  isAlnum_hyphen : u.isAlnum '-' = false
  sameIgnoringCase_letter : ∀ p c, p.isLower = true → u.sameIgnoringCase p c = true →
    u.isAlnum c = true ∧ u.isDigit c = false

namespace PrivacyGuard

variable (u : Unicode)

/-- The length of a card number at the start of a text, after so many digits. -/
def cardLength (digits : ℕ) : List Char → Option ℕ
  | [] => none
  | c :: cs =>
    if u.isDigit c then
      if digits = 19 then none
      else if 12 ≤ digits && !(cs.head?.any u.isDigit) then
        if cs.head?.any u.isWord then none else some 1
      else (cardLength (digits + 1) cs).map (· + 1)
    else if isSeparator c && 0 < digits then (cardLength digits cs).map (· + 1)
    else none

/-- The end of the card number at a position, which no word character precedes. -/
def cardAt (text : List Char) (i : ℕ) : Option ℕ :=
  if i ≠ 0 && (text[i - 1]?).any u.isWord then none
  else (cardLength u 0 (text.drop i)).map (i + ·)

/-- The card numbers of a text, from left to right. -/
def cardSpans (text : List Char) : List (ℕ × ℕ) :=
  Pattern.scan (cardAt u text) 0 (List.range (text.length + 1))

variable {u} {text : List Char} {i j n : ℕ}

/-- Every digit is a word character. -/
theorem isWord_of_isDigit (hu : u.DigitLaws) {c : Char} (h : u.isDigit c = true) :
    u.isWord c = true := by
  rw [Unicode.isWord, hu.isAlnum_digit c h, Bool.true_or]

/-- Neither separator is a word character. -/
theorem isWord_of_isSeparator (hu : u.DigitLaws) {c : Char} (h : isSeparator c = true) :
    u.isWord c = false := by
  have hcases : c = ' ' ∨ c = '-' := by simpa [isSeparator] using h
  obtain rfl | rfl := hcases
  · simp [Unicode.isWord, hu.isAlnum_space]
  · simp [Unicode.isWord, hu.isAlnum_hyphen]

/-- A digit is no separator. -/
theorem isSeparator_of_isDigit (hu : u.DigitLaws) {c : Char} (h : u.isDigit c = true) :
    isSeparator c = false := by
  rw [Bool.eq_false_iff]
  intro hsep
  have hword := isWord_of_isDigit hu h
  rw [isWord_of_isSeparator hu hsep] at hword
  cases hword

section Search

variable (u text)

/-- The rounds of the pattern. -/
def rounds : ℕ → List ℕ := (cardRound u).ends text

/-- The ends after a digit: before each of the separators that follow, and behind them. -/
def pauses : ℕ → ℕ → List ℕ := Pattern.upTo ((Pattern.char isSeparator).ends text) false

/-- The first end after up to so many more rounds. -/
def searchMore (more i : ℕ) : Option ℕ :=
  (Pattern.upTo (rounds u text) true more i).find? (Pattern.isBoundary u.isWord text)

/-- The first end after so many rounds and up to six more. -/
def searchLeast (least i : ℕ) : Option ℕ :=
  ((Pattern.exactly (rounds u text) least i).flatMap (Pattern.upTo (rounds u text) true 6)).find?
    (Pattern.isBoundary u.isWord text)

variable {u text}

/-- Behind a digit a round may end after each of the separators that follow. -/
theorem rounds_of_isDigit {c : Char} (hc : text[i]? = some c) (hd : u.isDigit c = true) :
    rounds u text i = pauses text text.length (i + 1) := by
  simp [rounds, cardRound, Pattern.ends, hc, hd, pauses, Pattern.exactly]

/-- No round begins at a character other than a digit. -/
theorem rounds_of_not (h : (text[i]?).any u.isDigit = false) : rounds u text i = [] := by
  simp [rounds, cardRound, Pattern.ends, h]

/-- A pause may end at once or behind one more separator. -/
theorem pauses_succ (n i : ℕ) : pauses text (n + 1) i =
    i :: if (text[i]?).any isSeparator then pauses text n (i + 1) else [] := by
  unfold pauses
  rw [Pattern.upTo]
  by_cases h : (text[i]?).any isSeparator = true
  · simp [Pattern.ends, h]
  · simp [Pattern.ends, h]

/-- Every round moves forward, by its digit at least. -/
theorem lt_of_mem_rounds (h : j ∈ rounds u text i) : i < j := by
  have hwidth := Pattern.add_width_le h
  simp only [cardRound, Pattern.width] at hwidth
  omega

/-- Without a further round only a word boundary ends the match. -/
theorem searchMore_zero (i : ℕ) : searchMore u text 0 i =
    if Pattern.isBoundary u.isWord text i then some i else none := by
  unfold searchMore
  rw [Pattern.upTo, List.find?_singleton]

/-- A further round is preferred to ending the match here. -/
theorem searchMore_succ (more i : ℕ) : searchMore u text (more + 1) i =
    ((rounds u text i).findSome? (searchMore u text more)).or
      (if Pattern.isBoundary u.isWord text i then some i else none) := by
  have hfilter : (rounds u text i).filter (fun j => i < j) = rounds u text i := by
    rw [List.filter_eq_self]
    intro j hj
    simpa using lt_of_mem_rounds hj
  unfold searchMore
  rw [Pattern.upTo, hfilter, if_pos rfl, List.find?_append, List.find?_flatMap,
    List.find?_singleton]

/-- Behind the thirteen rounds that must be there, up to six more are tried. -/
theorem searchLeast_zero (i : ℕ) : searchLeast u text 0 i = searchMore u text 6 i := by
  unfold searchLeast searchMore
  rw [Pattern.exactly, List.flatMap_singleton]

/-- A round that must be there is tried with each of its ends, in order. -/
theorem searchLeast_succ (least i : ℕ) : searchLeast u text (least + 1) i =
    (rounds u text i).findSome? (searchLeast u text least) := by
  unfold searchLeast
  rw [Pattern.exactly, List.flatMap_assoc, List.find?_flatMap]

/-- Right behind a digit, a position is a boundary unless a word character follows. -/
theorem isBoundary_behind_digit (hu : u.DigitLaws) {c : Char} (hc : text[i]? = some c)
    (hd : u.isDigit c = true) :
    Pattern.isBoundary u.isWord text (i + 1) = !(text[i + 1]?).any u.isWord := by
  rw [Pattern.isBoundary, Nat.add_sub_cancel, hc, Option.any_some, isWord_of_isDigit hu hd]
  simp

/-- Where the text goes on behind a position. -/
theorem head?_drop_succ (i : ℕ) : (text.drop (i + 1)).head? = text[i + 1]? := List.head?_drop

/-- The text from a position on begins with the character there. -/
theorem drop_eq_cons {c : Char} (hc : text[i]? = some c) :
    text.drop i = c :: text.drop (i + 1) := by
  obtain ⟨hlt, rfl⟩ := List.getElem?_eq_some_iff.mp hc
  exact List.drop_eq_getElem_cons hlt

/-- At a digit there is no separator. -/
theorem not_isSeparator_of_isDigit (hu : u.DigitLaws) (h : (text[i]?).any u.isDigit = true) :
    (text[i]?).any isSeparator = false := by
  cases hc : text[i]? with
  | none => rfl
  | some c =>
    rw [hc] at h
    exact isSeparator_of_isDigit hu h

/-- At a word character there is no separator. -/
theorem not_isSeparator_of_isWord (hu : u.DigitLaws) (h : (text[i]?).any u.isWord = true) :
    (text[i]?).any isSeparator = false := by
  cases hc : text[i]? with
  | none => rfl
  | some c =>
    rw [hc] at h
    rw [Option.any_some, Bool.eq_false_iff]
    intro hsep
    have hword := isWord_of_isSeparator hu hsep
    rw [Option.any_some, hword] at h
    cases h

/-- A position in the rest of a text is one less than in the text. -/
theorem map_shift (x : Option ℕ) : (x.map (· + 1)).map (i + ·) = x.map (i + 1 + ·) := by
  cases x with
  | none => rfl
  | some k => simp [Nat.add_comm, Nat.add_left_comm]

/-- After a digit with at least twelve before it, the search ends behind the group of the digit. -/
theorem findSome?_pauses (hu : u.DigitLaws) {c : Char} (hc : text[i]? = some c)
    (hd : u.isDigit c = true) {search : ℕ → Option ℕ} {digits : ℕ} (hdigits : 12 ≤ digits)
    (hless : digits ≠ 19)
    (hsearch : search (i + 1) = if (text[i + 1]?).any u.isDigit then
        (cardLength u (digits + 1) (text.drop (i + 1))).map (i + 1 + ·)
      else if Pattern.isBoundary u.isWord text (i + 1) then some (i + 1) else none) :
    (rounds u text i).findSome? search = (cardLength u digits (text.drop i)).map (i + ·) := by
  obtain ⟨n, hn⟩ : ∃ n, text.length = n + 1 := by
    have hlt := (List.getElem?_eq_some_iff.mp hc).1
    exact ⟨text.length - 1, by omega⟩
  rw [rounds_of_isDigit hc hd, hn, pauses_succ, drop_eq_cons hc, cardLength, if_pos hd,
    if_neg hless, head?_drop_succ, List.findSome?_cons, hsearch, isBoundary_behind_digit hu hc hd]
  by_cases hnext : (text[i + 1]?).any u.isDigit = true
  · rw [if_pos hnext, not_isSeparator_of_isDigit hu hnext, hnext, Bool.not_true, Bool.and_false,
      if_neg Bool.false_ne_true, if_neg Bool.false_ne_true, map_shift]
    cases (cardLength u (digits + 1) (text.drop (i + 1))).map (i + 1 + ·) with
    | none => rfl
    | some e => rfl
  · rw [if_neg hnext, eq_false_of_ne_true hnext]
    by_cases hword : (text[i + 1]?).any u.isWord = true
    · rw [not_isSeparator_of_isWord hu hword, hword]
      simp [hdigits]
    · simp [hdigits, hword]

/-- Behind a digit with at least twelve before it, the search reads on while digits follow. -/
theorem searchMore_eq (hu : u.DigitLaws) {more digits : ℕ} (hsum : more + digits = 19)
    (hdigits : 13 ≤ digits) {c : Char} (hc : text[i]? = some c) (hd : u.isDigit c = true) :
    searchMore u text more (i + 1) = if (text[i + 1]?).any u.isDigit then
        (cardLength u digits (text.drop (i + 1))).map (i + 1 + ·)
      else if Pattern.isBoundary u.isWord text (i + 1) then some (i + 1) else none := by
  induction more generalizing i c digits with
  | zero =>
    obtain rfl : digits = 19 := by omega
    rw [searchMore_zero]
    cases hnext : text[i + 1]? with
    | none => simp
    | some b =>
      by_cases hb : u.isDigit b = true
      · rw [isBoundary_behind_digit hu hc hd, hnext, drop_eq_cons hnext, cardLength]
        simp [hb, isWord_of_isDigit hu hb]
      · simp [hb]
  | succ more ih =>
    rw [searchMore_succ]
    cases hnext : text[i + 1]? with
    | none =>
      rw [rounds_of_not (by rw [hnext]; rfl)]
      simp
    | some b =>
      by_cases hb : u.isDigit b = true
      · have hsearch := ih (show more + (digits + 1) = 19 by omega) (by omega) hnext hb
        rw [findSome?_pauses hu hnext hb (by omega) (by omega) hsearch,
          isBoundary_behind_digit hu hc hd, hnext]
        simp [hb, isWord_of_isDigit hu hb]
      · rw [rounds_of_not (by rw [hnext]; exact eq_false_of_ne_true hb)]
        simp [hb]

/-- Separators between groups are read over. -/
theorem findSome?_separators {search : ℕ → Option ℕ} {digits : ℕ} (hdigits : 0 < digits)
    (hu : u.DigitLaws) (hread : ∀ j, (text[j]?).any isSeparator = false →
      search j = (cardLength u digits (text.drop j)).map (j + ·))
    (hskip : ∀ j, (text[j]?).any isSeparator = true → search j = none)
    (hlen : text.length ≤ i + n) :
    (pauses text n i).findSome? search = (cardLength u digits (text.drop i)).map (i + ·) := by
  induction n generalizing i with
  | zero =>
    have hnone : text[i]? = none := List.getElem?_eq_none (by omega)
    have hpauses : pauses text 0 i = [i] := rfl
    rw [hpauses, List.findSome?_singleton, hread i (by rw [hnone]; rfl)]
  | succ n ih =>
    rw [pauses_succ, List.findSome?_cons]
    by_cases hsep : (text[i]?).any isSeparator = true
    · rw [hskip i hsep, if_pos hsep, ih (by omega)]
      cases hc : text[i]? with
      | none =>
        rw [hc] at hsep
        cases hsep
      | some c =>
        rw [hc, Option.any_some] at hsep
        have hnodigit : ¬ u.isDigit c = true := fun hd => by
          rw [isSeparator_of_isDigit hu hd] at hsep
          cases hsep
        rw [drop_eq_cons hc, cardLength, if_neg hnodigit, if_pos (by simp [hsep, hdigits]),
          map_shift]
    · rw [if_neg hsep, hread i (eq_false_of_ne_true hsep)]
      cases (cardLength u digits (text.drop i)).map (i + ·) with
      | none => rfl
      | some e => rfl

/-- A search that needs more digits ends where there is none. -/
theorem searchLeast_of_not {least digits : ℕ} (hnosep : (text[i]?).any isSeparator = false)
    (hd : (text[i]?).any u.isDigit = false) :
    searchLeast u text (least + 1) i = (cardLength u digits (text.drop i)).map (i + ·) := by
  rw [searchLeast_succ, rounds_of_not hd, List.findSome?_nil]
  cases hc : text[i]? with
  | none =>
    rw [List.drop_eq_nil_of_le (List.getElem?_eq_none_iff.mp hc), cardLength, Option.map_none]
  | some c =>
    rw [hc, Option.any_some] at hd hnosep
    rw [drop_eq_cons hc, cardLength, hd, hnosep]
    rfl

/-- The search after some digits, at a position without a separator. -/
theorem searchLeast_eq (hu : u.DigitLaws) {least digits : ℕ} (hsum : least + 1 + digits = 13)
    (hnosep : (text[i]?).any isSeparator = false) :
    searchLeast u text (least + 1) i = (cardLength u digits (text.drop i)).map (i + ·) := by
  induction least generalizing i digits with
  | zero =>
    cases hc : text[i]? with
    | none => exact searchLeast_of_not hnosep (by rw [hc]; rfl)
    | some c =>
      by_cases hd : u.isDigit c = true
      · rw [searchLeast_succ]
        refine findSome?_pauses hu hc hd (by omega) (by omega) ?_
        rw [searchLeast_zero]
        exact searchMore_eq hu (by omega) (by omega) hc hd
      · exact searchLeast_of_not hnosep (by rw [hc]; exact eq_false_of_ne_true hd)
  | succ least ih =>
    cases hc : text[i]? with
    | none => exact searchLeast_of_not hnosep (by rw [hc]; rfl)
    | some c =>
      by_cases hd : u.isDigit c = true
      · have hfew : ¬ (12 ≤ digits && !((text.drop (i + 1)).head?.any u.isDigit)) = true := by
          simp only [Bool.and_eq_true, decide_eq_true_eq]
          omega
        rw [searchLeast_succ, rounds_of_isDigit hc hd, drop_eq_cons hc, cardLength, if_pos hd,
          if_neg (by omega), if_neg hfew, map_shift]
        apply findSome?_separators (by omega) hu (fun j hj => ih (by omega) hj) _ (by omega)
        intro j hj
        have hnodigit : (text[j]?).any u.isDigit = false := by
          rw [Bool.eq_false_iff]
          intro hd
          rw [not_isSeparator_of_isDigit hu hd] at hj
          cases hj
        rw [searchLeast_succ, rounds_of_not hnodigit, List.findSome?_nil]
      · exact searchLeast_of_not hnosep (by rw [hc]; exact eq_false_of_ne_true hd)

end Search

/-- A match of the pattern of payment cards is the result of its search. -/
theorem matchAt_eq_searchLeast (text : List Char) (i : ℕ) : (paymentCard u).matchAt text i =
    if Pattern.isBoundary u.isWord text i then searchLeast u text 13 i else none := by
  have hends : ∀ js : List ℕ, (js.flatMap fun j =>
      (if Pattern.isBoundary u.isWord text j then [j] else []).flatMap fun k => [k]) =
        js.filter (Pattern.isBoundary u.isWord text) := by
    intro js
    induction js with
    | nil => rfl
    | cons j js ih =>
      rw [List.flatMap_cons, ih]
      by_cases hj : Pattern.isBoundary u.isWord text j = true
      · rw [if_pos hj, List.filter_cons_of_pos hj]
        rfl
      · rw [if_neg hj, List.filter_cons_of_neg hj]
        rfl
  by_cases hi : Pattern.isBoundary u.isWord text i = true
  · rw [if_pos hi, searchLeast, ← List.head?_filter, ← hends]
    simp [Pattern.matchAt, paymentCard, Pattern.sequence, Pattern.ends, hi, rounds]
  · rw [if_neg hi]
    simp [Pattern.matchAt, paymentCard, Pattern.sequence, Pattern.ends, hi]

/-- The pattern of payment cards finds the card numbers of a text. -/
theorem matchAt_paymentCard (hu : u.DigitLaws) (text : List Char) (i : ℕ) :
    (paymentCard u).matchAt text i = cardAt u text i := by
  have hnone : (text[i]?).any u.isDigit = false →
      searchLeast u text 13 i = none ∧ cardLength u 0 (text.drop i) = none := by
    intro hd
    constructor
    · rw [searchLeast_succ, rounds_of_not hd, List.findSome?_nil]
    · cases hc : text[i]? with
      | none => rw [List.drop_eq_nil_of_le (List.getElem?_eq_none_iff.mp hc), cardLength]
      | some c =>
        rw [hc, Option.any_some] at hd
        rw [drop_eq_cons hc, cardLength, hd]
        simp
  rw [matchAt_eq_searchLeast, cardAt]
  by_cases hd : (text[i]?).any u.isDigit = true
  · have hword : (text[i]?).any u.isWord = true := by
      cases hc : text[i]? with
      | none =>
        rw [hc] at hd
        cases hd
      | some c =>
        rw [hc] at hd
        exact isWord_of_isDigit hu hd
    have hsearch := searchLeast_eq hu (show 12 + 1 + 0 = 13 by rfl)
      (not_isSeparator_of_isDigit hu hd)
    rw [Pattern.isBoundary, hword, hsearch]
    cases (i ≠ 0 && (text[i - 1]?).any u.isWord) <;> rfl
  · obtain ⟨hsearch, hlength⟩ := hnone (eq_false_of_ne_true hd)
    rw [hsearch, hlength, Option.map_none, ite_self, ite_self]

/-- The search written for cards finds what the pattern matches. -/
theorem finditer_paymentCard (hu : u.DigitLaws) (text : List Char) :
    (paymentCard u).finditer text = cardSpans u text := by
  have hfound : (paymentCard u).matchAt text = cardAt u text :=
    funext (matchAt_paymentCard hu text)
  rw [Pattern.finditer, cardSpans, hfound]

end PrivacyGuard

end MemoryPlane
