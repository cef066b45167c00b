import MemoryPlane.Python.Numbers
import MemoryPlane.Services.CardNumbers

/-!
# Redaction of a card number

All digits of a card number between other text are redacted exactly when they are read from match
to match, from where the matches before it leave off. Matches that start in a card number are social
security numbers and the card numbers that the search reads there, which need not be the number that
stands there.
-/

namespace MemoryPlane

namespace PrivacyGuard

/-- A card number as people write it: digits with single separators between them. -/
structure CardText (u : Unicode) (card : List Char) : Prop where
  luhn : luhnValid u card = true
  chars : ∀ x ∈ card, u.isDigit x = true ∨ isSeparator x = true
  single : ∀ i, (card[i]?).any isSeparator = true → (card[i + 1]?).any u.isDigit = true
  first : card.head?.any u.isDigit = true

variable {u : Unicode} {text p card q : List Char} {i j n : ℕ}

theorem any_of_mem_ends_ignoringCase {word : String}
    (h : j ∈ (literalIgnoringCase u word).ends text i) {x : Char}
    (hx : word.toList[n]? = some x) : (text[i + n]?).any (u.sameIgnoringCase x) = true := by
  have hclasses : literalIgnoringCase u word =
      .sequence ((word.toList.map u.sameIgnoringCase).map .char) := by
    rw [literalIgnoringCase, List.map_map]
    rfl
  rw [hclasses] at h
  exact Pattern.any_of_mem_ends h (by rw [List.getElem?_map, hx]; rfl)

/-- The character at a position of the card number is one of its characters. -/
theorem getElem?_card (hi : p.length ≤ i) (hic : i < p.length + card.length) :
    (p ++ (card ++ q))[i]? = card[i - p.length]? := by
  rw [List.getElem?_append_right hi, List.getElem?_append_left (by omega)]

/-- A text whose first character is a letter does not start in a card number. -/
theorem CardText.no_letter (hu : u.DigitLaws) (hc : CardText u card) {x : Char}
    (hx : x.isLower = true) (hi : p.length ≤ i) (hic : i < p.length + card.length) :
    ((p ++ (card ++ q))[i]?).any (u.sameIgnoringCase x) = false := by
  rw [Bool.eq_false_iff]
  intro hany
  rw [getElem?_card hi hic] at hany
  cases hy : card[i - p.length]? with
  | none =>
    rw [hy] at hany
    cases hany
  | some y =>
    rw [hy, Option.any_some] at hany
    obtain ⟨halnum, hdigit⟩ := hu.sameIgnoringCase_letter x y hx hany
    obtain hd | hs := hc.chars y (List.mem_of_getElem? hy)
    · rw [hdigit] at hd
      cases hd
    · have hword := isWord_of_isSeparator hu hs
      rw [Unicode.isWord, halnum, Bool.true_or] at hword
      cases hword

/-- Neither does one whose first character is neither a digit nor a separator. -/
theorem CardText.no_char (hc : CardText u card) {x : Char} (hx : u.isDigit x = false)
    (hs : isSeparator x = false) (hi : p.length ≤ i) (hic : i < p.length + card.length) :
    (p ++ (card ++ q))[i]? ≠ some x := by
  intro hy
  rw [getElem?_card hi hic] at hy
  obtain hd | hsep := hc.chars x (List.mem_of_getElem? hy)
  · rw [hx] at hd
    cases hd
  · rw [hs] at hsep
    cases hsep

/-- No two separators stand next to each other in a card number. -/
theorem CardText.no_separators (hu : u.DigitLaws) (hc : CardText u card) (hi : p.length ≤ i)
    (hic : i < p.length + card.length) (h : (p ++ (card ++ q))[i]? = some '-') :
    (p ++ (card ++ q))[i + 1]? ≠ some '-' := by
  rw [getElem?_card hi hic] at h
  have hnext := hc.single (i - p.length) (by rw [h]; rfl)
  intro hsep
  have hlt : i - p.length + 1 < card.length := by
    by_contra hge
    rw [List.getElem?_eq_none (by omega)] at hnext
    cases hnext
  rw [getElem?_card (by omega) (by omega),
    show i + 1 - p.length = i - p.length + 1 by omega] at hsep
  rw [hsep, Option.any_some] at hnext
  have hdigit := isSeparator_of_isDigit hu hnext
  cases hdigit

/-- A match that starts in a card number is a social security number or one that the search for
card numbers finds there. -/
theorem CardText.starts (hu : u.DigitLaws) (hc : CardText u card) {f : PrivacyFinding}
    (hf : f ∈ (standardGuard u).hits (p ++ (card ++ q))) (hi : p.length ≤ f.start)
    (hic : f.start < p.length + card.length) :
    (f.start, f.stop) ∈ (ssn u).finditer (p ++ (card ++ q)) ∨
      (f.start, f.stop) ∈ cardSpans u (p ++ (card ++ q)) ∧
        luhnValid u (slice (p ++ (card ++ q)) f.start f.stop) = true := by
  obtain ⟨d, hd, hf⟩ := List.mem_flatMap.mp hf
  obtain ⟨⟨start, stop⟩, hm, rfl⟩ := List.mem_map.mp hf
  obtain ⟨hm, hvalid⟩ := List.mem_filter.mp hm
  dsimp only at hi hic hvalid ⊢
  simp only [standardGuard, standardDetectors, List.mem_cons, List.not_mem_nil, or_false] at hd
  obtain rfl | rfl | rfl | rfl | rfl | rfl | rfl | rfl := hd
  · -- private_key
    have hends := Pattern.mem_ends_of_mem_finditer hm
    obtain ⟨k, hk, -⟩ := Pattern.mem_ends_sequence_cons.mp hends
    have hfirst := Pattern.getElem?_of_mem_ends_literal hk (n := 0) (c := '-') (by decide)
    have hsecond := Pattern.getElem?_of_mem_ends_literal hk (n := 1) (c := '-') (by decide)
    exact absurd hsecond (hc.no_separators hu hi hic hfirst)
  · -- openai_api_key
    have hends := Pattern.mem_ends_of_boundary (Pattern.mem_ends_of_mem_finditer hm)
    obtain ⟨k, hk, -⟩ := Pattern.mem_ends_sequence_cons.mp hends
    have hfirst := Pattern.getElem?_of_mem_ends_literal hk (n := 0) (c := 's') (by decide)
    exact absurd hfirst (hc.no_char rfl rfl hi hic)
  · -- aws_access_key
    have hends := Pattern.mem_ends_of_boundary (Pattern.mem_ends_of_mem_finditer hm)
    obtain ⟨k, hk, -⟩ := Pattern.mem_ends_sequence_cons.mp hends
    have hfirst := Pattern.getElem?_of_mem_ends_literal hk (n := 0) (c := 'A') (by decide)
    exact absurd hfirst (hc.no_char rfl rfl hi hic)
  · -- bearer_token
    have hends := Pattern.mem_ends_of_boundary (Pattern.mem_ends_of_mem_finditer hm)
    obtain ⟨k, hk, -⟩ := Pattern.mem_ends_sequence_cons.mp hends
    have hfirst := any_of_mem_ends_ignoringCase hk (n := 0) (x := 'b') (by decide)
    rw [Nat.add_zero, hc.no_letter hu (by decide) hi hic] at hfirst
    cases hfirst
  · -- password_assignment
    have hends := Pattern.mem_ends_of_boundary (Pattern.mem_ends_of_mem_finditer hm)
    obtain ⟨k, hk, -⟩ := Pattern.mem_ends_sequence_cons.mp hends
    have hfirst := any_of_mem_ends_ignoringCase hk (n := 0) (x := 'p') (by decide)
    rw [Nat.add_zero, hc.no_letter hu (by decide) hi hic] at hfirst
    cases hfirst
  · -- api_key_assignment
    have hends := Pattern.mem_ends_of_boundary (Pattern.mem_ends_of_mem_finditer hm)
    obtain ⟨k, hk, -⟩ := Pattern.mem_ends_sequence_cons.mp hends
    obtain hk | hk := List.mem_append.mp hk
    · obtain ⟨k', hk, -⟩ := Pattern.mem_ends_sequence_cons.mp hk
      have hfirst := any_of_mem_ends_ignoringCase hk (n := 0) (x := 'a') (by decide)
      rw [Nat.add_zero, hc.no_letter hu (by decide) hi hic] at hfirst
      cases hfirst
    · have hfirst := any_of_mem_ends_ignoringCase hk (n := 0) (x := 't') (by decide)
      rw [Nat.add_zero, hc.no_letter hu (by decide) hi hic] at hfirst
      cases hfirst
  · -- ssn
    exact .inl hm
  · -- payment_card
    have hcard : (start, stop) ∈ (paymentCard u).finditer (p ++ (card ++ q)) := hm
    rw [finditer_paymentCard hu] at hcard
    exact .inr ⟨hcard, hvalid⟩

/-- The social security numbers and the valid card numbers that the search finds. -/
def numberSpans (u : Unicode) (text : List Char) : List (ℕ × ℕ) :=
  (ssn u).finditer text ++ (cardSpans u text).filter fun m => luhnValid u (slice text m.1 m.2)

/-- A digit stands at a position. -/
def IsDigitAt (u : Unicode) (text : List Char) (i : ℕ) : Prop := (text[i]?).any u.isDigit = true

instance (u : Unicode) (text : List Char) (i : ℕ) : Decidable (IsDigitAt u text i) :=
  inferInstanceAs (Decidable (_ = true))

/-- The position itself, or the end of the last match that is kept of those that start before it,
where that lies behind it. -/
def entryAt (u : Unicode) (text : List Char) (i : ℕ) : ℕ :=
  Spans.entry PrivacyFinding.start PrivacyFinding.stop
    (sortedBy findingKey ((standardGuard u).hits text)) i

/-- The digits from a position on, up to a bound, are read from one number to the next: the first of
them starts a social security number or a valid card number, and reading goes on behind the longer
one of those that start there. -/
def ReadFrom (u : Unicode) (text : List Char) (start stop : ℕ) : Prop :=
  Spans.ReadThrough Prod.fst Prod.snd (numberSpans u text) (IsDigitAt u text) stop start

/-- No digit of a stretch of the text is left. -/
def DigitsHidden (u : Unicode) (text : List Char) (start stop : ℕ) : Prop :=
  ∀ i, start ≤ i → i < stop → IsDigitAt u text i →
    Hidden ((standardGuard u).scan (String.ofList text)) i

theorem mem_hits {d : Detector} (hd : d ∈ standardDetectors u) {m : ℕ × ℕ}
    (hm : m ∈ d.finditer text) (hvalid : d.validator (slice text m.1 m.2) = true) :
    ⟨d.kind, m.1, m.2⟩ ∈ (standardGuard u).hits text :=
  List.mem_flatMap.mpr ⟨d, hd, List.mem_map.mpr ⟨m, List.mem_filter.mpr ⟨hm, hvalid⟩, rfl⟩⟩

/-- The matches that start in a card number are these. -/
theorem CardText.hits_iff (hu : u.DigitLaws) (hc : CardText u card) (hi : p.length ≤ i)
    (hic : i < p.length + card.length) :
    (∃ f ∈ (standardGuard u).hits (p ++ (card ++ q)), f.start = i ∧ f.stop = j) ↔
      ∃ m ∈ numberSpans u (p ++ (card ++ q)), m.1 = i ∧ m.2 = j := by
  constructor
  · rintro ⟨f, hf, rfl, rfl⟩
    refine ⟨(f.start, f.stop), List.mem_append.mpr ?_, rfl, rfl⟩
    obtain hssn | ⟨hcard, hvalid⟩ := hc.starts hu hf hi hic
    · exact .inl hssn
    · exact .inr (List.mem_filter.mpr ⟨hcard, hvalid⟩)
  · rintro ⟨m, hm, rfl, rfl⟩
    obtain hm | hm := List.mem_append.mp hm
    · exact ⟨_, mem_hits (d := ⟨"ssn", (ssn u).finditer, fun _ => true⟩)
        (by simp [standardDetectors]) hm rfl, rfl, rfl⟩
    · obtain ⟨hm, hvalid⟩ := List.mem_filter.mp hm
      rw [← finditer_paymentCard hu] at hm
      exact ⟨_, mem_hits (d := ⟨"payment_card", (paymentCard u).finditer, luhnValid u⟩)
        (by simp [standardDetectors]) hm hvalid, rfl, rfl⟩

/-- A card number that the search finds starts with a digit. -/
theorem isDigitAt_of_cardAt {e : ℕ} (h : cardAt u text i = some e) : IsDigitAt u text i := by
  unfold cardAt at h
  split at h
  · cases h
  · obtain ⟨k, hk, -⟩ := Option.map_eq_some_iff.mp h
    unfold IsDigitAt
    rw [← List.head?_drop]
    cases htext : text.drop i with
    | nil =>
      rw [htext] at hk
      cases hk
    | cons c cs =>
      rw [htext, cardLength] at hk
      by_cases hd : u.isDigit c = true
      · exact hd
      · rw [if_neg hd, decide_eq_false (Nat.lt_irrefl 0), Bool.and_false,
          if_neg Bool.false_ne_true] at hk
        cases hk

/-- Both kinds of numbers start with a digit. -/
theorem isDigitAt_of_mem_numberSpans {m : ℕ × ℕ} (hm : m ∈ numberSpans u text) :
    IsDigitAt u text m.1 := by
  obtain hm | hm := List.mem_append.mp hm
  · have hends := Pattern.mem_ends_of_boundary (Pattern.mem_ends_of_mem_finditer hm)
    obtain ⟨k, hk, -⟩ := Pattern.mem_ends_sequence_cons.mp hends
    exact Pattern.any_of_mem_ends_times hk
  · exact isDigitAt_of_cardAt (Pattern.mem_scan (List.mem_filter.mp hm).1).2

theorem proper_numberSpans (hu : u.DigitLaws) : ∀ m ∈ numberSpans u text, m.1 < m.2 := by
  intro m hm
  obtain hm | hm := List.mem_append.mp hm
  · exact (width_standardDetectors (u := u) (d := ⟨"ssn", (ssn u).finditer, fun _ => true⟩)
      (by simp [standardDetectors]) text m hm).1
  · have hcard := (List.mem_filter.mp hm).1
    rw [← finditer_paymentCard hu] at hcard
    exact (width_standardDetectors (u := u)
      (d := ⟨"payment_card", (paymentCard u).finditer, luhnValid u⟩)
      (by simp [standardDetectors]) text m hcard).1

/-- The guard replaces exactly the findings that it selects, and these hide all digits of a card
number exactly when the digits are read from number to number, from where the matches before it
leave off. -/
theorem card_hidden_iff (u : Unicode) (hu : u.DigitLaws) (p card q : List Char)
    (hc : CardText u card) :
    ((standardGuard u).apply (String.ofList (p ++ (card ++ q)))).map PrivacyDecision.text =
        .ok (String.ofList (splice (p ++ (card ++ q)) 0
          ((standardGuard u).scan (String.ofList (p ++ (card ++ q)))))) ∧
      (DigitsHidden u (p ++ (card ++ q)) p.length (p.length + card.length) ↔
        ReadFrom u (p ++ (card ++ q)) (entryAt u (p ++ (card ++ q)) p.length)
          (p.length + card.length)) := by
  constructor
  · have happly := apply_standardGuard u (String.ofList (p ++ (card ++ q)))
    rwa [String.toList_ofList] at happly
  · have hranked := ranked_sortedBy ((standardGuard u).hits (p ++ (card ++ q)))
    have hproper : ∀ f ∈ sortedBy findingKey ((standardGuard u).hits (p ++ (card ++ q))),
        f.start < f.stop := fun f hf => (proper_hits f hf).1
    have hsame : ∀ i j, p.length ≤ i → i < p.length + card.length →
        ((∃ f ∈ sortedBy findingKey ((standardGuard u).hits (p ++ (card ++ q))),
          f.start = i ∧ f.stop = j) ↔
          ∃ m ∈ numberSpans u (p ++ (card ++ q)), m.1 = i ∧ m.2 = j) := by
      intro i j hi hic
      rw [← hc.hits_iff hu hi hic]
      simp only [mem_sortedBy]
    have hmarked : ∀ f ∈ sortedBy findingKey ((standardGuard u).hits (p ++ (card ++ q))),
        p.length ≤ f.start → f.start < p.length + card.length →
          IsDigitAt u (p ++ (card ++ q)) f.start := by
      intro f hf hi hic
      obtain ⟨m, hm, hstart, -⟩ := (hsame f.start f.stop hi hic).mp ⟨f, hf, rfl, rfl⟩
      exact hstart ▸ isDigitAt_of_mem_numberSpans hm
    have hreached := Spans.marks_reached_iff hranked hproper hmarked
    have hscan := scan_eq (u := u) (String.ofList (p ++ (card ++ q)))
    rw [String.toList_ofList] at hscan
    unfold DigitsHidden Hidden
    rw [hscan]
    refine hreached.trans ⟨fun h => h.congr hproper hsame (Spans.le_entry _ _), fun h => ?_⟩
    have hback := fun i j hi hic => (hsame i j hi hic).symm
    exact h.congr (proper_numberSpans hu) hback (Spans.le_entry _ _)

/-- Digits alone are a card number when they pass the checksum. -/
theorem cardText_of_digits (hu : u.DigitLaws) (hluhn : luhnValid u card = true)
    (hdigits : ∀ x ∈ card, u.isDigit x = true) (hne : card ≠ []) : CardText u card := by
  refine ⟨hluhn, fun x hx => .inl (hdigits x hx), fun i hi => ?_, ?_⟩
  · cases hx : card[i]? with
    | none =>
      rw [hx] at hi
      cases hi
    | some x =>
      rw [hx, Option.any_some] at hi
      rw [isSeparator_of_isDigit hu (hdigits x (List.mem_of_getElem? hx))] at hi
      cases hi
  · rw [List.head?_eq_some_head hne]
    exact hdigits _ (List.head_mem hne)

theorem digitLaws_asciiUnicode : asciiUnicode.DigitLaws := by
  have hdigit : ∀ c, asciiUnicode.isDigit c = true → c.isDigit = true := by
    intro c h
    by_contra hno
    rw [Unicode.isDigit, Unicode.digit, if_neg hno] at h
    split at h <;> cases h
  refine ⟨fun c h => ?_, by decide, by decide, fun p c hp h => ?_⟩
  · have hc := hdigit c h
    change c.isAlphanum = true
    simp [Char.isAlphanum, hc]
  · have halpha : c.isUpper = true ∨ c.isLower = true := by
      by_cases hup : c.val ≥ 'A'.val ∧ c.val ≤ 'Z'.val
      · exact .inl (decide_eq_true hup)
      · have hlower : p = c.toLower := beq_iff_eq.mp h
        rw [toLower_of_not_upper hup] at hlower
        exact .inr (hlower ▸ hp)
    refine ⟨?_, ?_⟩
    · change (c.isUpper || c.isLower || c.isDigit) = true
      obtain h | h := halpha <;> simp [h]
    · rw [Bool.eq_false_iff]
      intro hd
      have hc := bounds_of_isDigit (hdigit c hd)
      obtain h | h := halpha
      · have hup := bounds_of_isUpper h
        omega
      · have hlow := bounds_of_isLower h
        omega

/-- Sixteen digits that pass the checksum. -/
def cardNumber : List Char := "4111111111111111".toList

theorem cardText_cardNumber : CardText asciiUnicode cardNumber := by
  apply cardText_of_digits digitLaws_asciiUnicode (by decide +kernel) _ (by decide +kernel)
  have hall : cardNumber.all asciiUnicode.isDigit = true := by decide +kernel
  exact List.all_eq_true.mp hall

/-- A card number between words is hidden. -/
theorem card_hidden_between_words :
    DigitsHidden asciiUnicode ("pay ".toList ++ (cardNumber ++ " now".toList)) 4 20 := by
  have hspans : numberSpans asciiUnicode ("pay ".toList ++ (cardNumber ++ " now".toList)) =
      [(4, 20)] := by decide +kernel
  have hentry : entryAt asciiUnicode ("pay ".toList ++ (cardNumber ++ " now".toList)) 4 = 4 := by
    decide +kernel
  have hiff := (card_hidden_iff asciiUnicode digitLaws_asciiUnicode "pay ".toList cardNumber
    " now".toList cardText_cardNumber).2
  have hstart : "pay ".toList.length = 4 := by decide +kernel
  have hstop : 4 + cardNumber.length = 20 := by decide +kernel
  rw [hstart, hstop, hentry] at hiff
  refine hiff.mpr ?_
  unfold ReadFrom
  rw [hspans]
  refine .next (List.mem_singleton_self _) (fun y hy _ => ?_) (Nat.le_refl _) (by omega)
    (fun i h h' => absurd h' (by omega)) (.done fun i h h' => absurd h' (by omega))
  rw [List.mem_singleton.mp hy]

/-- A digit and a space before it, and the number stays in the text. -/
theorem card_behind_digit : CardText asciiUnicode cardNumber ∧
    ¬ DigitsHidden asciiUnicode ("1 ".toList ++ (cardNumber ++ [])) 2 18 := by
  refine ⟨cardText_cardNumber, fun hall => ?_⟩
  have hscan : (standardGuard asciiUnicode).scan
      (String.ofList ("1 ".toList ++ (cardNumber ++ []))) = [] := by decide +kernel
  obtain ⟨f, hf, -⟩ := hall 2 (by omega) (by omega) (by decide +kernel)
  rw [hscan] at hf
  cases hf

end PrivacyGuard

end MemoryPlane
