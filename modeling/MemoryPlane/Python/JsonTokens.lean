import MemoryPlane.Python.Numbers

/-!
# Tokens of JSON texts

Strings and numbers as the encoder prints them and the decoder reads them. A string may be printed
in ASCII, where a character beyond the basic plane becomes an escaped surrogate pair. A number is
an integer unless it has a fraction or an exponent.
-/

namespace MemoryPlane

namespace Json

/-- White space between the tokens. -/
def isSpace (c : Char) : Bool := c = ' ' || c = '\t' || c = '\n' || c = '\r'

def skipSpace (cs : List Char) : List Char := cs.dropWhile isSpace

/-- `\uXXXX`. -/
def unicodeEscape (n : ℕ) : List Char := '\\' :: 'u' :: hexDigits 4 n

/-- The characters with a short escape, and its letter. -/
def shortEscapes : List (Char × Char) :=
  [('"', '"'), ('\\', '\\'), ('\n', 'n'), ('\r', 'r'), ('\t', 't'), (Char.ofNat 12, 'f'),
    (Char.ofNat 8, 'b')]

/-- The letter of a short escape. -/
def shortEscape (c : Char) : Option Char :=
  (shortEscapes.find? fun e => e.1 = c).map Prod.snd

/-- A character that has no short escape; `ascii` is `ensure_ascii`. -/
def longEscape (ascii : Bool) (c : Char) : List Char :=
  if c.toNat < 32 then unicodeEscape c.toNat
  else if ascii && decide (126 < c.toNat) then
    if c.toNat < 0x10000 then unicodeEscape c.toNat
    else
      -- the surrogate pair of a character beyond the basic plane
      unicodeEscape (0xD800 + (c.toNat - 0x10000) / 1024) ++
        unicodeEscape (0xDC00 + (c.toNat - 0x10000) % 1024)
  else [c]

/-- One character inside a printed string. -/
def escapeChar (ascii : Bool) (c : Char) : List Char :=
  match shortEscape c with
  | some d => ['\\', d]
  | none => longEscape ascii c

/-- A printed string. -/
def printString (ascii : Bool) (s : List Char) : List Char :=
  '"' :: (s.flatMap (escapeChar ascii) ++ ['"'])

/-- Four hexadecimal digits. -/
def scanHex : List Char → Option (ℕ × List Char)
  | a :: b :: c :: d :: rest => do
    let a ← hexValue a
    let b ← hexValue b
    let c ← hexValue c
    let d ← hexValue d
    return (4096 * a + 256 * b + 16 * c + d, rest)
  | _ => none

/-- The second half of a surrogate pair, which must follow the first. -/
def scanLow : List Char → Option (ℕ × List Char)
  | '\\' :: 'u' :: cs => (scanHex cs).filter fun low => 0xDC00 ≤ low.1 && low.1 ≤ 0xDFFF
  | _ => none

/-- The character of a code unit. A surrogate without its partner is no character. -/
def scanCodePoint (n : ℕ) (rest : List Char) : Option (Char × List Char) :=
  if 0xD800 ≤ n ∧ n ≤ 0xDBFF then
    (scanLow rest).map fun (low, rest) =>
      (Char.ofNat (0x10000 + (n - 0xD800) * 1024 + (low - 0xDC00)), rest)
  else if 0xDC00 ≤ n ∧ n ≤ 0xDFFF then none
  else some (Char.ofNat n, rest)

/-- The character that an escape behind its backslash denotes. -/
def scanEscape : List Char → Option (Char × List Char)
  | [] => none
  | d :: cs =>
    if d = '/' then some ('/', cs)
    else if d = 'u' then (scanHex cs).bind fun (n, rest) => scanCodePoint n rest
    else (shortEscapes.find? fun e => e.2 = d).map fun e => (e.1, cs)

/-- One character of a string. -/
def scanChar : List Char → Option (Char × List Char)
  | [] => none
  | c :: cs =>
    if c = '\\' then scanEscape cs else if c.toNat < 32 then none else some (c, cs)

/-- A string behind its opening quote, in at most so many rounds. -/
def scanString : ℕ → List Char → Option (List Char × List Char)
  | 0, _ => none
  | fuel + 1, cs =>
    if cs.head? = some '"' then some ([], cs.tail)
    else do
      let (c, rest) ← scanChar cs
      let (s, rest) ← scanString fuel rest
      return (c :: s, rest)

/-- The parts of a number: its fraction starts with a dot, its exponent with a letter. -/
structure NumberText where
  negative : Bool
  whole : List Char
  fraction : List Char
  exponent : List Char
  deriving DecidableEq

namespace NumberText

def text (n : NumberText) : List Char :=
  (if n.negative then ['-'] else []) ++ (n.whole ++ (n.fraction ++ n.exponent))

/-- A whole part without leading zeros. -/
def IsWhole (ds : List Char) : Prop :=
  ds = ['0'] ∨ ∃ d rest, ds = d :: rest ∧ d ≠ '0' ∧ isDigit d = true ∧ rest.all isDigit = true

def IsFraction (cs : List Char) : Prop :=
  cs = [] ∨ ∃ ds, cs = '.' :: ds ∧ ds ≠ [] ∧ ds.all isDigit = true

def IsExponent (cs : List Char) : Prop :=
  cs = [] ∨ ∃ e sign ds, cs = e :: (sign ++ ds) ∧ (e = 'e' ∨ e = 'E') ∧
    (sign = [] ∨ sign = ['+'] ∨ sign = ['-']) ∧ ds ≠ [] ∧ ds.all isDigit = true

/-- A number of the grammar. -/
structure Wf (n : NumberText) : Prop where
  whole : IsWhole n.whole
  fraction : IsFraction n.fraction
  exponent : IsExponent n.exponent

/-- The number is read as a float. -/
def isReal (n : NumberText) : Bool := n.fraction ≠ [] || n.exponent ≠ []

/-- The value of a number without fraction and exponent. -/
def toInt (n : NumberText) : ℤ :=
  if n.negative then -(digitsValue n.whole : ℤ) else digitsValue n.whole

end NumberText

/-- A run of digits without a leading zero. -/
def scanWhole : List Char → Option (List Char × List Char)
  | [] => none
  | c :: cs =>
    if c = '0' then some (['0'], cs)
    else if isDigit c then some (c :: cs.takeWhile isDigit, cs.dropWhile isDigit)
    else none

/-- A dot with digits behind it. -/
def scanFraction : List Char → List Char × List Char
  | [] => ([], [])
  | c :: cs =>
    if c = '.' ∧ cs.takeWhile isDigit ≠ [] then ('.' :: cs.takeWhile isDigit, cs.dropWhile isDigit)
    else ([], c :: cs)

/-- A sign that stands in front. -/
def takeSign : List Char → List Char
  | [] => []
  | c :: _ => if c = '+' ∨ c = '-' then [c] else []

/-- The letter of an exponent with digits behind it. -/
def scanExponent : List Char → List Char × List Char
  | [] => ([], [])
  | c :: cs =>
    let sign := takeSign cs
    let ds := cs.drop sign.length
    if (c = 'e' ∨ c = 'E') ∧ ds.takeWhile isDigit ≠ [] then
      (c :: (sign ++ ds.takeWhile isDigit), ds.dropWhile isDigit)
    else ([], c :: cs)

namespace NumberText

/-- The power of ten that an exponent stands for. -/
def power (n : NumberText) : ℤ :=
  let cs := n.exponent.tail
  let digits : ℤ := digitsValue (cs.drop (takeSign cs).length)
  if takeSign cs = ['-'] then -digits else digits

/-- The digits behind the point once the exponent is gone; none where this is not positive. -/
def scale (n : NumberText) : ℤ := (n.fraction.tail.length : ℤ) - n.power

/-- All digits as one integer. -/
def significand (n : NumberText) : ℤ :=
  let digits : ℤ := digitsValue (n.whole ++ n.fraction.tail)
  if n.negative then -digits else digits

/-- The integer that a number without digits behind the point stands for. -/
def shifted (n : NumberText) : ℤ := n.significand * 10 ^ (-n.scale).toNat

/-- The decimal number. -/
def value (n : NumberText) : ℚ :=
  if n.scale ≤ 0 then n.shifted else mkRat n.significand (10 ^ n.scale.toNat)

end NumberText

/-- The longest number at the front. -/
def scanNumber (cs : List Char) : Option (NumberText × List Char) :=
  let negative := cs.head? = some '-'
  (scanWhole (if negative then cs.tail else cs)).map fun (whole, rest) =>
    let (fraction, rest) := scanFraction rest
    let (exponent, rest) := scanExponent rest
    (⟨negative, whole, fraction, exponent⟩, rest)

section Strings

variable (ascii : Bool) (c : Char) (rest : List Char)

/-- Four hexadecimal digits are read back as their number. -/
theorem scanHex_hexDigits {n : ℕ} (h : n < 0x10000) :
    scanHex (hexDigits 4 n ++ rest) = some (n, rest) := by
  have hdigits : hexDigits 4 n = [hexDigit (n / 16 / 16 / 16 % 16), hexDigit (n / 16 / 16 % 16),
      hexDigit (n / 16 % 16), hexDigit (n % 16)] := rfl
  have hvalue : ∀ k, hexValue (hexDigit (k % 16)) = some (k % 16) := fun k =>
    hexValue_hexDigit _ (Nat.mod_lt _ (by omega))
  rw [hdigits]
  simp only [List.cons_append, List.nil_append, scanHex, hvalue, Option.bind_eq_bind,
    Option.bind_some, Option.pure_def, Option.some.injEq, Prod.mk.injEq, and_true]
  omega

/-- The code points of characters. -/
theorem toNat_ranges : c.toNat < 0xD800 ∨ 0xDFFF < c.toNat ∧ c.toNat < 0x110000 := by
  obtain h | ⟨hlow, hhigh⟩ := c.valid
  · exact .inl h
  · exact .inr ⟨hlow, hhigh⟩

/-- Behind the letter u an escape goes on with four digits. -/
theorem scanEscape_u (cs : List Char) :
    scanEscape ('u' :: cs) = (scanHex cs).bind fun (n, rest) => scanCodePoint n rest := rfl

/-- An escape that is no half of a surrogate pair. -/
theorem scanEscape_single {n : ℕ} (h : n < 0xD800 ∨ 0xDFFF < n) (hlt : n < 0x10000) :
    scanEscape ('u' :: (hexDigits 4 n ++ rest)) = some (Char.ofNat n, rest) := by
  rw [scanEscape_u, scanHex_hexDigits rest hlt, Option.bind_some]
  exact (if_neg (by omega)).trans (if_neg (by omega))

/-- The second half of a pair is read back from its escape. -/
theorem scanLow_unicodeEscape {n : ℕ} (hlow : 0xDC00 ≤ n) (hhigh : n ≤ 0xDFFF) :
    scanLow (unicodeEscape n ++ rest) = some (n, rest) := by
  simp only [unicodeEscape, List.cons_append, scanLow]
  rw [scanHex_hexDigits rest (by omega), Option.filter_some, if_pos]
  rw [decide_eq_true hlow, decide_eq_true hhigh]
  rfl

/-- The escape of a surrogate pair. -/
theorem scanEscape_pair {m n : ℕ} (hm : 0xD800 ≤ m ∧ m ≤ 0xDBFF) (hlow : 0xDC00 ≤ n)
    (hhigh : n ≤ 0xDFFF) :
    scanEscape ('u' :: (hexDigits 4 m ++ (unicodeEscape n ++ rest))) =
      some (Char.ofNat (0x10000 + (m - 0xD800) * 1024 + (n - 0xDC00)), rest) := by
  rw [scanEscape_u, scanHex_hexDigits _ (show m < 0x10000 by omega), Option.bind_some]
  refine (if_pos hm).trans ?_
  rw [scanLow_unicodeEscape rest hlow hhigh, Option.map_some]

/-- An escaped code is read as an escape. -/
theorem scanChar_unicodeEscape (n : ℕ) :
    scanChar (unicodeEscape n ++ rest) = scanEscape ('u' :: (hexDigits 4 n ++ rest)) := rfl

/-- The code point that a surrogate pair stands for. -/
theorem surrogates_eq {n : ℕ} (h : 0x10000 ≤ n) :
    0x10000 + (0xD800 + (n - 0x10000) / 1024 - 0xD800) * 1024 +
      (0xDC00 + (n - 0x10000) % 1024 - 0xDC00) = n := by
  omega

/-- A short escape is read back as its character. -/
theorem scanEscape_short {c d : Char} (h : shortEscape c = some d) :
    scanEscape (d :: rest) = some (c, rest) := by
  have htable : ∀ e ∈ shortEscapes, scanEscape (e.2 :: rest) = some (e.1, rest) := by
    unfold shortEscapes
    simp only [List.forall_mem_cons, List.not_mem_nil, false_implies, implies_true, and_true]
    exact ⟨rfl, rfl, rfl, rfl, rfl, rfl, rfl⟩
  obtain ⟨e, he, rfl⟩ := Option.map_eq_some_iff.mp h
  rw [htable e (List.mem_of_find?_eq_some he)]
  have hc := List.find?_some he
  rw [decide_eq_true_eq] at hc
  rw [hc]

/-- A quote and a backslash have short escapes. -/
theorem ne_of_shortEscape (h : shortEscape c = none) : c ≠ '"' ∧ c ≠ '\\' := by
  constructor <;> rintro rfl <;> exact absurd h (by decide)

/-- A character without a short escape is read back. -/
theorem scanChar_longEscape (h : c ≠ '\\') :
    scanChar (longEscape ascii c ++ rest) = some (c, rest) := by
  have hranges := toNat_ranges c
  unfold longEscape
  by_cases hcontrol : c.toNat < 32
  · rw [if_pos hcontrol, scanChar_unicodeEscape,
      scanEscape_single rest (.inl (by omega)) (by omega), Char.ofNat_toNat]
  rw [if_neg hcontrol]
  split
  · split
    · rename_i hlt
      rw [scanChar_unicodeEscape, scanEscape_single rest (by omega) hlt, Char.ofNat_toNat]
    · rw [List.append_assoc, scanChar_unicodeEscape,
        scanEscape_pair rest (by omega) (by omega) (by omega), surrogates_eq (by omega),
        Char.ofNat_toNat]
  · rw [List.singleton_append, scanChar, if_neg h, if_neg hcontrol]

/-- Every character is read back from what was printed for it. -/
theorem scanChar_escapeChar : scanChar (escapeChar ascii c ++ rest) = some (c, rest) := by
  unfold escapeChar
  cases hshort : shortEscape c with
  | some d => exact scanEscape_short rest hshort
  | none => exact scanChar_longEscape ascii c rest (ne_of_shortEscape c hshort).2

/-- What is printed for a character does not start with a quote. -/
theorem head_escapeChar : ∃ d cs, escapeChar ascii c = d :: cs ∧ d ≠ '"' := by
  unfold escapeChar
  cases hshort : shortEscape c with
  | some d => exact ⟨_, _, rfl, by decide⟩
  | none =>
    simp only [longEscape]
    split
    · exact ⟨_, _, rfl, by decide⟩
    · split
      · split <;> exact ⟨_, _, rfl, by decide⟩
      · exact ⟨_, _, rfl, (ne_of_shortEscape c hshort).1⟩

/-- Printed strings have no control characters. -/
theorem le_toNat_of_mem_escapeChar {d : Char} (hd : d ∈ escapeChar ascii c) : 32 ≤ d.toNat := by
  have hunicode : ∀ n, d ∈ unicodeEscape n → 32 ≤ d.toNat := by
    intro n hn
    simp only [unicodeEscape, List.mem_cons] at hn
    obtain rfl | rfl | hn := hn
    · decide
    · decide
    · obtain ⟨k, hk, rfl⟩ := mem_hexDigits hn
      have hdigit : ∀ k < 16, 32 ≤ (hexDigit k).toNat := by decide
      exact hdigit k hk
  unfold escapeChar at hd
  cases hshort : shortEscape c with
  | some e =>
    have hletters : ∀ e ∈ shortEscapes, 32 ≤ e.2.toNat := by decide
    obtain ⟨e, he, rfl⟩ := Option.map_eq_some_iff.mp hshort
    simp only [hshort, List.mem_cons, List.not_mem_nil, or_false] at hd
    obtain rfl | rfl := hd
    · decide
    · exact hletters e (List.mem_of_find?_eq_some he)
  | none =>
    simp only [hshort, longEscape] at hd
    split at hd
    · exact hunicode _ hd
    · rename_i hcontrol
      split at hd
      · split at hd
        · exact hunicode _ hd
        · exact (List.mem_append.mp hd).elim (hunicode _) (hunicode _)
      · rw [List.mem_singleton] at hd
        rw [hd]
        omega

/-- A printed string is read back. -/
theorem scanString_printed {fuel : ℕ} {s : List Char} (hfuel : s.length < fuel) :
    scanString fuel (s.flatMap (escapeChar ascii) ++ '"' :: rest) = some (s, rest) := by
  induction s generalizing fuel with
  | nil =>
    cases fuel with
    | zero => exact absurd hfuel (by omega)
    | succ fuel => rfl
  | cons c s ih =>
    cases fuel with
    | zero => exact absurd hfuel (by omega)
    | succ fuel =>
      rw [List.length_cons] at hfuel
      obtain ⟨d, cs, hhead, hd⟩ := head_escapeChar ascii c
      have hquote : (escapeChar ascii c ++ (s.flatMap (escapeChar ascii) ++ '"' :: rest)).head? ≠
          some '"' := by
        rw [hhead, List.cons_append, List.head?_cons, ne_eq, Option.some.injEq]
        exact hd
      rw [List.flatMap_cons, List.append_assoc, scanString, if_neg hquote, scanChar_escapeChar]
      simp only [Option.bind_eq_bind, Option.bind_some]
      rw [ih (by omega)]
      rfl

/-- No string is printed in fewer characters than it has. -/
theorem length_le_flatMap (s : List Char) : s.length ≤ (s.flatMap (escapeChar ascii)).length := by
  induction s with
  | nil => exact Nat.le_refl _
  | cons c s ih =>
    obtain ⟨d, cs, hhead, -⟩ := head_escapeChar ascii c
    rw [List.flatMap_cons, List.length_append, hhead, List.length_cons, List.length_cons]
    omega

end Strings

section Numbers

/-- What follows a number does not go on with it. -/
def EndsNumber (rest : List Char) : Prop :=
  ∀ c ∈ rest.head?, isDigit c = false ∧ c ≠ '.' ∧ c ≠ 'e' ∧ c ≠ 'E'

variable {ds cs rest : List Char}

/-- A run of digits ends in front of the first other character. -/
theorem takeWhile_digits (hds : ds.all isDigit = true)
    (hrest : ∀ c ∈ rest.head?, isDigit c = false) :
    (ds ++ rest).takeWhile isDigit = ds ∧ (ds ++ rest).dropWhile isDigit = rest := by
  have hall : ∀ c ∈ ds, isDigit c = true := List.all_eq_true.mp hds
  rw [List.takeWhile_append_of_pos hall, List.dropWhile_append_of_pos hall]
  cases rest with
  | nil => exact ⟨List.append_nil _, rfl⟩
  | cons c rest =>
    have hc : ¬ isDigit c = true := by
      rw [hrest c rfl]
      exact Bool.false_ne_true
    rw [List.takeWhile_cons_of_neg hc, List.dropWhile_cons_of_neg hc]
    exact ⟨List.append_nil _, rfl⟩

/-- The whole part of a number ends in front of the first other character. -/
theorem scanWhole_append (hds : NumberText.IsWhole ds)
    (hrest : ∀ c ∈ rest.head?, isDigit c = false) : scanWhole (ds ++ rest) = some (ds, rest) := by
  obtain rfl | ⟨d, more, rfl, hzero, hd, hmore⟩ := hds
  · rfl
  · obtain ⟨htake, hdrop⟩ := takeWhile_digits hmore hrest
    rw [List.cons_append, scanWhole, if_neg hzero, if_pos hd, htake, hdrop]

/-- A fraction ends in front of what cannot continue it. -/
theorem scanFraction_append (hcs : NumberText.IsFraction cs)
    (hdigit : ∀ c ∈ rest.head?, isDigit c = false) (hdot : rest.head? ≠ some '.') :
    scanFraction (cs ++ rest) = (cs, rest) := by
  obtain rfl | ⟨ds, rfl, hne, hds⟩ := hcs
  · cases rest with
    | nil => rfl
    | cons c rest =>
      have hc : c ≠ '.' := fun h => hdot (by rw [h]; rfl)
      rw [List.nil_append, scanFraction, if_neg fun h => hc h.1]
  · obtain ⟨htake, hdrop⟩ := takeWhile_digits hds hdigit
    rw [List.cons_append, scanFraction, htake, hdrop, if_pos ⟨rfl, hne⟩]

/-- A digit is no sign. -/
theorem takeSign_digits (hne : ds ≠ []) (hds : ds.all isDigit = true) :
    takeSign (ds ++ rest) = [] := by
  cases ds with
  | nil => exact absurd rfl hne
  | cons d ds =>
    have hd : isDigit d = true := by
      rw [List.all_cons, Bool.and_eq_true] at hds
      exact hds.1
    rw [List.cons_append, takeSign, if_neg]
    rintro (rfl | rfl) <;> exact absurd hd (by decide)

/-- An exponent ends where the number does. -/
theorem scanExponent_append (hcs : NumberText.IsExponent cs) (hrest : EndsNumber rest) :
    scanExponent (cs ++ rest) = (cs, rest) := by
  obtain rfl | ⟨e, sign, ds, rfl, he, hsign, hne, hds⟩ := hcs
  · cases rest with
    | nil => rfl
    | cons c rest =>
      obtain ⟨-, -, hlower, hupper⟩ := hrest c rfl
      rw [List.nil_append, scanExponent]
      simp only [hlower, hupper, or_self, false_and, if_false]
  · obtain ⟨htake, hdrop⟩ := takeWhile_digits hds fun c hc => (hrest c hc).1
    have htakeSign : takeSign (sign ++ (ds ++ rest)) = sign := by
      obtain rfl | rfl | rfl := hsign
      · rw [List.nil_append]
        exact takeSign_digits hne hds
      · rfl
      · rfl
    rw [List.cons_append, List.append_assoc, scanExponent]
    simp only [htakeSign, List.drop_left, htake, hdrop]
    rw [if_pos ⟨he, hne⟩]

/-- The first character of a whole part is a digit. -/
theorem NumberText.IsWhole.head (h : NumberText.IsWhole ds) :
    ∃ d more, ds = d :: more ∧ isDigit d = true := by
  obtain rfl | ⟨d, more, rfl, -, hd, -⟩ := h
  · exact ⟨'0', [], rfl, by decide⟩
  · exact ⟨d, more, rfl, hd⟩

/-- No digit is a control character. -/
theorem le_toNat_of_isDigit {c : Char} (h : isDigit c = true) : 32 ≤ c.toNat := by
  simp only [isDigit, Bool.and_eq_true, decide_eq_true_eq] at h
  omega

/-- Numbers have no control characters. -/
theorem le_toNat_of_mem_text {n : NumberText} (h : n.Wf) {c : Char} (hc : c ∈ n.text) :
    32 ≤ c.toNat := by
  have hdigits : ∀ ds : List Char, ds.all isDigit = true → c ∈ ds → 32 ≤ c.toNat := fun ds hds hc =>
    le_toNat_of_isDigit (List.all_eq_true.mp hds c hc)
  simp only [NumberText.text, List.mem_append] at hc
  obtain hc | hc | hc | hc := hc
  · split at hc
    · rw [List.mem_singleton.mp hc]
      decide
    · cases hc
  · obtain hw | ⟨d, more, hw, -, hd, hmore⟩ := h.whole
    · rw [hw, List.mem_singleton] at hc
      rw [hc]
      decide
    · rw [hw, List.mem_cons] at hc
      obtain rfl | hc := hc
      · exact le_toNat_of_isDigit hd
      · exact hdigits more hmore hc
  · obtain hf | ⟨ds, hf, -, hds⟩ := h.fraction
    · rw [hf] at hc
      cases hc
    · rw [hf, List.mem_cons] at hc
      obtain rfl | hc := hc
      · decide
      · exact hdigits ds hds hc
  · obtain hx | ⟨e, sign, ds, hx, he, hsign, -, hds⟩ := h.exponent
    · rw [hx] at hc
      cases hc
    · rw [hx, List.mem_cons, List.mem_append] at hc
      obtain rfl | hc | hc := hc
      · obtain rfl | rfl := he <;> decide
      · obtain rfl | rfl | rfl := hsign
        · cases hc
        · rw [List.mem_singleton.mp hc]
          decide
        · rw [List.mem_singleton.mp hc]
          decide
      · exact hdigits ds hds hc

/-- A number of the grammar is read back. -/
theorem scanNumber_append {n : NumberText} (h : n.Wf) (hrest : EndsNumber rest) :
    scanNumber (n.text ++ rest) = some (n, rest) := by
  obtain ⟨negative, whole, fraction, exponent⟩ := n
  have hwhole : NumberText.IsWhole whole := h.whole
  have hfraction : NumberText.IsFraction fraction := h.fraction
  have hexponent : NumberText.IsExponent exponent := h.exponent
  have hexp : ∀ c ∈ (exponent ++ rest).head?, isDigit c = false ∧ c ≠ '.' := by
    obtain rfl | ⟨e, sign, ds, rfl, he, -⟩ := hexponent
    · rw [List.nil_append]
      exact fun c hc => ⟨(hrest c hc).1, (hrest c hc).2.1⟩
    · rintro c hc
      cases hc
      obtain rfl | rfl := he <;> decide
  have hfrac : ∀ c ∈ (fraction ++ (exponent ++ rest)).head?, isDigit c = false := by
    obtain rfl | ⟨ds, rfl, -⟩ := hfraction
    · rw [List.nil_append]
      exact fun c hc => (hexp c hc).1
    · rintro c hc
      cases hc
      decide
  have hscanWhole := scanWhole_append hwhole hfrac
  have hscanFraction := scanFraction_append hfraction (fun c hc => (hexp c hc).1)
    fun hc => (hexp _ hc).2 rfl
  have hscanExponent := scanExponent_append hexponent hrest
  cases negative with
  | true =>
    rw [scanNumber]
    simp only [NumberText.text, if_true, List.append_assoc, List.cons_append, List.nil_append,
      List.head?_cons, List.tail_cons, decide_true]
    rw [hscanWhole]
    simp only [Option.map_some, hscanFraction, hscanExponent]
  | false =>
    have hhead : (whole ++ (fraction ++ (exponent ++ rest))).head? ≠ some '-' := by
      obtain ⟨d, more, rfl, hd⟩ := hwhole.head
      rw [List.cons_append, List.head?_cons, ne_eq, Option.some.injEq]
      rintro rfl
      exact absurd hd (by decide)
    rw [scanNumber]
    simp only [NumberText.text, Bool.false_eq_true, if_false, List.nil_append, List.append_assoc,
      hhead, decide_false]
    rw [hscanWhole]
    simp only [Option.map_some, hscanFraction, hscanExponent]

end Numbers

end Json

end MemoryPlane
