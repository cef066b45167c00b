import MemoryPlane.Python.Float
import MemoryPlane.Python.Lines
import MemoryPlane.Python.UUID

/-!
# Reading numbers

`int(s)` and `float(s)` of a text. Both skip white space around the number and allow single
underscores between digits; digits may be those of any script.
-/

namespace MemoryPlane

/-- A float: a finite one is given by its exact value. -/
inductive PyFloat where
  | finite (q : ℚ)
  | infinite (negative : Bool)
  | nan
  deriving DecidableEq

/-- An ASCII decimal digit. -/
def isDigit (c : Char) : Bool := 48 ≤ c.toNat && c.toNat ≤ 57

/-- The value of an ASCII decimal digit. -/
def digitValue (c : Char) : ℕ := c.toNat - 48

/-- The number that a run of digits denotes. -/
def digitsValue (ds : List Char) : ℕ := ds.foldl (fun acc c => 10 * acc + digitValue c) 0

/-- Remove the underscores, each of which must stand between two digits. -/
def dropUnderscores (afterDigit : Bool) : List Char → Option (List Char)
  | [] => some []
  | '_' :: cs =>
    if afterDigit && (cs.head?.map isDigit).getD false then dropUnderscores false cs else none
  | c :: cs => (dropUnderscores (isDigit c) cs).map fun ds => c :: ds

/-- What a number parser sees of a text. -/
def numberText (u : Unicode) (s : List Char) : Option (List Char) :=
  dropUnderscores false (Text.stripWith isAsciiSpace (s.map (toAsciiDigit u)))

/-- An optional sign, and what follows it. -/
def dropSign : List Char → Bool × List Char
  | '+' :: cs => (false, cs)
  | '-' :: cs => (true, cs)
  | cs => (false, cs)

/-- The integer that a text denotes: `none` where it is malformed. -/
def readInt (u : Unicode) (s : List Char) : Option ℤ :=
  (numberText u s).bind fun cs =>
    let (negative, ds) := dropSign cs
    if ds ≠ [] ∧ ds.all isDigit then
      some (if negative then -digitsValue ds else digitsValue ds)
    else none

/-- The interpreter reads integers of up to so many digits. -/
def maxStrDigits : ℕ := 4300

/-- A text has more digits than `int` reads. -/
def tooManyDigits (u : Unicode) (s : List Char) : Bool :=
  maxStrDigits < (s.map (toAsciiDigit u)).countP isDigit

/-- An integer has more digits than the interpreter prints. -/
def isTooLong (n : ℤ) : Bool := maxStrDigits < (Nat.toDigits 10 n.natAbs).length

/-- `int(s)`: `none` where it raises. -/
def parseInt (u : Unicode) (s : List Char) : Option ℤ :=
  bif tooManyDigits u s then none else readInt u s

theorem parseInt_of_few {u : Unicode} {s : List Char} (h : tooManyDigits u s = false) :
    parseInt u s = readInt u s := by
  rw [parseInt, h, cond_false]

/-- The exponent of a float literal: `none` where it is malformed. -/
def readExponent : List Char → Option ℤ
  | [] => some 0
  | e :: cs =>
    let (negative, ds) := dropSign cs
    if (e = 'e' ∨ e = 'E') ∧ ds ≠ [] ∧ ds.all isDigit then
      some (if negative then -digitsValue ds else digitsValue ds)
    else none

/-- The value of a decimal literal without sign. -/
def readDecimal (cs : List Char) : Option ℚ :=
  let whole := cs.takeWhile isDigit
  let rest := cs.dropWhile isDigit
  let (fraction, tail) := match rest with
    | '.' :: ds => (ds.takeWhile isDigit, ds.dropWhile isDigit)
    | ds => ([], ds)
  if whole = [] ∧ fraction = [] then none
  else
    (readExponent tail).map fun e =>
      let scale : ℤ := e - (fraction.length : ℤ)
      let significand : ℚ := digitsValue (whole ++ fraction)
      if 0 ≤ scale then significand * 10 ^ scale.toNat else significand / 10 ^ (-scale).toNat

/-- `float(s)`, rounded by the given function: `none` where it raises. -/
def readFloat (u : Unicode) (round : ℚ → ℚ) (s : List Char) : Option PyFloat :=
  (numberText u s).bind fun cs =>
    let (negative, ds) := dropSign cs
    let word := ds.map Char.toLower
    if word = "inf".toList ∨ word = "infinity".toList then some (.infinite negative)
    else if word = "nan".toList then some .nan
    else (readDecimal ds).map fun q => .finite (round (if negative then -q else q))

section Printed

/-- The code of a printed digit. -/
theorem bounds_of_isDigit {c : Char} (h : c.isDigit = true) : 48 ≤ c.toNat ∧ c.toNat ≤ 57 := by
  simp only [Char.isDigit, Bool.and_eq_true, decide_eq_true_eq, ge_iff_le,
    UInt32.le_iff_toNat_le] at h
  exact h

/-- The code of a letter in upper case. -/
theorem bounds_of_isUpper {c : Char} (h : c.isUpper = true) : 65 ≤ c.toNat ∧ c.toNat ≤ 90 := by
  have hval : c.val ≥ 'A'.val ∧ c.val ≤ 'Z'.val := of_decide_eq_true h
  exact ⟨UInt32.le_iff_toNat_le.mp hval.1, UInt32.le_iff_toNat_le.mp hval.2⟩

/-- The code of a letter in lower case. -/
theorem bounds_of_isLower {c : Char} (h : c.isLower = true) : 97 ≤ c.toNat ∧ c.toNat ≤ 122 := by
  obtain ⟨hlow, hhigh⟩ := Bool.and_eq_true_iff.mp h
  exact ⟨UInt32.le_iff_toNat_le.mp (of_decide_eq_true hlow),
    UInt32.le_iff_toNat_le.mp (of_decide_eq_true hhigh)⟩

/-- The characters of a printed number. -/
theorem mem_toString {n : ℤ} {c : Char} (hc : c ∈ (toString n).toList) :
    c.isDigit = true ∨ c = '-' := by
  have hdigits : ∀ m : ℕ, c ∈ m.repr.toList → c.isDigit = true := by
    intro m hm
    rw [Nat.toList_repr] at hm
    exact Nat.isDigit_of_mem_toDigits (by decide) (by decide) hm
  rw [Int.toString_eq_repr] at hc
  cases n with
  | ofNat m => exact .inl (hdigits m hc)
  | negSucc m =>
    simp only [Int.repr, String.toList_append, List.mem_append] at hc
    obtain hc | hc := hc
    · exact .inr (by simpa using hc)
    · exact .inl (hdigits _ hc)

theorem dropUnderscores_of_not_mem {s : List Char} (h : '_' ∉ s) (afterDigit : Bool) :
    dropUnderscores afterDigit s = some s := by
  induction s generalizing afterDigit with
  | nil => rfl
  | cons c s ih =>
    have hc : c ≠ '_' := fun hc => h (by rw [hc]; exact List.mem_cons_self ..)
    rw [dropUnderscores, ih fun hs => h (List.mem_cons_of_mem _ hs)]
    · rfl
    · exact hc

/-- A number parser sees printed digits and signs as they are. -/
theorem numberText_of_printed {u : Unicode} {s : List Char}
    (h : ∀ c ∈ s, c.isDigit = true ∨ c = '-') : numberText u s = some s := by
  have hcode : ∀ c ∈ s, 45 ≤ c.toNat ∧ c.toNat ≤ 57 := by
    intro c hc
    obtain hdigit | rfl := h c hc
    · have := bounds_of_isDigit hdigit
      omega
    · decide
  have hmap : s.map (toAsciiDigit u) = s := by
    conv_rhs => rw [← List.map_id s]
    apply List.map_congr_left
    intro c hc
    have := hcode c hc
    rw [toAsciiDigit, if_pos (by omega)]
    rfl
  have hstrip : Text.stripWith isAsciiSpace s = s := by
    apply Text.stripWith_of_all_not
    intro c hc
    have := hcode c hc
    simp only [isAsciiSpace, Bool.or_eq_false_iff, Bool.and_eq_false_iff, decide_eq_false_iff_not,
      beq_eq_false_iff_ne]
    omega
  rw [numberText, hmap, hstrip, dropUnderscores_of_not_mem]
  intro hmem
  obtain hdigit | heq := h _ hmem
  · exact absurd hdigit (by decide)
  · exact absurd heq (by decide)

theorem toList_toString_natCast (n : ℕ) : (toString (n : ℤ)).toList = Nat.toDigits 10 n := by
  rw [Int.toString_eq_repr]
  exact Nat.toList_repr

section Decimals

variable (n : ℕ)

theorem isDigit_toDigits : ∀ c ∈ Nat.toDigits 10 n, c.isDigit = true :=
  fun _ hc => Nat.isDigit_of_mem_toDigits (by decide) (by decide) hc

theorem all_isDigit_toDigits : (Nat.toDigits 10 n).all isDigit = true := by
  rw [List.all_eq_true]
  intro c hc
  have := bounds_of_isDigit (isDigit_toDigits n c hc)
  simp [isDigit, this]

theorem digitsValue_toDigits : digitsValue (Nat.toDigits 10 n) = n := by
  have h := Nat.ofDigitChars_ten_toDigits (n := n)
  rwa [Nat.ofDigitChars_eq_foldl] at h

end Decimals

/-- A printed number is read back. -/
theorem readInt_toString (u : Unicode) (n : ℕ) :
    readInt u (toString (n : ℤ)).toList = some (n : ℤ) := by
  have hdigits := isDigit_toDigits n
  have hsign : dropSign (Nat.toDigits 10 n) = (false, Nat.toDigits 10 n) := by
    unfold dropSign
    split
    · rename_i h
      exact absurd (hdigits '+' (by rw [h]; exact List.mem_cons_self ..)) (by decide)
    · rename_i h
      exact absurd (hdigits '-' (by rw [h]; exact List.mem_cons_self ..)) (by decide)
    · rfl
  rw [toList_toString_natCast, readInt, numberText_of_printed fun c hc => .inl (hdigits c hc),
    Option.bind_some]
  simp only [hsign]
  rw [if_pos ⟨Nat.toDigits_ne_nil, all_isDigit_toDigits n⟩, digitsValue_toDigits]
  rfl

/-- A printed integer is read back. -/
theorem readInt_toString_int (u : Unicode) (n : ℤ) : readInt u (toString n).toList = some n := by
  cases n with
  | ofNat m => exact readInt_toString u m
  | negSucc m =>
    have hprinted : (toString (Int.negSucc m)).toList = '-' :: Nat.toDigits 10 (m + 1) := by
      rw [Int.toString_eq_repr, Int.repr, String.toList_append, Nat.toList_repr]
      rfl
    have hchars : ∀ c ∈ '-' :: Nat.toDigits 10 (m + 1), c.isDigit = true ∨ c = '-' := by
      intro c hc
      obtain rfl | hc := List.mem_cons.mp hc
      · exact .inr rfl
      · exact .inl (isDigit_toDigits _ c hc)
    rw [hprinted, readInt, numberText_of_printed hchars, Option.bind_some]
    simp only [dropSign]
    rw [if_pos ⟨Nat.toDigits_ne_nil, all_isDigit_toDigits _⟩, digitsValue_toDigits]
    rfl

end Printed

end MemoryPlane
