import Mathlib.Data.List.Basic
import Mathlib.Data.List.TakeWhile

/-!
# Strings

The string operations of the language that the development uses, on lists of characters.
White space is the fixed set of `str.isspace`. Case folding and the alphanumeric class are
tables of the language's Unicode version: they are a parameter, and every result holds for
any tables.
-/

namespace MemoryPlane

/-- The Unicode tables of the language runtime. -/
structure Unicode where
  /-- `str.casefold` of one character. -/
  casefold : Char → List Char
  /-- `str.isalnum` of one character. -/
  isAlnum : Char → Bool
  /-- A pattern character and a text character agree under `re.IGNORECASE`. -/
  sameIgnoringCase : Char → Char → Bool
  /-- The value of a decimal digit of any script. -/
  decimal : Char → Option ℕ

/-- The Unicode tables on ASCII text. -/
def asciiUnicode : Unicode where
  casefold c := [c.toLower]
  isAlnum := Char.isAlphanum
  sameIgnoringCase p c := p == c.toLower
  decimal _ := none

/-- A character that is no letter in upper case is its own lower case. -/
theorem toLower_of_not_upper {c : Char} (h : ¬ (c.val ≥ 'A'.val ∧ c.val ≤ 'Z'.val)) :
    c.toLower = c := dif_neg h

instance lawfulBEq_listChar : LawfulBEq (List Char) := inferInstanceAs (LawfulBEq (List Char))

/-- `\w` of a text pattern. -/
def Unicode.isWord (u : Unicode) (c : Char) : Bool := u.isAlnum c || c == '_'

/-- `str.isspace` of one character, which is also `\s` and what `strip` and `split` remove. -/
def isSpace (c : Char) : Bool :=
  let n := c.toNat
  (0x09 ≤ n && n ≤ 0x0d) || (0x1c ≤ n && n ≤ 0x20) || n == 0x85 || n == 0xa0 || n == 0x1680 ||
    (0x2000 ≤ n && n ≤ 0x200a) || n == 0x2028 || n == 0x2029 || n == 0x202f || n == 0x205f ||
    n == 0x3000

namespace Text

/-- Characters left after dropping a class at the right end. -/
def rstripWith (p : Char → Bool) (s : List Char) : List Char := (s.reverse.dropWhile p).reverse

/-- Characters left after dropping a class at both ends. -/
def stripWith (p : Char → Bool) (s : List Char) : List Char := rstripWith p (s.dropWhile p)

/-- `s.strip()`. -/
def strip (s : String) : String := String.ofList (stripWith isSpace s.toList)

/-- `s.rstrip()`. -/
def rstrip (s : String) : String := String.ofList (rstripWith isSpace s.toList)

/-- `s[:n]`. -/
def take (n : ℕ) (s : String) : String := String.ofList (s.toList.take n)

/-- `not s.strip()`: nothing but white space. -/
def isBlank (s : String) : Bool := s.toList.all isSpace

/-- A text that is not blank, as an equation. -/
theorem isBlank_eq_false {s : String} (h : ¬ isBlank s = true) : isBlank s = false :=
  eq_false_of_ne_true h

/-- Of two texts neither blank, the first. -/
theorem isBlank_eq_false_left {s t : String} (h : ¬(isBlank s = true ∨ isBlank t = true)) :
    isBlank s = false :=
  isBlank_eq_false fun hs => h (.inl hs)

/-- Of two texts neither blank, the second. -/
theorem isBlank_eq_false_right {s t : String} (h : ¬(isBlank s = true ∨ isBlank t = true)) :
    isBlank t = false :=
  isBlank_eq_false fun ht => h (.inr ht)

/-- Removing every occurrence of a pattern, from the left and without overlaps; `skip` counts
the characters of the current occurrence still to be dropped. -/
def removeAll (pat : List Char) (skip : ℕ) : List Char → List Char
  | [] => []
  | c :: cs =>
    match skip with
    | k + 1 => removeAll pat k cs
    | 0 => if pat.isPrefixOf (c :: cs) then removeAll pat (pat.length - 1) cs
      else c :: removeAll pat 0 cs

/-- A pattern occurs in a text. -/
def occurs (pat : List Char) : List Char → Bool
  | [] => pat.isEmpty
  | c :: cs => pat.isPrefixOf (c :: cs) || occurs pat cs

/-- `pat in s`. -/
def contains (s pat : String) : Bool := occurs pat.toList s.toList

/-- Maximal runs of characters in a class, in order; `acc` is the run being read. -/
def runs (p : Char → Bool) (acc : List Char) : List Char → List (List Char)
  | [] => if acc.isEmpty then [] else [acc]
  | c :: cs =>
    if p c then runs p (acc ++ [c]) cs
    else if acc.isEmpty then runs p [] cs else acc :: runs p [] cs

/-- `s.split()`. -/
def split (s : List Char) : List (List Char) := runs (fun c => !isSpace c) [] s

/-- `" ".join(parts)`. -/
def joinSpace (parts : List (List Char)) : List Char := [' '].intercalate parts

/-- The search finds exactly the contiguous parts of a text. -/
theorem occurs_iff {pat : List Char} : ∀ {s : List Char}, occurs pat s = true ↔ pat <:+: s
  | [] => by simp [occurs]
  | c :: cs => by
    rw [occurs, Bool.or_eq_true, List.isPrefixOf_iff_prefix, occurs_iff, List.infix_cons_iff]

/-- Removing a part leaves a text without one of the part's characters alone. -/
theorem removeAll_of_not_mem {pat : List Char} {c : Char} (hc : c ∈ pat) :
    ∀ {s : List Char}, c ∉ s → removeAll pat 0 s = s
  | [], _ => rfl
  | d :: s, h => by
    have hp : pat.isPrefixOf (d :: s) = false := by
      rw [Bool.eq_false_iff]
      intro hp
      exact h ((List.isPrefixOf_iff_prefix.mp hp).subset hc)
    have ih := removeAll_of_not_mem hc (s := s) fun hm => h (List.mem_cons_of_mem _ hm)
    simp [removeAll, hp, ih]

/-- Nothing is dropped from a text without such characters. -/
theorem dropWhile_of_all_not {p : Char → Bool} :
    ∀ {s : List Char}, (∀ c ∈ s, p c = false) → s.dropWhile p = s
  | [], _ => rfl
  | c :: s, h => by simp [h c (List.mem_cons_self ..)]

/-- Nothing is stripped from a text without such characters. -/
theorem stripWith_of_all_not {p : Char → Bool} {s : List Char} (h : ∀ c ∈ s, p c = false) :
    stripWith p s = s := by
  have hr : s.reverse.dropWhile p = s.reverse :=
    dropWhile_of_all_not fun c hc => h c (List.mem_reverse.mp hc)
  rw [stripWith, dropWhile_of_all_not h, rstripWith, hr, List.reverse_reverse]

/-- A text is blank exactly when stripping leaves nothing. -/
theorem isBlank_iff {s : String} : isBlank s = true ↔ strip s = "" := by
  have hblank : isBlank s = true ↔ ∀ c ∈ s.toList, isSpace c = true := List.all_eq_true
  have hstrip : strip s = "" ↔ stripWith isSpace s.toList = [] := by
    unfold strip
    constructor
    · intro h
      have := congrArg String.toList h
      simpa using this
    · intro h
      rw [h]
  rw [hblank, hstrip, stripWith, rstripWith, List.reverse_eq_nil_iff]
  constructor
  · intro h
    rw [List.dropWhile_eq_nil_iff.mpr h]
    rfl
  · intro h
    rw [List.dropWhile_eq_nil_iff] at h
    rw [← List.dropWhile_eq_nil_iff]
    by_contra hne
    have hhead := List.head_dropWhile_not isSpace hne
    rw [h _ (List.mem_reverse.mpr (List.head_mem hne))] at hhead
    cases hhead

end Text

end MemoryPlane
