import Mathlib.Order.Lattice
import Mathlib.Data.Nat.Basic
import Mathlib.Algebra.Group.Nat.Even
import MemoryPlane.Python.Text

/-!
# UUIDs

A UUID is a 128-bit number, ordered as such. It prints as 32 hexadecimal digits in five
groups and is read back from every spelling that the language's `UUID(...)` accepts: hyphens
anywhere, braces, the `urn:uuid:` prefix, and whatever `int(..., 16)` takes for the digits.
Printing loses nothing, and reading inverts printing.
-/

namespace MemoryPlane

/-- A 128-bit identifier. -/
structure UUID where
  /-- The number. -/
  toNat : ℕ
  /-- It has at most 128 bits. -/
  isLt : toNat < 2 ^ 128
  deriving DecidableEq

/-- The identifier with a given number. -/
def UUID.ofNat (n : ℕ) : UUID := ⟨n % 2 ^ 128, Nat.mod_lt _ (by decide)⟩

/-- One lower-case hexadecimal digit. -/
def hexDigit (d : ℕ) : Char := if d < 10 then Char.ofNat (48 + d) else Char.ofNat (87 + d)

/-- The last `width` hexadecimal digits of a number, most significant first. -/
def hexDigits : ℕ → ℕ → List Char
  | 0, _ => []
  | width + 1, n => hexDigits width (n / 16) ++ [hexDigit (n % 16)]

/-- The value of one ASCII hexadecimal digit. -/
def hexValue (c : Char) : Option ℕ :=
  let n := c.toNat
  if 48 ≤ n ∧ n ≤ 57 then some (n - 48)
  else if 97 ≤ n ∧ n ≤ 102 then some (n - 87)
  else if 65 ≤ n ∧ n ≤ 70 then some (n - 55)
  else none

/-- The digits of `int(..., 16)`: an underscore may stand between two digits. -/
def readDigits (prevDigit : Bool) (acc : ℕ) : List Char → Option ℕ
  | [] => if prevDigit then some acc else none
  | '_' :: cs => if prevDigit then readDigits false acc cs else none
  | c :: cs => (hexValue c).bind fun d => readDigits true (16 * acc + d) cs

/-- An optional `0x` prefix, after which one underscore is allowed. -/
def dropHexPrefix : List Char → List Char
  | '0' :: x :: cs =>
    if x = 'x' ∨ x = 'X' then (match cs with | '_' :: ds => ds | ds => ds) else '0' :: x :: cs
  | cs => cs

/-- What the number parser sees of one character: ASCII as it is, white space and decimal
digits of other scripts as their ASCII counterparts. -/
def toAsciiDigit (u : Unicode) (c : Char) : Char :=
  if c.toNat < 127 then c
  else if isSpace c then ' '
  else
    match u.decimal c with
    | some d => hexDigit d
    | none => '?'

/-- White space that the number parser skips. -/
def isAsciiSpace (c : Char) : Bool := (0x09 ≤ c.toNat && c.toNat ≤ 0x0d) || c.toNat == 0x20

/-- `int(s, 16)` of a text without a minus sign; `none` where it raises. -/
def readHex (u : Unicode) (s : List Char) : Option ℕ :=
  match Text.stripWith isAsciiSpace (s.map (toAsciiDigit u)) with
  | '+' :: cs => readDigits false 0 (dropHexPrefix cs)
  | cs => readDigits false 0 (dropHexPrefix cs)

namespace UUID

theorem toNat_injective : Function.Injective UUID.toNat := by
  rintro ⟨a, ha⟩ ⟨b, hb⟩ h
  cases h
  rfl

instance : LinearOrder UUID := LinearOrder.lift' UUID.toNat toNat_injective

/-- The digits of the printed form, in groups of 8, 4, 4, 4 and 12. -/
def groups (d : List Char) : List Char :=
  d.take 8 ++ '-' :: ((d.drop 8).take 4 ++ '-' :: ((d.drop 12).take 4 ++
    '-' :: ((d.drop 16).take 4 ++ '-' :: d.drop 20)))

/-- `str(uuid)`. -/
def str (i : UUID) : String := String.ofList (groups (hexDigits 32 i.toNat))

/-- `UUID(s)`: `none` where the constructor raises. -/
def parse (u : Unicode) (s : String) : Option UUID :=
  let hex := Text.removeAll ['u', 'u', 'i', 'd', ':'] 0
    (Text.removeAll ['u', 'r', 'n', ':'] 0 s.toList)
  let hex := (Text.stripWith (fun c => c == '{' || c == '}') hex).filter (· ≠ '-')
  if hex.length = 32 then
    (readHex u hex).bind fun n => if h : n < 2 ^ 128 then some ⟨n, h⟩ else none
  else none

end UUID

/-- Digits are told apart by their values. -/
theorem hexValue_hexDigit : ∀ d < 16, hexValue (hexDigit d) = some d := by decide

theorem length_hexDigits (width n : ℕ) : (hexDigits width n).length = width := by
  induction width generalizing n with
  | zero => rfl
  | succ width ih => simp [hexDigits, ih]

theorem mem_hexDigits {width n : ℕ} {c : Char} (hc : c ∈ hexDigits width n) :
    ∃ d < 16, c = hexDigit d := by
  induction width generalizing n with
  | zero => cases hc
  | succ width ih =>
    rcases List.mem_append.mp hc with hc | hc
    · exact ih hc
    · exact ⟨n % 16, Nat.mod_lt _ (by decide), List.mem_singleton.mp hc⟩

/-- A character that no digit equals is not printed. -/
theorem not_mem_hexDigits {c : Char} (hc : ∀ d < 16, hexDigit d ≠ c) (width n : ℕ) :
    c ∉ hexDigits width n := by
  intro hm
  obtain ⟨d, hd, rfl⟩ := mem_hexDigits hm
  exact hc d hd rfl

theorem readDigits_append_digit (ds : List Char) (d : ℕ) (hd : d < 16) (b : Bool) (acc : ℕ)
    {n : ℕ} (hn : readDigits b acc ds = some n) :
    readDigits b acc (ds ++ [hexDigit d]) = some (16 * n + d) := by
  have hu : hexDigit d ≠ '_' := by
    revert d
    decide
  induction ds generalizing b acc with
  | nil =>
    have hacc : acc = n := by
      cases b <;> simp_all [readDigits]
    subst hacc
    simp [readDigits, hexValue_hexDigit d hd]
  | cons c cs ih =>
    by_cases hc : c = '_'
    · subst hc
      cases b
      · simp [readDigits] at hn
      · simpa [readDigits] using ih false acc (by simpa [readDigits] using hn)
    · simp only [readDigits, List.cons_append] at hn ⊢
      cases hv : hexValue c with
      | none => simp [hv] at hn
      | some v => exact ih true _ (by simpa [hv] using hn)

/-- Lists whose fronts have one length are compared front first. -/
theorem lt_append_iff {a a' b b' : List Char} (h : a.length = a'.length) :
    a ++ b < a' ++ b' ↔ a < a' ∨ a = a' ∧ b < b' := by
  induction a generalizing a' with
  | nil =>
    have ha' : a' = [] := List.length_eq_zero_iff.mp h.symm
    simp [ha']
  | cons c cs ih =>
    cases a' with
    | nil => cases h
    | cons c' cs' =>
      simp only [List.cons_append, List.cons_lt_cons_iff, ih (Nat.succ.inj h), List.cons.injEq]
      tauto

theorem hexDigit_lt_iff : ∀ d < 16, ∀ e < 16, (hexDigit d < hexDigit e ↔ d < e) := by decide

theorem hexDigit_inj : ∀ d < 16, ∀ e < 16, (hexDigit d = hexDigit e ↔ d = e) := by decide

/-- Printed digits of one width are ordered as the numbers. -/
theorem hexDigits_compare (width m n : ℕ) :
    (hexDigits width m < hexDigits width n ↔ m % 16 ^ width < n % 16 ^ width) ∧
      (hexDigits width m = hexDigits width n ↔ m % 16 ^ width = n % 16 ^ width) := by
  induction width generalizing m n with
  | zero => simp [hexDigits, Nat.mod_one]
  | succ width ih =>
    obtain ⟨hlt, heq⟩ := ih (m / 16) (n / 16)
    have hlen : (hexDigits width (m / 16)).length = (hexDigits width (n / 16)).length := by
      rw [length_hexDigits, length_hexDigits]
    have hm := Nat.mod_lt m (show 0 < 16 by decide)
    have hn := Nat.mod_lt n (show 0 < 16 by decide)
    have hsplit : ∀ k, k % 16 ^ (width + 1) = k % 16 + 16 * (k / 16 % 16 ^ width) := by
      intro k
      rw [Nat.pow_succ']
      exact Nat.mod_mul
    have hdigit := hexDigit_lt_iff _ hm _ hn
    have hsame := hexDigit_inj _ hm _ hn
    rw [hsplit m, hsplit n]
    constructor
    · rw [hexDigits, hexDigits, lt_append_iff hlen, hlt, heq]
      simp only [List.cons_lt_cons_iff, List.lt_irrefl, and_false, or_false, hdigit]
      omega
    · rw [hexDigits.eq_2, hexDigits.eq_2]
      constructor
      · intro h
        obtain ⟨hfront, hback⟩ := List.append_inj h hlen
        have hlast := hsame.mp (List.cons.inj hback).1
        have := heq.mp hfront
        omega
      · intro h
        rw [heq.mpr (by omega), hsame.mpr (by omega)]

/-- Reading the printed digits gives back the number, as far as they reach. -/
theorem readDigits_hexDigits (width n : ℕ) :
    readDigits false 0 (hexDigits (width + 1) n) = some (n % 16 ^ (width + 1)) := by
  induction width generalizing n with
  | zero =>
    have hd : n % 16 < 16 := Nat.mod_lt _ (by decide)
    have hu : hexDigit (n % 16) ≠ '_' := by
      revert hd
      generalize n % 16 = d
      revert d
      decide
    simp [hexDigits, readDigits, hexValue_hexDigit _ hd]
  | succ width ih =>
    rw [hexDigits, readDigits_append_digit _ _ (Nat.mod_lt _ (by decide)) _ _ (ih (n / 16))]
    have hsplit : n % (16 * 16 ^ (width + 1)) = n % 16 + 16 * (n / 16 % 16 ^ (width + 1)) :=
      Nat.mod_mul
    rw [show (16 : ℕ) ^ (width + 1 + 1) = 16 * 16 ^ (width + 1) from Nat.pow_succ', hsplit,
      Nat.add_comm]

namespace UUID

/-- The groups of a printed UUID hold its digits and nothing else but hyphens. -/
theorem filter_groups {d : List Char} (hd : '-' ∉ d) :
    (groups d).filter (· ≠ '-') = d := by
  have hkeep : ∀ e : List Char, e ⊆ d → e.filter (· ≠ '-') = e := by
    intro e he
    refine List.filter_eq_self.mpr fun c hc => ?_
    have hne : c ≠ '-' := by
      rintro rfl
      exact hd (he hc)
    simpa using hne
  have hdrop : ∀ n, d.drop n ⊆ d := fun n => List.drop_subset n d
  have htake : ∀ n m, (d.drop n).take m ⊆ d := fun n m =>
    fun c hc => hdrop n (List.take_subset m _ hc)
  simp only [groups, List.filter_append, List.filter_cons, hkeep _ (List.take_subset 8 d),
    hkeep _ (htake _ _), hkeep _ (hdrop _)]
  have h4 : (d.drop 16).take 4 ++ d.drop 20 = d.drop 16 := by
    simpa [List.drop_drop] using List.take_append_drop 4 (d.drop 16)
  have h3 : (d.drop 12).take 4 ++ d.drop 16 = d.drop 12 := by
    simpa [List.drop_drop] using List.take_append_drop 4 (d.drop 12)
  have h2 : (d.drop 8).take 4 ++ d.drop 12 = d.drop 8 := by
    simpa [List.drop_drop] using List.take_append_drop 4 (d.drop 8)
  simp [h4, h3, h2]

/-- The characters of a printed UUID. -/
theorem mem_groups {d : List Char} {c : Char} (hc : c ∈ groups d) : c ∈ d ∨ c = '-' := by
  simp only [groups, List.mem_append, List.mem_cons] at hc
  rcases hc with h | h | h | h | h | h | h | h | h
  · exact .inl (List.mem_of_mem_take h)
  · exact .inr h
  · exact .inl (List.mem_of_mem_drop (List.mem_of_mem_take h))
  · exact .inr h
  · exact .inl (List.mem_of_mem_drop (List.mem_of_mem_take h))
  · exact .inr h
  · exact .inl (List.mem_of_mem_drop (List.mem_of_mem_take h))
  · exact .inr h
  · exact .inl (List.mem_of_mem_drop h)

/-- Printed digits are plain ASCII digits to the number parser. -/
theorem readHex_hexDigits (u : Unicode) (width n : ℕ) :
    readHex u (hexDigits (width + 2) n) = some (n % 16 ^ (width + 2)) := by
  have hplain : ∀ d < 16, (hexDigit d).toNat < 127 ∧ isAsciiSpace (hexDigit d) = false ∧
      hexDigit d ≠ '+' ∧ hexDigit d ≠ 'x' ∧ hexDigit d ≠ 'X' := by decide
  have hmap : (hexDigits (width + 2) n).map (toAsciiDigit u) = hexDigits (width + 2) n := by
    conv_rhs => rw [← List.map_id (hexDigits (width + 2) n)]
    refine List.map_congr_left fun c hc => ?_
    obtain ⟨d, hd, rfl⟩ := mem_hexDigits hc
    simp [toAsciiDigit, (hplain d hd).1]
  have hstrip : Text.stripWith isAsciiSpace (hexDigits (width + 2) n) =
      hexDigits (width + 2) n := by
    refine Text.stripWith_of_all_not fun c hc => ?_
    obtain ⟨d, hd, rfl⟩ := mem_hexDigits hc
    exact (hplain d hd).2.1
  have hlen := length_hexDigits (width + 2) n
  have hread := readDigits_hexDigits (width + 1) n
  have hmem : ∀ c ∈ hexDigits (width + 2) n, c ≠ '+' ∧ c ≠ 'x' ∧ c ≠ 'X' := by
    intro c hc
    obtain ⟨d, hd, rfl⟩ := mem_hexDigits hc
    exact (hplain d hd).2.2
  rw [readHex, hmap, hstrip]
  match hds : hexDigits (width + 2) n with
  | [] => simp [hds] at hlen
  | [c] => simp [hds] at hlen
  | c :: x :: cs =>
    have hc : c ≠ '+' := (hmem c (by simp [hds])).1
    have hx := (hmem x (by simp [hds])).2
    have hpre : dropHexPrefix (c :: x :: cs) = c :: x :: cs := by
      unfold dropHexPrefix
      split
      · rename_i y ds he
        cases he
        rw [if_neg (by rintro (h | h); exacts [hx.1 h, hx.2 h])]
      · rfl
    rw [hds] at hread
    split
    · rename_i ds he
      cases he
      exact absurd rfl hc
    · rw [hpre, hread]

/-- Reading a printed UUID gives it back. -/
@[simp] theorem parse_str (u : Unicode) (i : UUID) : parse u i.str = some i := by
  have hno : ∀ c : Char, c ≠ '-' → (∀ d < 16, hexDigit d ≠ c) →
      c ∉ groups (hexDigits 32 i.toNat) := by
    intro c hc hd hm
    rcases mem_groups hm with hm | rfl
    · exact not_mem_hexDigits hd 32 i.toNat hm
    · exact hc rfl
  have hu : 'u' ∉ groups (hexDigits 32 i.toNat) := hno 'u' (by decide) (by decide)
  have hbrace : ∀ c ∈ groups (hexDigits 32 i.toNat), (c == '{' || c == '}') = false := by
    intro c hc
    have h₁ : c ≠ '{' := fun h => hno '{' (by decide) (by decide) (h ▸ hc)
    have h₂ : c ≠ '}' := fun h => hno '}' (by decide) (by decide) (h ▸ hc)
    simp [h₁, h₂]
  have hdash : '-' ∉ hexDigits 32 i.toNat := not_mem_hexDigits (by decide) 32 i.toNat
  have hlt : i.toNat % 16 ^ 32 = i.toNat := Nat.mod_eq_of_lt (by have := i.isLt; omega)
  rw [parse, str, String.toList_ofList, Text.removeAll_of_not_mem (by simp) hu,
    Text.removeAll_of_not_mem (by simp) hu, Text.stripWith_of_all_not hbrace,
    filter_groups hdash, if_pos (length_hexDigits 32 _), readHex_hexDigits, hlt]
  exact dif_pos i.isLt

/-- Distinct UUIDs print differently. -/
theorem str_injective : Function.Injective str := by
  intro i j h
  have u : Unicode := ⟨fun c => [c], fun _ => true, fun a b => a == b, fun _ => none⟩
  have hi := parse_str u i
  rw [h, parse_str] at hi
  exact (Option.some.inj hi).symm

/-- Printed UUIDs all have the same length. -/
theorem length_str (i : UUID) : i.str.toList.length = 36 := by
  simp [str, groups, length_hexDigits]

/-- A hyphen after equally many digits keeps the order. -/
private theorem hyphen_lt_iff {d e x y : List Char} (n : ℕ) (h : d.length = e.length)
    (hxy : x < y ↔ d.drop n < e.drop n) :
    d.take n ++ '-' :: x < e.take n ++ '-' :: y ↔ d < e := by
  have hlen : (d.take n).length = (e.take n).length := by
    rw [List.length_take, List.length_take, h]
  conv_rhs => rw [← List.take_append_drop n d, ← List.take_append_drop n e, lt_append_iff hlen]
  rw [lt_append_iff hlen, List.cons_lt_cons_iff, hxy]
  simp

/-- Grouping keeps the order of equally long digit strings. -/
theorem groups_lt_iff {d e : List Char} (h : d.length = e.length) :
    groups d < groups e ↔ d < e := by
  have hdrop : ∀ n, (d.drop n).length = (e.drop n).length := by
    intro n
    rw [List.length_drop, List.length_drop, h]
  apply hyphen_lt_iff 8 h
  apply hyphen_lt_iff 4 (hdrop 8)
  rw [List.drop_drop, List.drop_drop]
  apply hyphen_lt_iff 4 (hdrop 12)
  rw [List.drop_drop, List.drop_drop]
  apply hyphen_lt_iff 4 (hdrop 16)
  rw [List.drop_drop, List.drop_drop]

/-- Printed UUIDs are ordered as the numbers. -/
theorem str_lt_str {i j : UUID} : i.str < j.str ↔ i < j := by
  have hmod : ∀ k : UUID, k.toNat % 16 ^ 32 = k.toNat := fun k =>
    Nat.mod_eq_of_lt (by have := k.isLt; omega)
  have hlen : (hexDigits 32 i.toNat).length = (hexDigits 32 j.toNat).length := by
    rw [length_hexDigits, length_hexDigits]
  rw [String.lt_iff, str, str, String.toList_ofList, String.toList_ofList, groups_lt_iff hlen,
    (hexDigits_compare 32 i.toNat j.toNat).1, hmod i, hmod j]
  rfl

end UUID

end MemoryPlane
