import Mathlib.Data.List.Basic
import MemoryPlane.Python.Base64
import MemoryPlane.Python.Text

/-!
# URL-safe base64 without padding

The padding is taken off and put back from the length. The decoder skips what is no letter and
stops at a padding that completes four letters.
-/

namespace MemoryPlane

namespace Base64

/-- The letters of the URL-safe alphabet. -/
def urlLetter (c : Char) : Char := if c = '+' then '-' else if c = '/' then '_' else c

/-- The letters of the standard alphabet for those of the URL-safe one. -/
def plainLetter (c : Char) : Char := if c = '-' then '+' else if c = '_' then '/' else c

/-- `rstrip("=")`. -/
def rstripPad (cs : List Char) : List Char := Text.rstripWith (· = '=') cs

/-- `a2b_base64`, with so many letters of a group read and some bits of the last one left. -/
def a2b (quad left pads : ℕ) : List Char → Option (List UInt8)
  | [] => if quad = 0 then some [] else none
  | c :: cs =>
    if c = '=' then
      if quad < 2 then a2b quad left pads cs
      else if 4 ≤ quad + (pads + 1) then some []
      else a2b quad left (pads + 1) cs
    else
      match sextet c with
      | none => a2b quad left pads cs
      | some v =>
        if quad = 0 then a2b 1 v 0 cs
        else if quad = 1 then
          (a2b 2 (v % 16) 0 cs).map fun bytes => UInt8.ofNat (left * 4 + v / 16) :: bytes
        else if quad = 2 then
          (a2b 3 (v % 4) 0 cs).map fun bytes => UInt8.ofNat (left * 16 + v / 4) :: bytes
        else (a2b 0 0 0 cs).map fun bytes => UInt8.ofNat (left * 64 + v) :: bytes

/-- `_base64url_encode`. -/
def urlEncode (data : List UInt8) : List Char := rstripPad ((encode data).map urlLetter)

/-- `_base64url_decode`: `none` where it raises. -/
def urlDecode (cs : List Char) : Option (List UInt8) :=
  a2b 0 0 0 ((cs ++ List.replicate ((4 - cs.length % 4) % 4) '=').map plainLetter)

/-- A letter is never skipped. -/
theorem a2b_letter {quad left pads v : ℕ} (hv : v < 64) (cs : List Char) :
    a2b quad left pads (letter v :: cs) =
      if quad = 0 then a2b 1 v 0 cs
      else if quad = 1 then
        (a2b 2 (v % 16) 0 cs).map fun bytes => UInt8.ofNat (left * 4 + v / 16) :: bytes
      else if quad = 2 then
        (a2b 3 (v % 4) 0 cs).map fun bytes => UInt8.ofNat (left * 16 + v / 4) :: bytes
      else (a2b 0 0 0 cs).map fun bytes => UInt8.ofNat (left * 64 + v) :: bytes := by
  rw [a2b, if_neg (letter_ne_pad v hv), sextet_letter v hv]

/-- The lenient decoder reads what was encoded. -/
theorem a2b_encode (data : List UInt8) : a2b 0 0 0 (encode data) = some data := by
  fun_induction encode data with
  | case1 => rfl
  | case2 a =>
    have ha := a.toNat_lt
    rw [a2b_letter (by omega), if_pos rfl, a2b_letter (by omega), if_neg (by omega), if_pos rfl]
    have hbyte : UInt8.ofNat (a.toNat / 4 * 4 + a.toNat % 4 * 16 / 16) = a := byte_eq (by omega)
    rw [hbyte]
    rfl
  | case3 a b =>
    have ha := a.toNat_lt
    have hb := b.toNat_lt
    rw [a2b_letter (by omega), if_pos rfl, a2b_letter (by omega), if_neg (by omega), if_pos rfl,
      a2b_letter (by omega), if_neg (by omega), if_neg (by omega), if_pos rfl]
    have hfirst : UInt8.ofNat (a.toNat / 4 * 4 + (a.toNat % 4 * 16 + b.toNat / 16) / 16) = a :=
      byte_eq (by omega)
    have hsecond : UInt8.ofNat ((a.toNat % 4 * 16 + b.toNat / 16) % 16 * 16 +
        b.toNat % 16 * 4 / 4) = b := byte_eq (by omega)
    rw [hfirst, hsecond]
    rfl
  | case4 a b c rest ih =>
    have ha := a.toNat_lt
    have hb := b.toNat_lt
    have hc := c.toNat_lt
    rw [a2b_letter (by omega), if_pos rfl, a2b_letter (by omega), if_neg (by omega), if_pos rfl,
      a2b_letter (by omega), if_neg (by omega), if_neg (by omega), if_pos rfl,
      a2b_letter (by omega), if_neg (by omega), if_neg (by omega), if_neg (by omega), ih]
    have hfirst : UInt8.ofNat (a.toNat / 4 * 4 + (a.toNat % 4 * 16 + b.toNat / 16) / 16) = a :=
      byte_eq (by omega)
    have hsecond : UInt8.ofNat ((a.toNat % 4 * 16 + b.toNat / 16) % 16 * 16 +
        (b.toNat % 16 * 4 + c.toNat / 64) / 4) = b := byte_eq (by omega)
    have hthird : UInt8.ofNat ((b.toNat % 16 * 4 + c.toNat / 64) % 4 * 64 + c.toNat % 64) = c :=
      byte_eq (by omega)
    simp only [Option.map_some, hfirst, hsecond, hthird]

/-- Encoded bytes are letters with at most two characters of padding, in groups of four. -/
theorem exists_front (data : List UInt8) : ∃ front pads,
    encode data = front ++ List.replicate pads '=' ∧ pads ≤ 2 ∧ (front.length + pads) % 4 = 0 ∧
      ∀ c ∈ front, ∃ n < 64, c = letter n := by
  fun_induction encode data with
  | case1 => exact ⟨[], 0, rfl, by omega, rfl, fun c hc => by cases hc⟩
  | case2 a =>
    have ha := a.toNat_lt
    refine ⟨[_, _], 2, rfl, by omega, by simp only [List.length_cons, List.length_nil], ?_⟩
    simp only [List.forall_mem_cons, List.not_mem_nil, false_implies, implies_true, and_true]
    exact ⟨⟨_, by omega, rfl⟩, ⟨_, by omega, rfl⟩⟩
  | case3 a b =>
    have ha := a.toNat_lt
    have hb := b.toNat_lt
    refine ⟨[_, _, _], 1, rfl, by omega, by simp only [List.length_cons, List.length_nil], ?_⟩
    simp only [List.forall_mem_cons, List.not_mem_nil, false_implies, implies_true, and_true]
    exact ⟨⟨_, by omega, rfl⟩, ⟨_, by omega, rfl⟩, ⟨_, by omega, rfl⟩⟩
  | case4 a b c rest ih =>
    have ha := a.toNat_lt
    have hb := b.toNat_lt
    have hc := c.toNat_lt
    obtain ⟨front, pads, heq, hpads, hlength, hletters⟩ := ih
    refine ⟨_ :: _ :: _ :: _ :: front, pads, by rw [heq]; rfl, hpads, ?_, ?_⟩
    · simp only [List.length_cons]
      omega
    · simp only [List.forall_mem_cons]
      exact ⟨⟨_, by omega, rfl⟩, ⟨_, by omega, rfl⟩, ⟨_, by omega, rfl⟩, ⟨_, by omega, rfl⟩,
        hletters⟩

theorem urlLetter_letter : ∀ n < 64, plainLetter (urlLetter (letter n)) = letter n ∧
    urlLetter (letter n) ≠ '=' ∧ urlLetter (letter n) ≠ '.' ∧
    (urlLetter (letter n)).toNat < 128 := by
  decide

theorem rstripPad_append {front : List Char} (h : '=' ∉ front) (pads : ℕ) :
    rstripPad (front ++ List.replicate pads '=') = front := by
  have hpads : ∀ c ∈ List.replicate pads '=', decide (c = '=') = true := by
    intro c hc
    rw [List.eq_of_mem_replicate hc]
    rfl
  rw [rstripPad, Text.rstripWith, List.reverse_append, List.reverse_replicate,
    List.dropWhile_append_of_pos hpads]
  have hfront : front.reverse.dropWhile (fun c => decide (c = '=')) = front.reverse := by
    cases hrev : front.reverse with
    | nil => rfl
    | cons c cs =>
      apply List.dropWhile_cons_of_neg
      rw [decide_eq_true_eq]
      rintro rfl
      exact h (List.mem_reverse.mp (by rw [hrev]; exact List.mem_cons_self ..))
  rw [hfront, List.reverse_reverse]

/-- The encoded text is the letters alone, and its length says how much padding is missing. -/
theorem urlEncode_spec (data : List UInt8) : ∃ front pads,
    encode data = front ++ List.replicate pads '=' ∧ urlEncode data = front.map urlLetter ∧
      pads = (4 - front.length % 4) % 4 ∧ ∀ c ∈ front, ∃ n < 64, c = letter n := by
  obtain ⟨front, pads, heq, hpads, hlength, hletters⟩ := exists_front data
  refine ⟨front, pads, heq, ?_, by omega, hletters⟩
  have hpad : urlLetter '=' = '=' := rfl
  rw [urlEncode, heq, List.map_append, List.map_replicate, hpad, rstripPad_append]
  intro hmem
  obtain ⟨c, hc, hequal⟩ := List.mem_map.mp hmem
  obtain ⟨n, hn, rfl⟩ := hletters c hc
  exact (urlLetter_letter n hn).2.1 hequal

/-- Decoding gives the bytes back, whatever their number. -/
theorem urlDecode_urlEncode (data : List UInt8) : urlDecode (urlEncode data) = some data := by
  obtain ⟨front, pads, heq, hurl, hpads, hletters⟩ := urlEncode_spec data
  have hback : (front.map urlLetter).map plainLetter = front := by
    rw [List.map_map]
    conv_rhs => rw [← List.map_id front]
    refine List.map_congr_left fun c hc => ?_
    obtain ⟨n, hn, rfl⟩ := hletters c hc
    exact (urlLetter_letter n hn).1
  have hpad : plainLetter '=' = '=' := rfl
  rw [urlDecode, hurl, List.length_map, ← hpads, List.map_append, hback, List.map_replicate, hpad,
    ← heq, a2b_encode]

/-- The encoded text has no dot and no character beyond ASCII. -/
theorem mem_urlEncode {data : List UInt8} {c : Char} (hc : c ∈ urlEncode data) :
    c ≠ '.' ∧ c.toNat < 128 := by
  obtain ⟨front, pads, -, hurl, -, hletters⟩ := urlEncode_spec data
  rw [hurl] at hc
  obtain ⟨d, hd, rfl⟩ := List.mem_map.mp hc
  obtain ⟨n, hn, rfl⟩ := hletters d hd
  exact (urlLetter_letter n hn).2.2

end Base64

end MemoryPlane
