import Mathlib.Data.Nat.Notation

/-!
# Base64

The standard alphabet with padding. Three bytes make four letters; decoding what was encoded gives
the bytes back.
-/

namespace MemoryPlane

namespace Base64

/-- The letter of six bits. -/
def letter (n : ℕ) : Char :=
  if n < 26 then Char.ofNat (n + 65)
  else if n < 52 then Char.ofNat (n - 26 + 97)
  else if n < 62 then Char.ofNat (n - 52 + 48)
  else if n = 62 then '+'
  else '/'

/-- The six bits of a letter. -/
def sextet (c : Char) : Option ℕ :=
  if 'A' ≤ c ∧ c ≤ 'Z' then some (c.toNat - 65)
  else if 'a' ≤ c ∧ c ≤ 'z' then some (c.toNat - 97 + 26)
  else if '0' ≤ c ∧ c ≤ '9' then some (c.toNat - 48 + 52)
  else if c = '+' then some 62
  else if c = '/' then some 63
  else none

/-- The letters of a list of bytes. -/
def encode : List UInt8 → List Char
  | [] => []
  | [a] => [letter (a.toNat / 4), letter (a.toNat % 4 * 16), '=', '=']
  | [a, b] =>
    [letter (a.toNat / 4), letter (a.toNat % 4 * 16 + b.toNat / 16),
      letter (b.toNat % 16 * 4), '=']
  | a :: b :: c :: rest =>
    letter (a.toNat / 4) :: letter (a.toNat % 4 * 16 + b.toNat / 16) ::
      letter (b.toNat % 16 * 4 + c.toNat / 64) :: letter (c.toNat % 64) :: encode rest

/-- The bytes of a list of letters, four at a time. -/
def decode : List Char → Option (List UInt8)
  | [] => some []
  | [p, q, '=', '='] => do
    let p ← sextet p
    let q ← sextet q
    return [UInt8.ofNat (p * 4 + q / 16)]
  | [p, q, r, '='] => do
    let p ← sextet p
    let q ← sextet q
    let r ← sextet r
    return [UInt8.ofNat (p * 4 + q / 16), UInt8.ofNat (q % 16 * 16 + r / 4)]
  | p :: q :: r :: s :: rest => do
    let p ← sextet p
    let q ← sextet q
    let r ← sextet r
    let s ← sextet s
    let bytes ← decode rest
    return UInt8.ofNat (p * 4 + q / 16) :: UInt8.ofNat (q % 16 * 16 + r / 4) ::
      UInt8.ofNat (r % 4 * 64 + s) :: bytes
  | _ => none

theorem sextet_letter : ∀ n < 64, sextet (letter n) = some n := by decide

theorem letter_ne_pad : ∀ n < 64, letter n ≠ '=' := by decide

/-- Four letters that do not pad are read before the rest. -/
theorem decode_cons {p q r s : ℕ} (hp : p < 64) (hq : q < 64) (hr : r < 64) (hs : s < 64)
    (rest : List Char) :
    decode (letter p :: letter q :: letter r :: letter s :: rest) =
      (decode rest).map fun bytes => UInt8.ofNat (p * 4 + q / 16) ::
        UInt8.ofNat (q % 16 * 16 + r / 4) :: UInt8.ofNat (r % 4 * 64 + s) :: bytes := by
  have hpad := letter_ne_pad s hs
  rw [decode]
  · rw [sextet_letter p hp, sextet_letter q hq, sextet_letter r hr, sextet_letter s hs]
    cases decode rest <;> rfl
  · exact fun _ h _ => hpad h
  · exact fun h _ => hpad h

/-- The bytes that sextets are made of. -/
theorem byte_eq {n : ℕ} {a : UInt8} (h : n = a.toNat) : UInt8.ofNat n = a := by
  rw [h, UInt8.ofNat_toNat]

/-- Decoding gives the bytes back. -/
theorem decode_encode (data : List UInt8) : decode (encode data) = some data := by
  fun_induction encode data with
  | case1 => rfl
  | case2 a =>
    have ha := a.toNat_lt
    rw [decode, sextet_letter _ (by omega), sextet_letter _ (by omega)]
    refine congrArg (fun x => some [x]) (byte_eq ?_)
    omega
  | case3 a b =>
    have ha := a.toNat_lt
    have hb := b.toNat_lt
    have hpad := letter_ne_pad (b.toNat % 16 * 4) (by omega)
    rw [decode]
    · rw [sextet_letter _ (by omega), sextet_letter _ (by omega), sextet_letter _ (by omega)]
      have hfirst : UInt8.ofNat (a.toNat / 4 * 4 + (a.toNat % 4 * 16 + b.toNat / 16) / 16) = a :=
        byte_eq (by omega)
      have hsecond : UInt8.ofNat ((a.toNat % 4 * 16 + b.toNat / 16) % 16 * 16 +
          b.toNat % 16 * 4 / 4) = b := byte_eq (by omega)
      exact congrArg some (by rw [hfirst, hsecond])
    · exact hpad
  | case4 a b c rest ih =>
    have ha := a.toNat_lt
    have hb := b.toNat_lt
    have hc := c.toNat_lt
    rw [decode_cons (by omega) (by omega) (by omega) (by omega), ih, Option.map_some]
    have hfirst : UInt8.ofNat (a.toNat / 4 * 4 + (a.toNat % 4 * 16 + b.toNat / 16) / 16) = a :=
      byte_eq (by omega)
    have hsecond : UInt8.ofNat ((a.toNat % 4 * 16 + b.toNat / 16) % 16 * 16 +
        (b.toNat % 16 * 4 + c.toNat / 64) / 4) = b := byte_eq (by omega)
    have hthird : UInt8.ofNat ((b.toNat % 16 * 4 + c.toNat / 64) % 4 * 64 + c.toNat % 64) = c :=
      byte_eq (by omega)
    rw [hfirst, hsecond, hthird]

end Base64

/-- `b64encode(data).decode()`. -/
def b64encode (data : List UInt8) : String := String.ofList (Base64.encode data)

/-- `b64decode(text, validate=True)`. -/
def b64decode (text : String) : Option (List UInt8) := Base64.decode text.toList

theorem b64decode_b64encode (data : List UInt8) : b64decode (b64encode data) = some data := by
  rw [b64decode, b64encode, String.toList_ofList, Base64.decode_encode]

end MemoryPlane
