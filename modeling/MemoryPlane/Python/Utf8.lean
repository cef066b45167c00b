import Mathlib.Data.List.Basic

/-!
# UTF-8

Texts as bytes. The bytes below 128 of an encoded text are its ASCII characters.
-/

namespace MemoryPlane

namespace Utf8

/-- `text.encode()`. -/
def encode (cs : List Char) : List UInt8 := cs.flatMap String.utf8EncodeChar

/-- `data.decode()`: `none` where it raises. -/
def decode (bs : List UInt8) : Option (List Char) :=
  bs.toByteArray.utf8Decode?.map Array.toList

/-- A text holds a surrogate code point, which has no encoding. A `str` may hold one and a `String`
may not: `surrogate` tells the characters beyond ASCII that stand for surrogates. -/
def hasSurrogate (surrogate : Char → Bool) (text : String) : Bool :=
  text.toList.any fun c => decide (128 ≤ c.toNat) && surrogate c

/-- What was encoded is decoded. -/
theorem decode_encode (cs : List Char) : decode (encode cs) = some cs := by
  have h : (encode cs).toByteArray = cs.utf8Encode := rfl
  rw [decode, h, List.utf8Decode?_utf8Encode]
  rfl

theorem encode_append (cs ds : List Char) : encode (cs ++ ds) = encode cs ++ encode ds :=
  List.flatMap_append

/-- The list of the bytes of an array is read from its start. -/
theorem toList_loop (bs : ByteArray) (i : ℕ) (r : List UInt8) :
    ByteArray.toList.loop bs i r = r.reverse ++ bs.data.toList.drop i := by
  induction h : bs.size - i generalizing i r with
  | zero =>
    rw [ByteArray.toList.loop, if_neg (by omega), List.drop_eq_nil_of_le, List.append_nil]
    rw [Array.length_toList]
    exact Nat.sub_eq_zero_iff_le.mp h
  | succ n ih =>
    have hi : i < bs.size := Nat.lt_of_sub_pos (h ▸ n.succ_pos)
    have hlist : i < bs.data.toList.length := by rwa [Array.length_toList]
    have hget : bs.get! i = bs.data.toList[i] := by
      rw [Array.getElem_toList]
      exact getElem!_pos bs.data i hi
    rw [ByteArray.toList.loop, if_pos hi, ih (i + 1) _ (by omega), List.reverse_cons,
      List.append_assoc, List.drop_eq_getElem_cons hlist, hget, List.singleton_append]

/-- The bytes of a text are its encoding. -/
theorem toList_toUTF8 (s : String) : s.toUTF8.toList = encode s.toList := by
  have hbytes : s.toUTF8 = (encode s.toList).toByteArray := String.utf8Encode_toList.symm
  rw [hbytes, ByteArray.toList, toList_loop, List.toList_data_toByteArray]
  rfl

/-- An ASCII character is one byte. -/
theorem encode_of_ascii {cs : List Char} (h : ∀ c ∈ cs, c.toNat < 128) :
    encode cs = cs.map fun c => UInt8.ofNat c.toNat := by
  induction cs with
  | nil => rfl
  | cons c cs ih =>
    have hc : String.utf8EncodeChar c = [UInt8.ofNat c.toNat] :=
      if_pos (Nat.le_of_lt_succ (h c List.mem_cons_self))
    rw [encode, List.flatMap_cons, hc, ← encode, ih fun d hd => h d (List.mem_cons_of_mem _ hd)]
    rfl

/-- A byte of a character beyond ASCII has its highest bit set. -/
theorem toNat_of_mem_char {c : Char} {b : UInt8} (hb : b ∈ String.utf8EncodeChar c)
    (hlt : b.toNat < 128) : b.toNat = c.toNat := by
  have hhigh : ∀ a k off : ℕ, 0 < k → 128 ≤ off → k + off ≤ 256 →
      b ≠ UInt8.ofNat (a % k + off) := by
    rintro a k off hk hoff hle rfl
    have := Nat.mod_lt a hk
    rw [UInt8.toNat_ofNat'] at hlt
    omega
  have hval : c.val.toNat = c.toNat := rfl
  simp only [String.utf8EncodeChar, hval] at hb
  split at hb
  · rw [List.mem_singleton] at hb
    rename_i hsmall
    rw [hb, UInt8.toNat_ofNat']
    omega
  · exfalso
    split at hb
    · simp only [List.mem_cons, List.not_mem_nil, or_false] at hb
      obtain hb | hb := hb <;> exact hhigh _ _ _ (by omega) (by omega) (by omega) hb
    · split at hb
      · simp only [List.mem_cons, List.not_mem_nil, or_false] at hb
        obtain hb | hb | hb := hb <;> exact hhigh _ _ _ (by omega) (by omega) (by omega) hb
      · simp only [List.mem_cons, List.not_mem_nil, or_false] at hb
        obtain hb | hb | hb | hb := hb <;> exact hhigh _ _ _ (by omega) (by omega) (by omega) hb

/-- The bytes below 128 are those of ASCII characters. -/
theorem exists_of_mem_encode {cs : List Char} {b : UInt8} (hb : b ∈ encode cs)
    (hlt : b.toNat < 128) : ∃ c ∈ cs, c.toNat = b.toNat := by
  obtain ⟨c, hc, hmem⟩ := List.mem_flatMap.mp hb
  exact ⟨c, hc, (toNat_of_mem_char hmem hlt).symm⟩

end Utf8

end MemoryPlane
