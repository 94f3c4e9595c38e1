import Mathlib.Data.List.Basic

/-! # UTF-8 text as lists of scalar values

Byte strings are lists of bytes and text is the list of its Unicode scalar
values. `encode` and `decode?` restate the core library's verified codec at
these two types: decoding undoes encoding, and every decodable byte string is
the encoding of exactly one text. -/

namespace Utf8

abbrev Bytes := List UInt8
abbrev Text := List Char

def encode (t : Text) : Bytes := t.flatMap String.utf8EncodeChar

/-- `none` where the bytes are not well-formed UTF-8. -/
def decode? (b : Bytes) : Option Text := b.toByteArray.utf8Decode?.map Array.toList

@[simp] theorem encode_nil : encode [] = [] := rfl

@[simp] theorem encode_append (s t : Text) : encode (s ++ t) = encode s ++ encode t := by
  simp [encode]

theorem encode_flatten (ts : List Text) : encode ts.flatten = (ts.map encode).flatten := by
  induction ts with
  | nil => rfl
  | cons t ts ih => rw [List.flatten_cons, encode_append, ih, List.map_cons, List.flatten_cons]

theorem encode_cons (c : Char) (t : Text) : encode (c :: t) = String.utf8EncodeChar c ++ encode t :=
  rfl

theorem toByteArray_encode (t : Text) : (encode t).toByteArray = t.utf8Encode := rfl

@[simp] theorem decode?_encode (t : Text) : decode? (encode t) = some t := by
  simp [decode?, toByteArray_encode]

theorem encode_of_decode? {b : Bytes} {t : Text} (h : decode? b = some t) : encode t = b := by
  obtain ⟨cs, hcs, rfl⟩ := Option.map_eq_some_iff.mp h
  have hsome : b.toByteArray.utf8Decode?.isSome := by simp [hcs]
  have hb := ByteArray.utf8Encode_get_utf8Decode? (b := b.toByteArray) (h := hsome)
  have hget : b.toByteArray.utf8Decode?.get hsome = cs := by simp [hcs]
  rw [hget, ← toByteArray_encode] at hb
  exact List.toByteArray_inj.mp hb

theorem encode_injective {s t : Text} (h : encode s = encode t) : s = t := by
  have hd := congrArg decode? h
  simpa using hd

@[simp] theorem encode_inj {s t : Text} : encode s = encode t ↔ s = t :=
  ⟨encode_injective, congrArg encode⟩

@[simp] theorem encode_eq_nil {t : Text} : encode t = [] ↔ t = [] := by
  rw [← encode_nil, encode_inj]

/-- A character below 128 is its own single byte. -/
theorem encodeChar_ascii {c : Char} (h : c.toNat < 128) :
    String.utf8EncodeChar c = [UInt8.ofNat c.toNat] := by
  have hle : c.val.toNat ≤ 127 := Nat.le_of_lt_succ h
  simp only [String.utf8EncodeChar, hle, if_true]
  rfl

/-- Every byte of a multi-byte character is 128 or more. -/
theorem encodeChar_high {c : Char} (h : ¬ c.toNat < 128) {b : UInt8}
    (hb : b ∈ String.utf8EncodeChar c) : 128 ≤ b.toNat := by
  have hc : ¬ c.val.toNat ≤ 127 := fun hle => h (Nat.lt_succ_of_le hle)
  simp only [String.utf8EncodeChar, hc, if_false] at hb
  split at hb
  · simp only [List.mem_cons, List.not_mem_nil, or_false] at hb
    rcases hb with rfl | rfl <;> simp only [UInt8.toNat_ofNat'] <;> omega
  · split at hb
    · simp only [List.mem_cons, List.not_mem_nil, or_false] at hb
      rcases hb with rfl | rfl | rfl <;> simp only [UInt8.toNat_ofNat'] <;> omega
    · simp only [List.mem_cons, List.not_mem_nil, or_false] at hb
      rcases hb with rfl | rfl | rfl | rfl <;> simp only [UInt8.toNat_ofNat'] <;> omega

/-- An ASCII byte occurs in a character's encoding only as that character. -/
theorem ascii_mem_encodeChar {a c : Char} (ha : a.toNat < 128)
    (h : UInt8.ofNat a.toNat ∈ String.utf8EncodeChar c) : c = a := by
  by_cases hc : c.toNat < 128
  · rw [encodeChar_ascii hc, List.mem_singleton] at h
    have hn := congrArg UInt8.toNat h
    simp only [UInt8.toNat_ofNat'] at hn
    have hac : a.toNat = c.toNat := by omega
    exact (Char.toNat_inj.mp hac).symm
  · have hh := encodeChar_high hc h
    simp only [UInt8.toNat_ofNat'] at hh
    omega

theorem ascii_mem_encode {a : Char} (ha : a.toNat < 128) {t : Text}
    (h : UInt8.ofNat a.toNat ∈ encode t) : a ∈ t := by
  obtain ⟨c, hc, hb⟩ := List.mem_flatMap.mp h
  exact ascii_mem_encodeChar ha hb ▸ hc

end Utf8
