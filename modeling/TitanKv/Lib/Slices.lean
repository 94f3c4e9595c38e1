import TitanKv.Lib.Utf8

/-! # Slices of text at byte offsets

A byte offset cuts a text only between two characters. In well-formed UTF-8 that
is so where the byte at the offset does not continue a character. -/

namespace Utf8

/-- `&s[..n]` for an offset in bytes; `none` within a character or past the end. -/
def sliceTo : Text → Nat → Option Text
  | _, 0 => some []
  | [], _ + 1 => none
  | c :: s, n + 1 =>
    let width := (String.utf8EncodeChar c).length
    if width ≤ n + 1 then (sliceTo s (n + 1 - width)).map (c :: ·) else none

/-- A byte that continues a character. -/
def Continues (b : UInt8) : Prop := 128 ≤ b.toNat ∧ b.toNat < 192

/-- Only the first byte of a character does not continue it. -/
theorem encodeChar_bytes (c : Char) :
    ∃ b tail, String.utf8EncodeChar c = b :: tail ∧ ¬ Continues b ∧ ∀ d ∈ tail, Continues d := by
  simp only [String.utf8EncodeChar]
  split
  · refine ⟨_, [], rfl, ?_, by simp⟩
    simp only [Continues, UInt8.toNat_ofNat']
    omega
  · split
    · refine ⟨_, _, rfl, ?_, ?_⟩ <;> simp only [List.forall_mem_cons, Continues, UInt8.toNat_ofNat']
      · omega
      · exact ⟨by omega, by simp⟩
    · split
      · refine ⟨_, _, rfl, ?_, ?_⟩ <;>
          simp only [List.forall_mem_cons, Continues, UInt8.toNat_ofNat']
        · omega
        · exact ⟨by omega, by omega, by simp⟩
      · refine ⟨_, _, rfl, ?_, ?_⟩ <;>
          simp only [List.forall_mem_cons, Continues, UInt8.toNat_ofNat']
        · omega
        · exact ⟨by omega, by omega, by omega, by simp⟩

/-- Exactly when the slice of a text up to an offset within it is taken. -/
theorem sliceTo_isSome_iff {s : Text} {n : Nat} {b : UInt8} (h : (encode s)[n]? = some b) :
    (sliceTo s n).isSome ↔ ¬ Continues b := by
  induction s generalizing n with
  | nil => simp at h
  | cons c s ih =>
    obtain ⟨first, tail, hbytes, hfirst, htail⟩ := encodeChar_bytes c
    rw [encode_cons, hbytes] at h
    cases n with
    | zero =>
      obtain rfl := Option.some.inj h
      exact iff_of_true rfl hfirst
    | succ n =>
      rw [List.cons_append, List.getElem?_cons_succ] at h
      rw [sliceTo, hbytes, List.length_cons]
      split
      · rename_i hle
        rw [List.getElem?_append_right (by omega)] at h
        rw [Option.isSome_map, Nat.add_sub_add_right, ih h]
      · rename_i hgt
        rw [List.getElem?_append_left (by omega)] at h
        exact iff_of_false (by simp) (not_not.mpr (htail b (List.mem_of_getElem? h)))

end Utf8
