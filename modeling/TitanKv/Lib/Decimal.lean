import TitanKv.Lib.Utf8

/-! # Decimal integers, printed and parsed

Printing writes a sign and the digits; parsing admits one sign, at least one
digit, nothing else, and rejects a value outside the range asked for. Parsing a
printed integer of the range gives it back. -/

namespace Decimal
open Utf8

def printNat (n : Nat) : Text := Nat.toDigits 10 n

def printInt (z : Int) : Text :=
  if z < 0 then '-' :: printNat z.natAbs else printNat z.natAbs

/-- One or more ASCII digits. -/
def digits? (t : Text) : Option Nat :=
  if t ≠ [] ∧ t.all Char.isDigit then some (Nat.ofDigitChars 10 t 0) else none

def ranged (lo hi z : Int) : Option Int := if lo ≤ z ∧ z ≤ hi then some z else none

def parseInt (lo hi : Int) : Text → Option Int
  | '-' :: ds => (digits? ds).bind fun n => ranged lo hi (-(n : Int))
  | '+' :: ds => (digits? ds).bind fun n => ranged lo hi n
  | ds => (digits? ds).bind fun n => ranged lo hi n

def parseNat (hi : Nat) : Text → Option Nat
  | '+' :: ds => (digits? ds).bind fun n => if n ≤ hi then some n else none
  | ds => (digits? ds).bind fun n => if n ≤ hi then some n else none

theorem digits?_printNat (n : Nat) : digits? (printNat n) = some n := by
  have hne : printNat n ≠ [] := Nat.toDigits_ne_nil
  have hall : (printNat n).all Char.isDigit = true :=
    List.all_eq_true.mpr fun c hc => Nat.isDigit_of_mem_toDigits (by omega) (by omega) hc
  rw [digits?, if_pos ⟨hne, hall⟩]
  exact congrArg some Nat.ofDigitChars_ten_toDigits

theorem isDigit_of_mem_printNat {n : Nat} {c : Char} (h : c ∈ printNat n) : c.isDigit = true :=
  Nat.isDigit_of_mem_toDigits (by omega) (by omega) h

theorem isDigit_range {c : Char} (h : c.isDigit = true) : 48 ≤ c.toNat ∧ c.toNat ≤ 57 := by
  have hpair : (decide (48 ≤ c.toNat) && decide (c.toNat ≤ 57)) = true := h
  simpa using hpair

theorem mem_printInt {z : Int} {c : Char} (h : c ∈ printInt z) : c = '-' ∨ c.isDigit = true := by
  unfold printInt at h
  split at h
  · rcases List.mem_cons.mp h with hc | hc
    · exact Or.inl hc
    · exact Or.inr (isDigit_of_mem_printNat hc)
  · exact Or.inr (isDigit_of_mem_printNat h)

theorem printInt_ne_nil (z : Int) : printInt z ≠ [] := by
  unfold printInt
  split
  · simp
  · exact Nat.toDigits_ne_nil

/-- An unsigned text is parsed by its digits alone. -/
theorem parseInt_unsigned {lo hi : Int} {t : Text} (hd : t.all Char.isDigit = true) :
    parseInt lo hi t = (digits? t).bind fun n => ranged lo hi n := by
  cases t with
  | nil => rfl
  | cons c ds =>
    have hc : c.isDigit = true := List.all_eq_true.mp hd c (by simp)
    have hminus : c ≠ '-' := by rintro rfl; exact absurd hc (by decide)
    have hplus : c ≠ '+' := by rintro rfl; exact absurd hc (by decide)
    unfold parseInt
    split <;> simp_all

theorem parseNat_digits {hi : Nat} {t : Text} (hd : t.all Char.isDigit = true) :
    parseNat hi t = (digits? t).bind fun n => if n ≤ hi then some n else none := by
  cases t with
  | nil => rfl
  | cons c ds =>
    have hc : c.isDigit = true := List.all_eq_true.mp hd c (by simp)
    have hplus : c ≠ '+' := by rintro rfl; cases hc
    unfold parseNat
    split
    · rename_i heq
      exact absurd (List.cons.inj heq).1 hplus
    · rfl

theorem digits?_eq_some {t : Text} {n : Nat} (h : digits? t = some n) :
    t ≠ [] ∧ t.all Char.isDigit = true := by
  unfold digits? at h
  split at h
  · assumption
  · cases h

/-- What is parsed is digits, with or without a `+`, of a number of the range. -/
theorem parseNat_eq_some {hi n : Nat} {t : Text} : parseNat hi t = some n ↔
    ∃ sign ds, t = sign ++ ds ∧ (sign = [] ∨ sign = ['+']) ∧ digits? ds = some n ∧ n ≤ hi := by
  have hnumber : ∀ {ds : Text}, ((digits? ds).bind fun n => if n ≤ hi then some n else none) =
      some n ↔
      digits? ds = some n ∧ n ≤ hi := by
    intro ds
    rw [Option.bind_eq_some_iff]
    constructor
    · rintro ⟨m, hds, hm⟩
      split at hm
      · obtain rfl := Option.some.inj hm
        exact ⟨hds, by assumption⟩
      · cases hm
    · rintro ⟨hds, hle⟩
      exact ⟨n, hds, if_pos hle⟩
  constructor
  · intro h
    unfold parseNat at h
    split at h
    · rename_i ds
      exact ⟨['+'], ds, rfl, Or.inr rfl, hnumber.mp h⟩
    · exact ⟨[], t, rfl, Or.inl rfl, hnumber.mp h⟩
  · rintro ⟨sign, ds, rfl, rfl | rfl, h⟩
    · rw [List.nil_append, parseNat_digits (digits?_eq_some h.1).2]
      exact hnumber.mpr h
    · exact hnumber.mpr h

theorem parseNat_le {hi n : Nat} {t : Text} (h : parseNat hi t = some n) : n ≤ hi := by
  obtain ⟨_, _, -, -, -, hle⟩ := parseNat_eq_some.mp h
  exact hle

theorem parseInt_range {lo hi z : Int} {t : Text} (h : parseInt lo hi t = some z) :
    lo ≤ z ∧ z ≤ hi := by
  have hbound : ∀ {n : Option Nat} {f : Nat → Int}, (n.bind fun n => ranged lo hi (f n)) = some z →
      lo ≤ z ∧ z ≤ hi := by
    intro n f hn
    obtain ⟨m, -, hm⟩ := Option.bind_eq_some_iff.mp hn
    unfold ranged at hm
    split at hm
    · obtain rfl := Option.some.inj hm
      assumption
    · cases hm
  unfold parseInt at h
  split at h
  · exact hbound h
  · exact hbound h
  · exact hbound h

/-- A printed number is read back if it is in the range. -/
theorem parseInt_printInt (lo hi z : Int) : parseInt lo hi (printInt z) = ranged lo hi z := by
  unfold printInt
  split
  · rename_i hneg
    have hz : -(z.natAbs : Int) = z := by omega
    simp only [parseInt, digits?_printNat, Option.bind_some, hz]
  · rename_i hnn
    have hz : (z.natAbs : Int) = z := by omega
    have hall : (printNat z.natAbs).all Char.isDigit = true :=
      List.all_eq_true.mpr fun c hc => isDigit_of_mem_printNat hc
    rw [parseInt_unsigned hall, digits?_printNat, Option.bind_some, hz]

end Decimal
