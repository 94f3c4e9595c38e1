import TitanKv.Reader

/-! # Sizes a client announces

`readResp` asks for memory on the word of the client: a vector for the number of
arguments on the first line, a buffer for the length of each argument. It panics
exactly on inputs with a size that no vector can have. -/

namespace TitanKv
open Utf8

section Bind
variable {α β : Type} {x : Reader α} {f : α → Reader β} {bytes rest : Bytes} {a : α} {e : Failure}

theorem bind_of_error (h : x bytes = .error e) : (x >>= f) bytes = .error e := by
  show (x bytes >>= fun r => f r.1 r.2) = _
  rw [h]
  rfl

theorem bind_eq_error (h : (x >>= f) bytes = .error e) :
    x bytes = .error e ∨ ∃ a rest, x bytes = .ok (a, rest) ∧ f a rest = .error e := by
  cases hx : x bytes with
  | error e' =>
    rw [bind_of_error hx] at h
    exact Or.inl (congrArg Except.error (Except.error.inj h))
  | ok r =>
    rw [bind_of_ok hx] at h
    exact Or.inr ⟨r.1, r.2, rfl, h⟩

end Bind

section Payload
variable {lenLine : Text} {bytes : Bytes} {len : Nat}

theorem parseHeader_ne_panic {tag : Char} {line : Text} :
    parseHeader tag line bytes ≠ .error .panic := by
  unfold parseHeader
  cases headerNumber tag line with
  | none => exact fun h => by cases h
  | some n => exact fun h => by cases h

theorem parseHeader_malformed {tag : Char} {line : Text} (h : headerNumber tag line = none) :
    parseHeader tag line bytes = .error .err := by
  unfold parseHeader
  rw [h]
  rfl

/-- The buffer of a length beyond every vector. -/
theorem readPayload_panics (hnum : headerNumber '$' lenLine = some len) (hsum : len + 2 < 2 ^ 64)
    (hover : isizeMax < len + 2) : readPayload lenLine bytes = .error .panic := by
  refine (bind_of_ok (parseHeader_eq_ok.mpr ⟨hnum, rfl⟩)).trans ?_
  rw [Nat.mod_eq_of_lt hsum, if_pos hover]
  rfl

theorem readPayload_eq_panic (h : readPayload lenLine bytes = .error .panic) :
    ∃ len, headerNumber '$' lenLine = some len ∧ isizeMax < len + 2 := by
  rcases bind_eq_error h with hp | ⟨len, rest, hp, hread⟩
  · exact absurd hp parseHeader_ne_panic
  · obtain ⟨hnum, -⟩ := parseHeader_eq_ok.mp hp
    refine ⟨len, hnum, ?_⟩
    by_contra hfits
    have hsize : (len + 2) % 2 ^ 64 = len + 2 := by
      unfold isizeMax at hfits
      omega
    rw [hsize, if_neg hfits] at hread
    rcases bind_eq_error hread with hb | ⟨buf, rest', -, hbuf⟩
    · unfold readExact at hb
      split at hb <;> cases hb
    · rw [if_neg (by omega)] at hbuf
      cases hbuf

end Payload

section Turns
variable {n : Nat} {bytes rest input : Bytes} {lenLine : Text} {e : Failure}

/-- What one turn of the argument loop takes off the stream: the line in the
header's place and, if that is a length header, the payload with the two bytes
behind it. -/
structure Frame where
  line : Text
  content : Option (Bytes × Bytes)

/-- The turns of the argument loop. -/
def frames : Nat → Reader (List Frame)
  | 0 => return []
  | n + 1 => do
    let lenLine ← readLine
    if lenLine.head? ≠ some '$' then do
      let fs ← frames n
      return ⟨lenLine, none⟩ :: fs
    else do
      let content ← readPayload lenLine
      let fs ← frames n
      return ⟨lenLine, some content⟩ :: fs

/-- A turn of the argument loop comes to a length line, with these bytes behind it. -/
def ReachesTurn (n : Nat) (bytes : Bytes) (lenLine : Text) (rest : Bytes) : Prop :=
  ∃ k fs rest₁, k < n ∧ frames k bytes = .ok (fs, rest₁) ∧ readLine rest₁ = .ok (lenLine, rest) ∧
    lenLine.head? = some '$'

/-- The loop fails as the turn does. -/
theorem readArgs_of_turn (h : ReachesTurn n bytes lenLine rest)
    (he : readPayload lenLine rest = .error e) :
    readArgs n bytes = .error e := by
  obtain ⟨k, fs, rest₁, hk, hfs, hline, hd⟩ := h
  induction k generalizing n bytes fs with
  | zero =>
    cases hfs
    obtain ⟨n, rfl⟩ := Nat.exists_eq_add_one.mpr hk
    rw [readArgs, bind_of_ok hline, if_neg (not_not.mpr hd)]
    exact bind_of_error he
  | succ k ih =>
    obtain ⟨n, rfl⟩ := Nat.exists_eq_add_one.mpr (Nat.zero_lt_of_lt hk)
    obtain ⟨line, rest₂, hfirst, hfs⟩ := bind_eq_ok.mp hfs
    rw [readArgs, bind_of_ok hfirst]
    by_cases hskip : line.head? ≠ some '$'
    · rw [if_pos hskip] at hfs ⊢
      obtain ⟨fs', rest₃, hfs', hret⟩ := bind_eq_ok.mp hfs
      cases hret
      exact ih fs' (Nat.lt_of_succ_lt_succ hk) hfs'
    · rw [if_neg hskip] at hfs ⊢
      obtain ⟨content, rest₃, hc, hfs⟩ := bind_eq_ok.mp hfs
      obtain ⟨fs', rest₄, hfs', hret⟩ := bind_eq_ok.mp hfs
      cases hret
      rw [bind_of_ok hc]
      exact bind_of_error (ih fs' (Nat.lt_of_succ_lt_succ hk) hfs')

/-- The loop panics in a turn only. -/
theorem readArgs_eq_panic (h : readArgs n bytes = .error .panic) :
    ∃ lenLine rest, ReachesTurn n bytes lenLine rest ∧
      readPayload lenLine rest = .error .panic := by
  induction n generalizing bytes with
  | zero => cases h
  | succ n ih =>
    rcases bind_eq_error h with hline | ⟨line, rest₁, hline, h⟩
    · unfold readLine at hline
      split at hline <;> cases hline
    by_cases hd : line.head? ≠ some '$'
    · rw [if_pos hd] at h
      obtain ⟨lenLine, rest, ⟨k, fs, rest₂, hk, hfs, hturn⟩, hpanic⟩ := ih h
      refine ⟨lenLine, rest, ⟨k + 1, ⟨line, none⟩ :: fs, rest₂, by omega, ?_, hturn⟩, hpanic⟩
      rw [frames, bind_of_ok hline, if_pos hd, bind_of_ok hfs]
      rfl
    · rw [if_neg hd] at h
      rcases bind_eq_error h with hpanic | ⟨content, rest₂, hc, h⟩
      · exact ⟨line, rest₁, ⟨0, [], bytes, by omega, rfl, hline, not_not.mp hd⟩, hpanic⟩
      · rcases bind_eq_error h with h | ⟨args, rest₃, -, hret⟩
        · obtain ⟨lenLine, rest, ⟨k, fs, rest₃, hk, hfs, hturn⟩, hpanic⟩ := ih h
          refine ⟨lenLine, rest, ⟨k + 1, ⟨line, some content⟩ :: fs, rest₃, by omega, ?_, hturn⟩,
            hpanic⟩
          rw [frames, bind_of_ok hline, if_neg hd, bind_of_ok hc, bind_of_ok hfs]
          rfl
        · cases hret

end Turns

section Requests
variable {input : Bytes}

/-- The first line opens an array, and what its number is. -/
def Opens (input : Bytes) (count : Option Nat) (rest : Bytes) : Prop :=
  ∃ line, readLine input = .ok (line, rest) ∧ line.head? = some '*' ∧ headerNumber '*' line = count

/-- The read comes to a length line, and what its number is. -/
def ReachesLength (input : Bytes) (len : Option Nat) : Prop :=
  ∃ count rest lenLine rest', Opens input (some count) rest ∧ count * bytesSize ≤ isizeMax ∧
    ReachesTurn count rest lenLine rest' ∧ headerNumber '$' lenLine = len

/-- The read of a request cannot panic: no vector or slice is out of bounds, no
sum wraps, and a size that is no number is an error. -/
structure NeverPanics (input : Bytes) : Prop where
  safe : readResp input ≠ .error .panic
  sums : ∀ len, ReachesLength input (some len) → len + 2 < 2 ^ 64
  malformed : (∃ rest, Opens input none rest) ∨ ReachesLength input none →
    readResp input = .error .err

theorem readResp_of_opens {count : Nat} {rest : Bytes} (h : Opens input (some count) rest) :
    readResp input = if count * bytesSize > isizeMax then .error .panic
      else readArgs count rest := by
  obtain ⟨line, hline, hstar, hnum⟩ := h
  rw [readResp, bind_of_ok hline, if_neg (not_not.mpr hstar),
    bind_of_ok (parseHeader_eq_ok.mpr ⟨hnum, rfl⟩)]
  split <;> rfl

theorem readResp_eq_panic (h : readResp input = .error .panic) :
    ∃ count rest, Opens input (some count) rest ∧
    (isizeMax < count * bytesSize ∨ count * bytesSize ≤ isizeMax ∧
      readArgs count rest = .error .panic) := by
  rcases bind_eq_error h with hline | ⟨line, rest, hline, hread⟩
  · unfold readLine at hline
    split at hline <;> cases hline
  by_cases hstar : line.head? ≠ some '*'
  · rw [if_pos hstar] at hread
    cases hread
  rw [if_neg hstar] at hread
  rcases bind_eq_error hread with hp | ⟨count, rest', hp, -⟩
  · exact absurd hp parseHeader_ne_panic
  · obtain ⟨hnum, -⟩ := parseHeader_eq_ok.mp hp
    have hopens : Opens input (some count) rest := ⟨line, hline, not_not.mp hstar, hnum⟩
    refine ⟨count, rest, hopens, ?_⟩
    rw [readResp_of_opens hopens] at h
    split at h
    · exact Or.inl (by omega)
    · exact Or.inr ⟨by omega, h⟩

theorem readResp_malformed (h : (∃ rest, Opens input none rest) ∨ ReachesLength input none) :
    readResp input = .error .err := by
  rcases h with ⟨rest, line, hline, hstar, hnum⟩ | ⟨count, rest, lenLine, rest', hopens, hcap,
    hturn, hnum⟩
  · rw [readResp, bind_of_ok hline, if_neg (not_not.mpr hstar)]
    exact bind_of_error (parseHeader_malformed hnum)
  · rw [readResp_of_opens hopens, if_neg (by omega)]
    exact readArgs_of_turn hturn (bind_of_error (parseHeader_malformed hnum))

/-- Exactly when a read cannot panic: if every size it comes to is one that a
vector can have. -/
theorem neverPanics_iff : NeverPanics input ↔
    (∀ count rest, Opens input (some count) rest → count * bytesSize ≤ isizeMax) ∧
    ∀ len, ReachesLength input (some len) → len + 2 ≤ isizeMax := by
  constructor
  · intro h
    constructor
    · intro count rest hopens
      by_contra hover
      exact h.safe (by rw [readResp_of_opens hopens, if_pos (by omega)])
    · rintro len hlen
      by_contra hover
      have hsum := h.sums len hlen
      obtain ⟨count, rest, lenLine, rest', hopens, hcap, hturn, hnum⟩ := hlen
      refine h.safe ?_
      rw [readResp_of_opens hopens, if_neg (by omega)]
      exact readArgs_of_turn hturn (readPayload_panics hnum hsum (by omega))
  · rintro ⟨hcounts, hlens⟩
    refine ⟨fun hpanic => ?_, fun len hlen => ?_, readResp_malformed⟩
    · obtain ⟨count, rest, hopens, hover | ⟨hcap, hargs⟩⟩ := readResp_eq_panic hpanic
      · exact absurd (hcounts count rest hopens) (by omega)
      · obtain ⟨lenLine, rest', hturn, hpayload⟩ := readArgs_eq_panic hargs
        obtain ⟨len, hnum, hover⟩ := readPayload_eq_panic hpayload
        exact absurd (hlens len ⟨count, rest, lenLine, rest', hopens, hcap, hturn, hnum⟩) (by omega)
    · have hfits := hlens len hlen
      unfold isizeMax at hfits
      omega

/-- `*9223372036854775807`, before any authentication: no vector has room for that
many arguments. -/
theorem readResp_panics : ¬ ∀ input, NeverPanics input := by
  intro h
  have hdigits : Decimal.digits? "9223372036854775807".toList = some 9223372036854775807 := by
    decide
  have hline := readLine_header (show '*' ≠ '\n' by decide) hdigits []
  have hnum : headerNumber '*' (header '*' "9223372036854775807".toList) =
      some 9223372036854775807 := by
    rw [headerNumber_header rfl hdigits, if_pos (by omega)]
  refine (h _).safe ((readResp_of_opens ⟨_, hline, rfl, hnum⟩).trans (if_pos (by decide)))

end Requests

end TitanKv
