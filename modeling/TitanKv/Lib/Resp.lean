import Mathlib.Data.List.Chain
import TitanKv.Lib.Decimal

/-! # The RESP wire format

Values, their encoding, and a decoder that reads one value off the front of a
stream. Simple strings, errors, integers and the headers of bulk strings and
arrays are lines that end in CRLF; a bulk string has its length in the header
and may hold any bytes. Decoding an encoded value gives it back and stops at its
end, whatever follows. -/

namespace Resp
open Utf8

inductive Value where
  | simple (line : Bytes)
  | error (line : Bytes)
  | integer (z : Int)
  | nil
  | bulk (val : Bytes)
  | array (items : List Value)

def number (z : Int) : Bytes := encode (Decimal.printInt z)

/-- A tag, a line and its terminator. -/
def frame (tag : UInt8) (line : Bytes) : Bytes := tag :: (line ++ [13, 10])

namespace Value

mutual

def encode : Value → Bytes
  | .simple line => frame 43 line
  | .error line => frame 45 line
  | .integer z => frame 58 (number z)
  | .nil => frame 36 (number (-1))
  | .bulk val => frame 36 (number val.length) ++ (val ++ [13, 10])
  | .array items => frame 42 (number items.length) ++ encodeAll items

def encodeAll : List Value → Bytes
  | [] => []
  | v :: vs => encode v ++ encodeAll vs

end

mutual

/-- Lines hold neither a carriage return nor a newline. -/
def Sound : Value → Prop
  | .simple line => 13 ∉ line ∧ 10 ∉ line
  | .error line => 13 ∉ line ∧ 10 ∉ line
  | .array items => SoundAll items
  | _ => True

def SoundAll : List Value → Prop
  | [] => True
  | v :: vs => Sound v ∧ SoundAll vs

end

mutual

def depth : Value → Nat
  | .array items => depthAll items + 1
  | _ => 1

def depthAll : List Value → Nat
  | [] => 0
  | v :: vs => max (depth v) (depthAll vs)

end

end Value

section Decoder

/-- The bytes before the first CRLF and those after it. -/
def takeLine : Bytes → Option (Bytes × Bytes)
  | [] => none
  | b :: rest =>
    if b = 13 ∧ rest.head? = some 10 then some ([], rest.tail)
    else (takeLine rest).map fun r => (b :: r.1, r.2)

/-- An optional minus sign and the digits. -/
def signed? : Text → Option Int
  | '-' :: ds => (Decimal.digits? ds).map fun n : Nat => -(n : Int)
  | ds => (Decimal.digits? ds).map fun n : Nat => (n : Int)

def integer? (line : Bytes) : Option Int := (decode? line).bind signed?

/-- A payload of the announced length and its terminator. -/
def takePayload (len : Nat) (bytes : Bytes) : Option (Bytes × Bytes) :=
  if (bytes.drop len).take 2 = [13, 10] ∧ len ≤ bytes.length then
    some (bytes.take len, bytes.drop (len + 2))
  else none

/-- As many values as announced, one after another. -/
def decodeItems (item : Bytes → Option (Value × Bytes)) : Nat → Bytes → Option (List Value × Bytes)
  | 0, bytes => some ([], bytes)
  | n + 1, bytes => (item bytes).bind fun r =>
    (decodeItems item n r.2).map fun q => (r.1 :: q.1, q.2)

/-- A header that counts something: `-1` stands for the nil value. -/
def counted (line rest : Bytes) (k : Nat → Option (Value × Bytes)) : Option (Value × Bytes) :=
  (integer? line).bind fun z =>
    if z = -1 then some (.nil, rest) else if 0 ≤ z then k z.toNat else none

def decodeFuel : Nat → Bytes → Option (Value × Bytes)
  | 0, _ => none
  | _ + 1, [] => none
  | fuel + 1, tag :: body => (takeLine body).bind fun r =>
    if tag = 43 then some (.simple r.1, r.2)
    else if tag = 45 then some (.error r.1, r.2)
    else if tag = 58 then (integer? r.1).map fun z => (.integer z, r.2)
    else if tag = 36 then counted r.1 r.2 fun len =>
      (takePayload len r.2).map fun q => (.bulk q.1, q.2)
    else if tag = 42 then counted r.1 r.2 fun count =>
      (decodeItems (decodeFuel fuel) count r.2).map fun q => (.array q.1, q.2)
    else none

/-- One value off the front of a stream; a value is no deeper than it is long. -/
def decode (bytes : Bytes) : Option (Value × Bytes) := decodeFuel bytes.length bytes

end Decoder

theorem Value.encodeAll_eq_flatMap (vs : List Value) : encodeAll vs = vs.flatMap encode := by
  induction vs with
  | nil => rfl
  | cons v vs ih => rw [encodeAll, ih, List.flatMap_cons]

section RoundTrip
variable {line rest : Bytes}

theorem takeLine_append (h : 13 ∉ line) :
    takeLine (line ++ 13 :: 10 :: rest) = some (line, rest) := by
  induction line with
  | nil => simp [takeLine]
  | cons b line ih =>
    obtain ⟨hb, hline⟩ := not_or.mp (mt List.mem_cons.mpr h)
    simp [takeLine, Ne.symm hb, ih hline]

theorem carriageReturn_notMem_number (z : Int) : 13 ∉ number z := by
  intro h
  have hmem : '\r' ∈ Decimal.printInt z := ascii_mem_encode (a := '\r') (by decide) h
  rcases Decimal.mem_printInt hmem with hc | hc
  · cases hc
  · cases hc

theorem signed?_printInt (z : Int) : signed? (Decimal.printInt z) = some z := by
  unfold Decimal.printInt
  split
  · have hz : -(z.natAbs : Int) = z := by omega
    rw [signed?, Decimal.digits?_printNat, Option.map_some, hz]
  · have hz : (z.natAbs : Int) = z := by omega
    unfold signed?
    split
    · rename_i ds hds
      have hd : ('-').isDigit = true :=
        Decimal.isDigit_of_mem_printNat (n := z.natAbs) (by simp [hds])
      cases hd
    · rw [Decimal.digits?_printNat, Option.map_some, hz]

@[simp] theorem integer?_number (z : Int) : integer? (number z) = some z := by
  rw [integer?, number, decode?_encode, Option.bind_some, signed?_printInt]

theorem takePayload_append (val rest : Bytes) :
    takePayload val.length (val ++ 13 :: 10 :: rest) = some (val, rest) := by
  simp [takePayload]

theorem counted_natCast (n : Nat) (k : Nat → Option (Value × Bytes)) :
    counted (number n) rest k = k n := by
  simp [counted]

mutual

theorem Value.depth_le_length : (v : Value) → v.depth ≤ v.encode.length
  | .simple line | .error line => by simp [depth, encode, frame]
  | .integer z | .nil => by simp [depth, encode, frame]
  | .bulk val => by simp [depth, encode, frame]
  | .array items => by
    have := depthAll_le_length items
    simp [depth, encode, frame]
    omega

theorem Value.depthAll_le_length : (vs : List Value) → depthAll vs ≤ (encodeAll vs).length
  | [] => Nat.le_refl _
  | v :: vs => by
    have hv := depth_le_length v
    have hvs := depthAll_le_length vs
    simp only [depthAll, encodeAll, List.length_append]
    omega

end

mutual

theorem Value.decodeFuel_encode : (v : Value) → v.Sound → ∀ {fuel : Nat}, v.depth ≤ fuel →
    ∀ rest, decodeFuel fuel (v.encode ++ rest) = some (v, rest)
  | .array items, hv, fuel, hfuel, rest => by
    obtain ⟨n, rfl⟩ := Nat.exists_eq_add_of_le' hfuel
    have hitems :=
      decodeItems_encodeAll items hv (show depthAll items ≤ n + depthAll items by omega) rest
    show decodeFuel (n + depthAll items + 1) _ = _
    simp [encode, frame, decodeFuel, takeLine_append (carriageReturn_notMem_number _),
      counted_natCast, hitems]
  | .bulk val, _, fuel + 1, _, rest => by
    simp [encode, frame, decodeFuel, takeLine_append (carriageReturn_notMem_number _),
      counted_natCast, takePayload_append]
  | .simple line, hv, fuel + 1, _, rest => by
    simp [encode, frame, decodeFuel, takeLine_append hv.1]
  | .error line, hv, fuel + 1, _, rest => by
    simp [encode, frame, decodeFuel, takeLine_append hv.1]
  | .integer z, _, fuel + 1, _, rest => by
    simp [encode, frame, decodeFuel, takeLine_append (carriageReturn_notMem_number _)]
  | .nil, _, fuel + 1, _, rest => by
    simp [encode, frame, decodeFuel, takeLine_append (carriageReturn_notMem_number _), counted]

theorem Value.decodeItems_encodeAll : (vs : List Value) → SoundAll vs → ∀ {fuel : Nat},
    depthAll vs ≤ fuel → ∀ rest,
    decodeItems (decodeFuel fuel) vs.length (encodeAll vs ++ rest) = some (vs, rest)
  | [], _, _, _, _ => rfl
  | v :: vs, hvs, fuel, hfuel, rest => by
    simp only [depthAll] at hfuel
    have hv := decodeFuel_encode v hvs.1 (show v.depth ≤ fuel by omega) (encodeAll vs ++ rest)
    have hrest := decodeItems_encodeAll vs hvs.2 (show depthAll vs ≤ fuel by omega) rest
    simp [encodeAll, decodeItems, hv, hrest]

end

/-- Decoding an encoded value gives it back and leaves what follows. -/
theorem decode_encode {v : Value} (hv : v.Sound) (rest : Bytes) :
    decode (v.encode ++ rest) = some (v, rest) := by
  refine v.decodeFuel_encode hv ?_ rest
  have := v.depth_le_length
  rw [List.length_append]
  omega

end RoundTrip

section Unique
variable {v w : Value} {vs ws : List Value}

/-- A value is told apart from what follows it in one way only. -/
theorem encode_append_inj (hv : v.Sound) (hw : w.Sound) {rest rest' : Bytes}
    (h : v.encode ++ rest = w.encode ++ rest') : v = w ∧ rest = rest' := by
  have hdec := decode_encode hv rest
  rw [h, decode_encode hw] at hdec
  obtain ⟨rfl, rfl⟩ := Prod.mk.inj (Option.some.inj hdec)
  exact ⟨rfl, rfl⟩

theorem encode_ne_nil (v : Value) : v.encode ≠ [] := by
  cases v <;> simp [Value.encode, frame]

theorem encodeAll_inj (hv : Value.SoundAll vs) (hw : Value.SoundAll ws)
    (h : Value.encodeAll vs = Value.encodeAll ws) : vs = ws := by
  induction vs generalizing ws with
  | nil =>
    cases ws with
    | nil => rfl
    | cons w ws => exact absurd (List.append_eq_nil_iff.mp h.symm).1 (encode_ne_nil w)
  | cons v vs ih =>
    cases ws with
    | nil => exact absurd (List.append_eq_nil_iff.mp h).1 (encode_ne_nil v)
    | cons w ws =>
      obtain ⟨rfl, hrest⟩ := encode_append_inj hv.1 hw.1 h
      rw [ih hv.2 hw.2 hrest]

theorem frame_number_inj {tag : UInt8} {z y : Int} {rest rest' : Bytes}
    (h : frame tag (number z) ++ rest = frame tag (number y) ++ rest') : z = y ∧ rest = rest' := by
  have hline : number z ++ 13 :: 10 :: rest = number y ++ 13 :: 10 :: rest' := by
    simpa [frame] using h
  have hcut : takeLine (number z ++ 13 :: 10 :: rest) = _ :=
    takeLine_append (carriageReturn_notMem_number z)
  rw [hline, takeLine_append (carriageReturn_notMem_number y)] at hcut
  obtain ⟨hnum, rfl⟩ := Prod.mk.inj (Option.some.inj hcut)
  have hz := integer?_number z
  rw [← hnum, integer?_number] at hz
  exact ⟨(Option.some.inj hz).symm, rfl⟩

end Unique

section Stream
variable {line rest : Bytes} {lines : List Bytes}

/-- There is no CRLF within the line. -/
def OneLine (line : Bytes) : Prop := line.IsChain fun a b => ¬ (a = 13 ∧ b = 10)

instance : Decidable (OneLine line) := inferInstanceAs (Decidable (List.IsChain _ _))

theorem oneLine_cons {b : UInt8} (h : b ≠ 13) : OneLine (b :: line) ↔ OneLine line := by
  rw [OneLine, List.isChain_cons]
  exact and_iff_right fun _ _ hb => h hb.1

theorem oneLine_append (h : rest.head? ≠ some 10) :
    OneLine (line ++ rest) ↔ OneLine line ∧ OneLine rest := by
  rw [OneLine, List.isChain_append]
  refine and_congr_right fun _ => and_iff_left fun a _ b hb hcrlf => h ?_
  rw [Option.mem_def.mp hb, hcrlf.2]

theorem takeLine_some {bytes : Bytes} (h : takeLine bytes = some (line, rest)) :
    bytes = line ++ 13 :: 10 :: rest := by
  induction bytes generalizing line with
  | nil => cases h
  | cons b bytes ih =>
    unfold takeLine at h
    split at h
    · rename_i hcrlf
      obtain ⟨rfl, hhead⟩ := hcrlf
      obtain ⟨rfl, rfl⟩ := Prod.mk.inj (Option.some.inj h)
      obtain ⟨tail, rfl⟩ := List.head?_eq_some_iff.mp hhead
      rfl
    · obtain ⟨⟨line', rest'⟩, htail, heq⟩ := Option.map_eq_some_iff.mp h
      obtain ⟨rfl, rfl⟩ := Prod.mk.inj heq
      rw [ih htail]
      rfl

/-- A line is read back exactly if it is one. -/
theorem takeLine_append_iff :
    takeLine (line ++ 13 :: 10 :: rest) = some (line, rest) ↔ OneLine line := by
  induction line with
  | nil => exact iff_of_true (by simp [takeLine]) .nil
  | cons b line ih =>
    have hhead : (line ++ 13 :: 10 :: rest).head? = some 10 ↔ line.head? = some 10 := by
      cases line <;> simp
    rw [OneLine, List.isChain_cons, ← OneLine, ← ih, List.cons_append, takeLine]
    split
    · rename_i hcrlf
      exact iff_of_false (by simp) fun h => h.1 10 (hhead.mp hcrlf.2) ⟨hcrlf.1, rfl⟩
    · rename_i hnot
      rw [and_iff_right fun y hy hcrlf => hnot ⟨hcrlf.1,
        hhead.mpr (by rw [Option.mem_def.mp hy, hcrlf.2])⟩]
      cases takeLine (line ++ 13 :: 10 :: rest) <;> simp [Prod.ext_iff]

theorem oneLine_of_notMem (h : 13 ∉ line) : OneLine line :=
  (@takeLine_append_iff line []).mp (takeLine_append h)

theorem decode_simple (body : Bytes) :
    decode (43 :: body) = (takeLine body).map fun r => (.simple r.1, r.2) := by
  rw [decode, List.length_cons, decodeFuel]
  cases takeLine body <;> rfl

theorem decode_frame_iff :
    decode (frame 43 line ++ rest) = some (.simple line, rest) ↔ OneLine line := by
  rw [frame, List.cons_append, List.append_assoc, decode_simple, ← @takeLine_append_iff line rest]
  change Option.map _ (takeLine (line ++ 13 :: 10 :: rest)) = _ ↔ _
  cases takeLine (line ++ 13 :: 10 :: rest) <;> simp [Prod.ext_iff]

def decodeAllFuel : Nat → Bytes → List Value
  | 0, _ => []
  | fuel + 1, bytes => match decode bytes with
    | some (v, rest) => v :: decodeAllFuel fuel rest
    | none => []

/-- The values off the front of a stream, one after another, up to what is none. -/
def decodeAll (bytes : Bytes) : List Value := decodeAllFuel bytes.length bytes

theorem decodeAllFuel_frames_iff {fuel : Nat} (h : lines.length ≤ fuel) :
    decodeAllFuel fuel (lines.flatMap (frame 43)) = lines.map .simple ↔
      ∀ line ∈ lines, OneLine line := by
  induction lines generalizing fuel with
  | nil =>
    refine iff_of_true ?_ (by simp)
    cases fuel <;> rfl
  | cons line lines ih =>
    obtain ⟨n, rfl⟩ := Nat.exists_eq_add_of_le' h
    rw [List.length_cons, ← Nat.add_assoc, decodeAllFuel, List.flatMap_cons, List.map_cons,
      List.forall_mem_cons]
    by_cases hline : OneLine line
    · rw [decode_frame_iff.mpr hline]
      simp only [List.cons.injEq, true_and, hline]
      exact ih (Nat.le_add_left ..)
    · refine iff_of_false (fun heq => hline ?_) fun h => hline h.1
      split at heq
      · rename_i v rest hdec
        obtain ⟨rfl, -⟩ := List.cons.inj heq
        rw [frame, List.cons_append, decode_simple, Option.map_eq_some_iff] at hdec
        obtain ⟨⟨line', rest'⟩, hcut, hpair⟩ := hdec
        obtain ⟨hl, rfl⟩ := Prod.mk.inj hpair
        obtain rfl := Value.simple.inj hl
        have happend := takeLine_some hcut
        rw [List.append_assoc] at happend
        obtain ⟨-, hrest⟩ := List.append_inj happend rfl
        rw [List.append_assoc, show [13, 10] ++ lines.flatMap (frame 43) =
          13 :: 10 :: lines.flatMap (frame 43) from rfl] at hcut
        rw [← takeLine_append_iff, hcut]
        cases hrest
        rfl
      · cases heq

/-- A stream of simple strings is read back exactly if each is one line. -/
theorem decodeAll_frames_iff :
    decodeAll (lines.flatMap (frame 43)) = lines.map .simple ↔ ∀ line ∈ lines, OneLine line := by
  refine decodeAllFuel_frames_iff ?_
  induction lines with
  | nil => exact Nat.le_refl _
  | cons line lines ih =>
    simp only [List.flatMap_cons, List.length_append, List.length_cons, frame]
    omega

end Stream

end Resp
