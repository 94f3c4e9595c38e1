import TitanKv.Engine

/-! # The command language

Commands, the tokenizer for raw text lines and the parser from argument lists.
The tokenizer runs over characters and returns the bytes of each token; a quote
toggles the quoting state and never reaches a token. -/

namespace TitanKv
open Utf8

inductive Command where
  | auth (password : Text)
  | ping
  | set (key value : Bytes)
  | get (key : Bytes)
  | del (key : Bytes)
  | exists (key : Bytes)
  | incr (key : Bytes)
  | setEx (key : Bytes) (seconds : Int) (value : Bytes)
  | publish (channel message : Bytes)
  | subscribe (channel : Bytes)
  | unsubscribe (channel : Bytes)
  | lPush (key value : Bytes)
  | lPop (key : Bytes)
  | rPop (key : Bytes)
  | rPush (key value : Bytes)
  | rPopLPush (source destination : Bytes)
  | lRem (key : Bytes) (count : Int) (value : Bytes)
  | lTrim (key : Bytes) (start stop : Int)
  | lRange (key : Bytes) (start stop : Int)
  | hSet (key field value : Bytes)
  | hGetAll (key : Bytes)
  | hGet (key field : Bytes)
  | mGet (keyA keyB : Bytes)
  | sAdd (key member : Bytes)
  | sInter (keyA keyB : Bytes)
  | keys (pattern : Bytes)
  | scan (cursor : Nat) (matchPattern : Option Bytes)
  | info
  | type (key : Bytes)
  | ttl (key : Bytes)
  | pttl (key : Bytes)
  | clientList
  | client
  | monitor
  | memory
  | llen (key : Bytes)
  | hlen (key : Bytes)
  | scard (key : Bytes)
  | sMembers (key : Bytes)
  | strlen (key : Bytes)
  | dbSize
  | unknown
  deriving DecidableEq

/-- The command words of the parser's match. -/
inductive Verb where
  | auth | ping | get | set | del | exists | incr | setEx | publish | subscribe | unsubscribe
  | lPush | lPop | rPop | rPush | rPopLPush | lRem | lTrim | lRange | hSet | hGetAll | hGet | mGet
  | sAdd | sInter | keys | scan | monitor | info | type | ttl | pttl | memory | llen | hlen | scard
  | sMembers | client | strlen | dbSize
  deriving DecidableEq

namespace Verb

def name : Verb → String
  | auth => "AUTH" | ping => "PING" | get => "GET" | set => "SET" | del => "DEL"
  | .exists => "EXISTS" | incr => "INCR" | setEx => "SETEX" | publish => "PUBLISH"
  | subscribe => "SUBSCRIBE" | unsubscribe => "UNSUBSCRIBE" | lPush => "LPUSH" | lPop => "LPOP"
  | rPop => "RPOP" | rPush => "RPUSH" | rPopLPush => "RPOPLPUSH" | lRem => "LREM"
  | lTrim => "LTRIM" | lRange => "LRANGE" | hSet => "HSET" | hGetAll => "HGETALL" | hGet => "HGET"
  | mGet => "MGET" | sAdd => "SADD" | sInter => "SINTER" | keys => "KEYS" | scan => "SCAN"
  | monitor => "MONITOR" | info => "INFO" | type => "TYPE" | ttl => "TTL" | pttl => "PTTL"
  | memory => "MEMORY" | llen => "LLEN" | hlen => "HLEN" | scard => "SCARD"
  | sMembers => "SMEMBERS" | client => "CLIENT" | strlen => "STRLEN" | dbSize => "DBSIZE"

def all : List Verb :=
  [auth, ping, get, set, del, .exists, incr, setEx, publish, subscribe, unsubscribe, lPush, lPop,
   rPop, rPush, rPopLPush, lRem, lTrim, lRange, hSet, hGetAll, hGet, mGet, sAdd, sInter, keys, scan,
   monitor, info, type, ttl, pttl, memory, llen, hlen, scard, sMembers, client, strlen, dbSize]

def of? (cmd : Bytes) : Option Verb := all.find? fun v => lit v.name = cmd

theorem mem_all (v : Verb) : v ∈ all := by cases v <;> decide

theorem names_nodup : (all.map name).Nodup := by decide

theorem name_injective {v w : Verb} (h : v.name = w.name) : v = w :=
  List.inj_on_of_nodup_map names_nodup (mem_all v) (mem_all w) h

theorem lit_injective {s t : String} (h : lit s = lit t) : s = t :=
  String.toList_inj.mp (encode_injective h)

@[simp] theorem of?_lit (v : Verb) : of? (lit v.name) = some v := by
  cases hf : of? (lit v.name) with
  | none => exact absurd (List.find?_eq_none.mp hf v (mem_all v)) (by simp)
  | some w =>
    have hw : lit w.name = lit v.name := by simpa using List.find?_some hf
    rw [name_injective (lit_injective hw)]

theorem of?_eq_some {cmd : Bytes} {v : Verb} (h : of? cmd = some v) : cmd = lit v.name := by
  have hv : lit v.name = cmd := by simpa using List.find?_some h
  exact hv.symm

end Verb

/-- `u8::to_ascii_uppercase`. -/
def toAsciiUppercase (b : UInt8) : UInt8 := if 97 ≤ b ∧ b ≤ 122 then b - 32 else b

def uppercase (b : Bytes) : Bytes := b.map toAsciiUppercase

section FromUtf8Lossy

def isContinuation (b : UInt8) : Bool := 0x80 ≤ b && b ≤ 0xBF

/-- The length of the sequence a lead byte announces; 0 if it is none. -/
def sequenceWidth (b : UInt8) : Nat :=
  if b < 0x80 then 1 else if 0xC2 ≤ b ∧ b ≤ 0xDF then 2
  else if 0xE0 ≤ b ∧ b ≤ 0xEF then 3 else if 0xF0 ≤ b ∧ b ≤ 0xF4 then 4 else 0

/-- The second bytes that neither overlong forms nor surrogates use. -/
def secondByte (lead b : UInt8) : Bool :=
  if lead = 0xE0 then 0xA0 ≤ b && b ≤ 0xBF else if lead = 0xED then 0x80 ≤ b && b ≤ 0x9F
  else if lead = 0xF0 then 0x90 ≤ b && b ≤ 0xBF else if lead = 0xF4 then 0x80 ≤ b && b ≤ 0x8F
  else isContinuation b

def scalar (lead : Nat) (continuation : Bytes) : Char :=
  Char.ofNat (continuation.foldl (fun n b => n * 64 + b.toNat % 64) lead)

/-- `String::from_utf8_lossy`: each maximal ill-formed part becomes U+FFFD. -/
def fromUtf8Lossy : Bytes → Text
  | [] => []
  | [b] => [if b < 0x80 then scalar b.toNat [] else '\uFFFD']
  | b :: c :: rest =>
    if sequenceWidth b = 1 then scalar b.toNat [] :: fromUtf8Lossy (c :: rest)
    else if sequenceWidth b = 0 ∨ ¬ secondByte b c then '\uFFFD' :: fromUtf8Lossy (c :: rest)
    else if sequenceWidth b = 2 then scalar (b.toNat % 32) [c] :: fromUtf8Lossy rest
    else match rest with
      | [] => ['\uFFFD']
      | d :: rest =>
        if ¬ isContinuation d then '\uFFFD' :: fromUtf8Lossy (d :: rest)
        else if sequenceWidth b = 3 then scalar (b.toNat % 16) [c, d] :: fromUtf8Lossy rest
        else match rest with
          | [] => ['\uFFFD']
          | e :: rest =>
            if ¬ isContinuation e then '\uFFFD' :: fromUtf8Lossy (e :: rest)
            else scalar (b.toNat % 8) [c, d, e] :: fromUtf8Lossy rest

variable {b c d e : UInt8}

theorem fromUtf8Lossy_one (hb : b < 0x80) (rest : Bytes) :
    fromUtf8Lossy (b :: rest) = scalar b.toNat [] :: fromUtf8Lossy rest := by
  have hwidth : sequenceWidth b = 1 := if_pos hb
  cases rest with
  | nil => rw [fromUtf8Lossy, fromUtf8Lossy, if_pos hb]
  | cons c rest =>
    rw [fromUtf8Lossy.eq_def]
    simp [hwidth]

theorem fromUtf8Lossy_two (hb : sequenceWidth b = 2) (hc : secondByte b c = true) (rest : Bytes) :
    fromUtf8Lossy (b :: c :: rest) = scalar (b.toNat % 32) [c] :: fromUtf8Lossy rest := by
  rw [fromUtf8Lossy.eq_def]
  simp [hb, hc]

theorem fromUtf8Lossy_three (hb : sequenceWidth b = 3) (hc : secondByte b c = true)
    (hd : isContinuation d = true) (rest : Bytes) :
    fromUtf8Lossy (b :: c :: d :: rest) = scalar (b.toNat % 16) [c, d] :: fromUtf8Lossy rest := by
  rw [fromUtf8Lossy.eq_def]
  simp [hb, hc, hd]

theorem fromUtf8Lossy_four (hb : sequenceWidth b = 4) (hc : secondByte b c = true)
    (hd : isContinuation d = true) (he : isContinuation e = true) (rest : Bytes) :
    fromUtf8Lossy (b :: c :: d :: e :: rest) =
      scalar (b.toNat % 8) [c, d, e] :: fromUtf8Lossy rest := by
  rw [fromUtf8Lossy.eq_def]
  simp [hb, hc, hd, he]

theorem between_ofNat (lo hi : Nat) {n : Nat} (hlo : lo ≤ n) (hhi : n ≤ hi) (h : hi < 256) :
    (decide (UInt8.ofNat lo ≤ UInt8.ofNat n) && decide (UInt8.ofNat n ≤ UInt8.ofNat hi)) =
      true := by
  simp only [Bool.and_eq_true, decide_eq_true_eq, UInt8.le_iff_toNat_le, UInt8.toNat_ofNat']
  omega

theorem ofNat_eq_iff {n k : Nat} (hn : n < 256) (hk : k < 256) :
    UInt8.ofNat n = UInt8.ofNat k ↔ n = k := by
  rw [← UInt8.toNat_inj, UInt8.toNat_ofNat', UInt8.toNat_ofNat']
  omega

theorem isContinuation_ofNat {n : Nat} (h : n < 64) :
    isContinuation (UInt8.ofNat (n + 128)) = true :=
  between_ofNat 128 191 (n := n + 128) (by omega) (by omega) (by omega)

theorem sequenceWidth_ofNat {n : Nat} (h : n < 256) : sequenceWidth (UInt8.ofNat n) =
    if n < 128 then 1 else if 194 ≤ n ∧ n ≤ 223 then 2 else if 224 ≤ n ∧ n ≤ 239 then 3
    else if 240 ≤ n ∧ n ≤ 244 then 4 else 0 := by
  have hmod : n % 2 ^ 8 = n := Nat.mod_eq_of_lt h
  simp only [sequenceWidth, UInt8.le_iff_toNat_le, UInt8.lt_iff_toNat_lt, UInt8.toNat_ofNat', hmod]
  rfl

/-- Behind four of the lead bytes the second byte has a narrower range. -/
theorem secondByte_ofNat {n m : Nat} (hn : n < 256) (hm : m < 64) (h₁ : n = 224 → 32 ≤ m)
    (h₂ : n = 237 → m < 32) (h₃ : n = 240 → 16 ≤ m) (h₄ : n = 244 → m < 16) :
    secondByte (UInt8.ofNat n) (UInt8.ofNat (m + 128)) = true := by
  have hE0 : UInt8.ofNat n = 0xE0 ↔ n = 224 := ofNat_eq_iff (k := 224) hn (by omega)
  have hED : UInt8.ofNat n = 0xED ↔ n = 237 := ofNat_eq_iff (k := 237) hn (by omega)
  have hF0 : UInt8.ofNat n = 0xF0 ↔ n = 240 := ofNat_eq_iff (k := 240) hn (by omega)
  have hF4 : UInt8.ofNat n = 0xF4 ↔ n = 244 := ofNat_eq_iff (k := 244) hn (by omega)
  simp only [secondByte, hE0, hED, hF0, hF4]
  split
  · exact between_ofNat 160 191 (n := m + 128) (by omega) (by omega) (by omega)
  · split
    · exact between_ofNat 128 159 (n := m + 128) (by omega) (by omega) (by omega)
    · split
      · exact between_ofNat 144 191 (n := m + 128) (by omega) (by omega) (by omega)
      · split
        · exact between_ofNat 128 143 (n := m + 128) (by omega) (by omega) (by omega)
        · exact isContinuation_ofNat hm

theorem scalar_eq {c : Char} {lead : Nat} {continuation : Bytes}
    (h : continuation.foldl (fun n b => n * 64 + b.toNat % 64) lead = c.toNat) :
    scalar lead continuation = c := by
  rw [scalar, h, Char.ofNat_toNat]

theorem fromUtf8Lossy_encodeChar (c : Char) (rest : Bytes) :
    fromUtf8Lossy (String.utf8EncodeChar c ++ rest) = c :: fromUtf8Lossy rest := by
  have hvalid : c.val.toNat < 55296 ∨ 57343 < c.val.toNat ∧ c.val.toNat < 1114112 := c.valid
  have hn : c.toNat = c.val.toNat := rfl
  unfold String.utf8EncodeChar
  dsimp only
  split
  · rw [List.singleton_append, fromUtf8Lossy_one, scalar_eq]
    · rw [List.foldl_nil, UInt8.toNat_ofNat', hn]; omega
    · rw [UInt8.lt_iff_toNat_lt, UInt8.toNat_ofNat']; change _ < 128; omega
  · split
    · rw [List.cons_append, List.singleton_append, fromUtf8Lossy_two, scalar_eq]
      · simp only [List.foldl_cons, List.foldl_nil, UInt8.toNat_ofNat', hn]; omega
      · rw [sequenceWidth_ofNat (by omega), if_neg (by omega), if_pos (by omega)]
      · exact secondByte_ofNat (by omega) (by omega) (by omega) (by omega) (by omega) (by omega)
    · split
      · rw [List.cons_append, List.cons_append, List.singleton_append, fromUtf8Lossy_three,
          scalar_eq]
        · simp only [List.foldl_cons, List.foldl_nil, UInt8.toNat_ofNat', hn]; omega
        · rw [sequenceWidth_ofNat (by omega), if_neg (by omega), if_neg (by omega),
            if_pos (by omega)]
        · exact secondByte_ofNat (by omega) (by omega) (by omega) (by omega) (by omega) (by omega)
        · exact isContinuation_ofNat (by omega)
      · rw [List.cons_append, List.cons_append, List.cons_append, List.singleton_append,
          fromUtf8Lossy_four, scalar_eq]
        · simp only [List.foldl_cons, List.foldl_nil, UInt8.toNat_ofNat', hn]; omega
        · rw [sequenceWidth_ofNat (by omega), if_neg (by omega), if_neg (by omega),
            if_neg (by omega), if_pos (by omega)]
        · exact secondByte_ofNat (by omega) (by omega) (by omega) (by omega) (by omega) (by omega)
        · exact isContinuation_ofNat (by omega)
        · exact isContinuation_ofNat (by omega)

/-- Text is its own lossy decoding. -/
theorem fromUtf8Lossy_encode (t : Text) : fromUtf8Lossy (encode t) = t := by
  induction t with
  | nil => rw [encode_nil, fromUtf8Lossy]
  | cons c t ih => rw [encode_cons, fromUtf8Lossy_encodeChar, ih]

end FromUtf8Lossy

/-- `std::str::from_utf8(b).ok().and_then(|s| s.parse::<i64>().ok())`. -/
def parseI64 (b : Bytes) : Option Int := (decode? b).bind (Decimal.parseInt (-2 ^ 63) (2 ^ 63 - 1))
def parseI32 (b : Bytes) : Option Int := (decode? b).bind (Decimal.parseInt (-2 ^ 31) (2 ^ 31 - 1))
def parseUsize (b : Bytes) : Option Nat := (decode? b).bind (Decimal.parseNat (2 ^ 64 - 1))

/-- The pattern of `SCAN cursor MATCH pattern`; any other tail has none. -/
def scanPattern : List Bytes → Option Bytes
  | [keyword, pattern] => if uppercase keyword = lit "MATCH" then some pattern else none
  | _ => none

/-- The arms of the parser's match on the command word and the argument count. -/
def parseArgs : Option Verb → List Bytes → Command
  | some .auth, [password] => .auth (fromUtf8Lossy password)
  | some .ping, _ => .ping
  | some .get, [key] => .get key
  | some .set, [key, value] => .set key value
  | some .del, [key] => .del key
  | some .exists, [key] => .exists key
  | some .incr, [key] => .incr key
  | some .setEx, [key, seconds, value] =>
    match parseI64 seconds with
    | some seconds => .setEx key seconds value
    | none => .unknown
  | some .publish, [channel, message] => .publish channel message
  | some .subscribe, [channel] => .subscribe channel
  | some .unsubscribe, [channel] => .unsubscribe channel
  | some .lPush, [key, value] => .lPush key value
  | some .lPop, [key] => .lPop key
  | some .rPop, [key] => .rPop key
  | some .rPush, [key, value] => .rPush key value
  | some .rPopLPush, [source, destination] => .rPopLPush source destination
  | some .lRem, [key, count, value] => .lRem key ((parseI64 count).getD 1) value
  | some .lTrim, [key, start, stop] =>
    match parseI32 start, parseI32 stop with
    | some start, some stop => .lTrim key start stop
    | _, _ => .unknown
  | some .lRange, [key, start, stop] =>
    match parseI32 start, parseI32 stop with
    | some start, some stop => .lRange key start stop
    | _, _ => .unknown
  | some .hSet, [key, field, value] => .hSet key field value
  | some .hGetAll, [key] => .hGetAll key
  | some .hGet, [key, field] => .hGet key field
  | some .mGet, [keyA, keyB] => .mGet keyA keyB
  | some .sAdd, [key, member] => .sAdd key member
  | some .sInter, [keyA, keyB] => .sInter keyA keyB
  | some .keys, [pattern] => .keys pattern
  | some .scan, cursor :: rest => .scan ((parseUsize cursor).getD 0) (scanPattern rest)
  | some .monitor, [] => .monitor
  | some .info, _ => .info
  | some .type, [key] => .type key
  | some .ttl, [key] => .ttl key
  | some .pttl, [key] => .pttl key
  | some .memory, sub :: _ => if uppercase sub = lit "USAGE" then .memory else .unknown
  | some .llen, [key] => .llen key
  | some .hlen, [key] => .hlen key
  | some .scard, [key] => .scard key
  | some .sMembers, [key] => .sMembers key
  | some .client, sub :: _ => if uppercase sub = lit "LIST" then .clientList else .client
  | some .strlen, [key] => .strlen key
  | some .dbSize, _ => .dbSize
  | some .client, [] => .client
  | _, _ => .unknown

/-- What the word and the arguments of a parsed command were. -/
def Command.ParsedFrom (verb : Option Verb) (args : List Bytes) : Command → Prop
  | .auth password => verb = some .auth ∧ ∃ arg, args = [arg] ∧ fromUtf8Lossy arg = password
  | .ping => verb = some .ping
  | .get key => verb = some .get ∧ args = [key]
  | .set key value => verb = some .set ∧ args = [key, value]
  | .del key => verb = some .del ∧ args = [key]
  | .exists key => verb = some .exists ∧ args = [key]
  | .incr key => verb = some .incr ∧ args = [key]
  | .setEx key seconds value =>
    verb = some .setEx ∧ ∃ arg, args = [key, arg, value] ∧ parseI64 arg = some seconds
  | .publish channel message => verb = some .publish ∧ args = [channel, message]
  | .subscribe channel => verb = some .subscribe ∧ args = [channel]
  | .unsubscribe channel => verb = some .unsubscribe ∧ args = [channel]
  | .lPush key value => verb = some .lPush ∧ args = [key, value]
  | .lPop key => verb = some .lPop ∧ args = [key]
  | .rPop key => verb = some .rPop ∧ args = [key]
  | .rPush key value => verb = some .rPush ∧ args = [key, value]
  | .rPopLPush source destination => verb = some .rPopLPush ∧ args = [source, destination]
  | .lRem key count value =>
    verb = some .lRem ∧ ∃ arg, args = [key, arg, value] ∧ (parseI64 arg).getD 1 = count
  | .lTrim key start stop => verb = some .lTrim ∧
    ∃ arg arg', args = [key, arg, arg'] ∧ parseI32 arg = some start ∧ parseI32 arg' = some stop
  | .lRange key start stop => verb = some .lRange ∧
    ∃ arg arg', args = [key, arg, arg'] ∧ parseI32 arg = some start ∧ parseI32 arg' = some stop
  | .hSet key field value => verb = some .hSet ∧ args = [key, field, value]
  | .hGetAll key => verb = some .hGetAll ∧ args = [key]
  | .hGet key field => verb = some .hGet ∧ args = [key, field]
  | .mGet keyA keyB => verb = some .mGet ∧ args = [keyA, keyB]
  | .sAdd key member => verb = some .sAdd ∧ args = [key, member]
  | .sInter keyA keyB => verb = some .sInter ∧ args = [keyA, keyB]
  | .keys pattern => verb = some .keys ∧ args = [pattern]
  | .scan cursor matchPattern => verb = some .scan ∧
    ∃ arg rest, args = arg :: rest ∧ (parseUsize arg).getD 0 = cursor ∧
      scanPattern rest = matchPattern
  | .monitor => verb = some .monitor ∧ args = []
  | .info => verb = some .info
  | .type key => verb = some .type ∧ args = [key]
  | .ttl key => verb = some .ttl ∧ args = [key]
  | .pttl key => verb = some .pttl ∧ args = [key]
  | .memory => verb = some .memory ∧ ∃ sub rest, args = sub :: rest ∧ uppercase sub = lit "USAGE"
  | .llen key => verb = some .llen ∧ args = [key]
  | .hlen key => verb = some .hlen ∧ args = [key]
  | .scard key => verb = some .scard ∧ args = [key]
  | .sMembers key => verb = some .sMembers ∧ args = [key]
  | .clientList => verb = some .client ∧ ∃ sub rest, args = sub :: rest ∧ uppercase sub = lit "LIST"
  | .client => verb = some .client ∧ ∀ sub, args.head? = some sub → uppercase sub ≠ lit "LIST"
  | .strlen key => verb = some .strlen ∧ args = [key]
  | .dbSize => verb = some .dbSize
  | .unknown => True

theorem parsedFrom_parseArgs (verb : Option Verb) (args : List Bytes) :
    (parseArgs verb args).ParsedFrom verb args := by
  unfold parseArgs
  split
  all_goals try split
  all_goals
    first
    | trivial
    | exact ⟨rfl, rfl⟩
    | exact ⟨rfl, _, rfl, rfl⟩
    | exact ⟨rfl, _, rfl, by assumption⟩
    | exact ⟨rfl, _, _, rfl, rfl, rfl⟩
    | exact ⟨rfl, _, _, rfl, by assumption⟩
    | exact ⟨rfl, _, _, rfl, by assumption, by assumption⟩
    | exact ⟨rfl, fun _ hsub => Option.some.inj hsub ▸ by assumption⟩
section ParseArgs
variable {key seconds start stop value : Bytes} {z w : Int}

theorem parseArgs_setEx_of_some (h : parseI64 seconds = some z) :
    parseArgs (some .setEx) [key, seconds, value] = .setEx key z value := by
  change (match parseI64 seconds with
    | some seconds => Command.setEx key seconds value
    | none => .unknown) = _
  rw [h]

theorem parseArgs_setEx_of_none (h : parseI64 seconds = none) :
    parseArgs (some .setEx) [key, seconds, value] = .unknown := by
  change (match parseI64 seconds with
    | some seconds => Command.setEx key seconds value
    | none => .unknown) = _
  rw [h]

theorem parseArgs_lTrim_of_some (hz : parseI32 start = some z) (hw : parseI32 stop = some w) :
    parseArgs (some .lTrim) [key, start, stop] = .lTrim key z w := by
  change (match parseI32 start, parseI32 stop with
    | some start, some stop => Command.lTrim key start stop
    | _, _ => .unknown) = _
  rw [hz, hw]

theorem parseArgs_lRange_of_some (hz : parseI32 start = some z) (hw : parseI32 stop = some w) :
    parseArgs (some .lRange) [key, start, stop] = .lRange key z w := by
  change (match parseI32 start, parseI32 stop with
    | some start, some stop => Command.lRange key start stop
    | _, _ => .unknown) = _
  rw [hz, hw]

end ParseArgs

def parseCommand : List Bytes → Command
  | [] => .unknown
  | word :: args => parseArgs (Verb.of? (uppercase word)) args

/-- The separators of a raw line. -/
def isBlank (ch : Char) : Bool := ch = ' ' || ch = '\t' || ch = '\n'

/-- The token under way, if there is one. -/
def flush (current : Text) : List Bytes := if current = [] then [] else [encode current]

/-- The tokenizer's loop, from the token under way and the quoting state. -/
def tokenizeFrom (current : Text) (inQuotes : Bool) : Text → List Bytes
  | [] => flush current
  | ch :: rest =>
    if ch = '"' then tokenizeFrom current (!inQuotes) rest
    else if isBlank ch ∧ inQuotes = false then flush current ++ tokenizeFrom [] inQuotes rest
    else tokenizeFrom (current ++ [ch]) inQuotes rest

@[simp] theorem tokenizeFrom_nil (current : Text) (inQuotes : Bool) :
    tokenizeFrom current inQuotes [] = flush current := rfl

theorem tokenizeFrom_cons (current : Text) (inQuotes : Bool) (ch : Char) (rest : Text) :
    tokenizeFrom current inQuotes (ch :: rest) =
      if ch = '"' then tokenizeFrom current (!inQuotes) rest
      else if isBlank ch ∧ inQuotes = false then flush current ++ tokenizeFrom [] inQuotes rest
      else tokenizeFrom (current ++ [ch]) inQuotes rest := rfl

def tokenize (input : Text) : List Bytes := tokenizeFrom [] false input

end TitanKv
