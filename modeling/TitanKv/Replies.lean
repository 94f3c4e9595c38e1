import TitanKv.Agreement
import TitanKv.Lib.Resp

/-! # What the replies say

The bytes an arm writes are the encoding of a RESP value. `storeValue` is the
value a command on the data asks for, read off the database without regard to
how the arm counts and copies it; the arm's bytes are its encoding as long as no
list is longer than a 32-bit index reaches. -/

namespace TitanKv
open TwoPhase

/-- One complete RESP value. -/
def IsReply (bytes : Bytes) : Prop := ∃ v : Resp.Value, v.Sound ∧ bytes = v.encode

/-- One complete RESP value that is no error. -/
def IsAnswer (bytes : Bytes) : Prop :=
  ∃ v : Resp.Value, v.Sound ∧ (∀ line, v ≠ .error line) ∧ bytes = v.encode

/-- One complete RESP error. -/
def IsError (bytes : Bytes) : Prop :=
  ∃ line, (Resp.Value.error line).Sound ∧ bytes = Resp.Value.encode (.error line)

theorem IsError.isReply {bytes : Bytes} (h : IsError bytes) : IsReply bytes :=
  let ⟨line, hline, hb⟩ := h
  ⟨.error line, hline, hb⟩

theorem IsError.head {bytes : Bytes} (h : IsError bytes) : bytes.head? = some 45 := by
  obtain ⟨line, -, rfl⟩ := h
  rfl

theorem IsAnswer.isReply {bytes : Bytes} (h : IsAnswer bytes) : IsReply bytes :=
  let ⟨v, hv, _, hb⟩ := h
  ⟨v, hv, hb⟩

theorem IsReply.ne_nil {bytes : Bytes} (h : IsReply bytes) : bytes ≠ [] := by
  obtain ⟨v, -, rfl⟩ := h
  exact Resp.encode_ne_nil v

/-- Only an error starts with a minus sign. -/
theorem IsAnswer.head_ne {bytes : Bytes} (h : IsAnswer bytes) : bytes.head? ≠ some 45 := by
  obtain ⟨v, -, hne, rfl⟩ := h
  cases v with
  | error line => exact absurd rfl (hne line)
  | simple _ | integer _ | nil | bulk _ | array _ => simp [Resp.Value.encode, Resp.frame]

section Encodings
variable (z : Int) (val : Bytes) (vals : List Bytes)

theorem integerReply_eq : integerReply z = Resp.Value.encode (.integer z) := by
  simp [integerReply, Resp.Value.encode, Resp.frame]
  rfl

theorem arrayHeader_eq : arrayHeader z = Resp.frame 42 (Resp.number z) := by
  simp [arrayHeader, Resp.frame]
  rfl

theorem writeBulk_eq : writeBulk val = Resp.Value.encode (.bulk val) := by
  simp [writeBulk, Resp.Value.encode, Resp.frame, List.append_assoc]
  rfl

theorem nilReply_eq : nilReply = Resp.Value.encode .nil := rfl

theorem flatMap_writeBulk : vals.flatMap writeBulk = Resp.Value.encodeAll (vals.map .bulk) := by
  rw [Resp.Value.encodeAll_eq_flatMap, List.flatMap_map]
  exact congrArg (fun f => vals.flatMap f) (funext writeBulk_eq)

theorem bulkArray_eq : bulkArray vals = Resp.Value.encode (.array (vals.map .bulk)) := by
  rw [bulkArray, arrayHeader_eq, flatMap_writeBulk, Resp.Value.encode, List.length_map]

theorem soundAll_of_forall {vs : List Resp.Value} (h : ∀ v ∈ vs, v.Sound) :
    Resp.Value.SoundAll vs := by
  induction vs with
  | nil => trivial
  | cons v vs ih => exact ⟨h v (by simp), ih fun w hw => h w (List.mem_cons_of_mem _ hw)⟩

theorem soundAll_bulk : Resp.Value.SoundAll (vals.map .bulk) :=
  soundAll_of_forall fun v hv => by
    obtain ⟨val, -, rfl⟩ := List.mem_map.mp hv
    trivial

theorem IsAnswer.integer : IsAnswer (integerReply z) :=
  ⟨.integer z, trivial, fun _ h => (by cases h), integerReply_eq z⟩

theorem IsAnswer.bulk : IsAnswer (writeBulk val) :=
  ⟨.bulk val, trivial, fun _ h => (by cases h), writeBulk_eq val⟩

theorem IsAnswer.array : IsAnswer (bulkArray vals) :=
  ⟨.array _, soundAll_bulk vals, fun _ h => (by cases h), bulkArray_eq vals⟩

theorem IsAnswer.nil : IsAnswer nilReply := ⟨.nil, trivial, fun _ h => (by cases h), rfl⟩

theorem IsAnswer.ok : IsAnswer okReply :=
  ⟨.simple (lit "OK"), ⟨by decide, by decide⟩, fun _ h => (by cases h), rfl⟩

theorem IsAnswer.zero : IsAnswer (lit ":0\r\n") := .integer 0
theorem IsAnswer.one : IsAnswer (lit ":1\r\n") := .integer 1

/-- One line, with its terminator and nothing behind it. -/
def isPlainLine : Bytes → Bool
  | [] => false
  | [_] => false
  | b :: c :: rest => if b = 13 then c = 10 && rest.isEmpty else b ≠ 10 && isPlainLine (c :: rest)

theorem exists_line {bytes : Bytes} (h : isPlainLine bytes = true) :
    ∃ line, (13 ∉ line ∧ 10 ∉ line) ∧ bytes = line ++ [13, 10] := by
  induction bytes with
  | nil => cases h
  | cons b bytes ih =>
    cases bytes with
    | nil => cases h
    | cons c rest =>
      rw [isPlainLine] at h
      split at h
      · rename_i hb
        simp only [Bool.and_eq_true, decide_eq_true_eq, List.isEmpty_iff] at h
        exact ⟨[], by simp, by rw [hb, h.1, h.2]; rfl⟩
      · rename_i hb
        simp only [Bool.and_eq_true, decide_eq_true_eq] at h
        obtain ⟨line, ⟨hcr, hlf⟩, hline⟩ := ih h.2
        refine ⟨b :: line, ⟨?_, ?_⟩, by rw [hline]; rfl⟩
        · exact List.not_mem_cons_of_ne_of_not_mem (Ne.symm hb) hcr
        · exact List.not_mem_cons_of_ne_of_not_mem (Ne.symm h.1) hlf

def isErrorLine : Bytes → Bool
  | [] => false
  | b :: rest => b = 45 && isPlainLine rest

theorem IsError.of_isErrorLine {bytes : Bytes} (h : isErrorLine bytes = true) : IsError bytes := by
  cases bytes with
  | nil => cases h
  | cons b rest =>
    simp only [isErrorLine, Bool.and_eq_true, decide_eq_true_eq] at h
    obtain ⟨line, hline, rfl⟩ := exists_line h.2
    exact ⟨line, hline, by rw [h.1]; rfl⟩

theorem IsError.wrongKind : IsError wrongKind := .of_isErrorLine (by decide)

theorem IsError.wrongType : IsError wrongType := .of_isErrorLine (by decide)

theorem IsError.wrongTypeOfValue :
    IsError (lit "-WRONGTYPE Operation against a key holding the wrong type of value\r\n") :=
  .of_isErrorLine (by decide)

end Encodings

section Casts
variable {z : Int}

theorem asI32_range (z : Int) : -2 ^ 31 ≤ asI32 z ∧ asI32 z < 2 ^ 31 :=
  ⟨Int.le_bmod (by decide), Int.bmod_lt (by decide)⟩

theorem asI32_of_fits (hlo : -2 ^ 31 ≤ z) (hhi : z < 2 ^ 31) : asI32 z = z :=
  Int.bmod_eq_of_le hlo hhi

theorem asI32_congr (z : Int) : ∃ k : Int, z = asI32 z + k * 2 ^ 32 := by
  refine ⟨Int.bdiv z (2 ^ 32), ?_⟩
  have hcast : ((2 ^ 32 : Nat) : Int) = 2 ^ 32 := rfl
  rw [asI32, Int.bmod_eq_self_sub_bdiv_mul, hcast]
  omega

theorem asU64_of_fits (hlo : 0 ≤ z) (hhi : z < 2 ^ 64) : asU64 z = z.toNat := by
  rw [asU64, Int.emod_eq_of_lt hlo hhi]

theorem asU64_of_neg (hlo : -2 ^ 64 ≤ z) (hhi : z < 0) : asU64 z = (z + 2 ^ 64).toNat := by
  unfold asU64
  omega

end Casts

section LRange
variable {list : List Bytes} {start stop : Int}

/-- The reply on a list. -/
def lRangeReply (list : List Bytes) (start stop : Int) : Bytes :=
  let len := asI32 list.length
  let s := resolveIndex len start
  let e := resolveIndex len stop
  if s > e ∨ s ≥ len ∨ e < 0 then lit "*0\r\n"
  else
    let first := asU64 (max 0 s)
    let last := asU64 (min e (asI32 (len - 1)))
    arrayHeader (asU64 ((last : Int) - first + 1)) ++
      ((List.range' first (last + 1 - first)).filterMap fun i => list[i]?).flatMap writeBulk

/-- The indices an `LRANGE` asks for are no range of the list as it counts it. -/
def NoRange (list : List Bytes) (start stop : Int) : Prop :=
  let len := asI32 list.length
  let s := resolveIndex len start
  let e := resolveIndex len stop
  s > e ∨ s ≥ len ∨ e < 0

instance : Decidable (NoRange list start stop) := inferInstanceAs (Decidable (_ ∨ _ ∨ _))

theorem filterMap_range' {α : Type} (list : List α) (first n : Nat) :
    (List.range' first n).filterMap (fun i => list[i]?) = (list.drop first).take n := by
  induction n generalizing first with
  | zero => simp
  | succ n ih =>
    rw [List.range'_succ, List.filterMap_cons, ih]
    by_cases hf : first < list.length
    · rw [List.drop_eq_getElem_cons hf, List.take_succ_cons, List.getElem?_eq_getElem hf]
    · rw [List.getElem?_eq_none (by omega), List.drop_eq_nil_of_le (by omega),
        List.drop_eq_nil_of_le (by omega), List.take_nil, List.take_nil]

theorem lRangeReply_noRange (h : NoRange list start stop) :
    lRangeReply list start stop = bulkArray [] :=
  (if_pos h).trans rfl

/-- A range of a list whose length a 32-bit index counts. -/
theorem lRangeReply_counted (h : ¬ NoRange list start stop) (hlen : 0 < asI32 list.length) :
    lRangeReply list start stop = bulkArray
      ((list.drop (resolveIndex (asI32 list.length) start).toNat).take
        ((min (resolveIndex (asI32 list.length) stop) (asI32 list.length - 1)).toNat + 1 -
          (resolveIndex (asI32 list.length) start).toNat)) := by
  have hreply : lRangeReply list start stop = _ := if_neg h
  dsimp only [NoRange] at h hreply
  have hrange := asI32_range list.length
  obtain ⟨k, hk⟩ := asI32_congr list.length
  generalize hl : asI32 list.length = len at *
  generalize resolveIndex len start = s at *
  generalize resolveIndex len stop = e at *
  have hfirst : asU64 (max 0 s) = s.toNat := by rw [asU64_of_fits] <;> omega
  have hlast : asU64 (min e (asI32 (len - 1))) = (min e (len - 1)).toNat := by
    rw [asI32_of_fits (by omega) (by omega), asU64_of_fits (by omega) (by omega)]
  have hcount : asU64 (((min e (len - 1)).toNat : Int) - s.toNat + 1) =
      (min e (len - 1)).toNat + 1 - s.toNat := by
    rw [asU64_of_fits (by omega) (by omega)]
    omega
  rw [hreply, hfirst, hlast, filterMap_range', hcount, bulkArray, List.length_take,
    List.length_drop, Nat.min_eq_left (by omega)]

/-- A range of a list whose length wraps to nothing or below: the header counts
up to the wrapped length, and the elements are those there are. -/
theorem lRangeReply_wrapped (h : ¬ NoRange list start stop) (hlen : asI32 list.length ≤ 0) :
    lRangeReply list start stop = arrayHeader (asU64 (asI32 list.length)) ++
      (list.take (asI32 list.length + 2 ^ 64).toNat).flatMap writeBulk := by
  have hreply : lRangeReply list start stop = _ := if_neg h
  dsimp only [NoRange] at h hreply
  have hrange := asI32_range list.length
  have hs := asI32_range (asI32 list.length + start)
  generalize hl : asI32 list.length = len at *
  have hstart : 0 ≤ resolveIndex len start ∨ -2 ^ 31 ≤ resolveIndex len start := by
    unfold resolveIndex
    split
    · exact Or.inr hs.1
    · omega
  generalize resolveIndex len start = s at *
  generalize resolveIndex len stop = e at *
  have hfirst : asU64 (max 0 s) = 0 := by rw [asU64_of_fits] <;> omega
  have hlast : asU64 (min e (asI32 (len - 1))) = (len - 1 + 2 ^ 64).toNat := by
    rw [asI32_of_fits (by omega) (by omega), asU64_of_neg (by omega) (by omega)]
    omega
  have hcount : asU64 (((len - 1 + 2 ^ 64).toNat : Int) - (0 : Nat) + 1) = asU64 len := by
    unfold asU64
    omega
  have hn : (len - 1 + 2 ^ 64).toNat + 1 - 0 = (len + 2 ^ 64).toNat := by omega
  rw [hreply, hfirst, hlast, filterMap_range', hcount, List.drop_zero, hn]

/-- Bulk strings behind an array header are a reply if they are as many as it says. -/
theorem isReply_counted_iff {n : Nat} {vals : List Bytes} :
    IsReply (arrayHeader n ++ vals.flatMap writeBulk) ↔ n = vals.length := by
  rw [arrayHeader_eq, flatMap_writeBulk]
  constructor
  · rintro ⟨v, hv, h⟩
    cases v with
    | array items =>
      obtain ⟨hn, hitems⟩ := Resp.frame_number_inj h
      have hvals := Resp.encodeAll_inj (soundAll_bulk vals) hv hitems
      have hlen := congrArg List.length hvals
      rw [List.length_map] at hlen
      omega
    | simple _ | error _ | integer _ | nil | bulk _ => simp [Resp.Value.encode, Resp.frame] at h
  · rintro rfl
    exact ⟨.array (vals.map .bulk), soundAll_bulk vals, by rw [Resp.Value.encode, List.length_map]⟩

/-- The header of an `LRANGE` reply counts other elements than those behind it. -/
def Miscounts (list : List Bytes) (start stop : Int) : Prop :=
  ¬ NoRange list start stop ∧ list ≠ [] ∧
    (asI32 list.length = 0 ∨ asI32 list.length < 0 ∧ list.length < asI32 list.length + 2 ^ 64)

theorem isReply_lRangeReply_iff :
    IsReply (lRangeReply list start stop) ↔ ¬ Miscounts list start stop := by
  unfold Miscounts
  by_cases hno : NoRange list start stop
  · rw [lRangeReply_noRange hno]
    exact iff_of_true (IsAnswer.array []).isReply fun h => h.1 hno
  · by_cases hlen : 0 < asI32 list.length
    · rw [lRangeReply_counted hno hlen]
      exact iff_of_true (IsAnswer.array _).isReply (by omega)
    · rw [lRangeReply_wrapped hno (by omega), isReply_counted_iff, List.length_take]
      have hrange := asI32_range list.length
      have hne : list ≠ [] ↔ 0 < list.length := List.length_pos_iff.symm
      simp only [hno, not_false_eq_true, true_and, hne]
      rcases Int.lt_or_eq_of_le (Int.not_lt.mp hlen) with hneg | hzero
      · obtain ⟨k, hk⟩ := asI32_congr list.length
        rw [asU64_of_neg (by omega) hneg]
        omega
      · rw [hzero, asU64_of_fits (by decide) (by decide)]
        omega

/-- An `LRANGE` reply is no error. -/
theorem lRangeReply_head : (lRangeReply list start stop).head? ≠ some 45 := by
  by_cases hno : NoRange list start stop
  · rw [lRangeReply_noRange hno]
    exact (IsAnswer.array []).head_ne
  · have hreply : lRangeReply list start stop = _ := if_neg hno
    rw [hreply, arrayHeader_eq, Resp.frame]
    show some (42 : UInt8) ≠ some 45
    decide

/-- The elements from `start` to `stop`, counted from the end if negative. -/
def slice (list : List Bytes) (start stop : Int) : List Bytes :=
  let first := if start < 0 then max 0 (list.length + start) else start
  let last := if stop < 0 then list.length + stop else stop
  (list.drop first.toNat).take (last + 1 - first).toNat

theorem resolveIndex_short {index : Int} (h : list.length < 2 ^ 31) (hindex : -2 ^ 31 ≤ index) :
    resolveIndex list.length index = if index < 0 then list.length + index else index := by
  unfold resolveIndex
  split
  · exact asI32_of_fits (by omega) (by omega)
  · rfl

theorem slice_resolved (h : list.length < 2 ^ 31) (hstart : -2 ^ 31 ≤ start)
    (hstop : -2 ^ 31 ≤ stop) :
    slice list start stop = (list.drop (resolveIndex list.length start).toNat).take
      (resolveIndex list.length stop + 1 - max 0 (resolveIndex list.length start)).toNat := by
  rw [resolveIndex_short h hstart, resolveIndex_short h hstop, slice]
  have hfirst : (if start < 0 then max 0 ((list.length : Int) + start) else start) =
      max 0 (if start < 0 then (list.length : Int) + start else start) := by
    split <;> omega
  have hdrop : ∀ z : Int, (max 0 z).toNat = z.toNat := by omega
  rw [hfirst, hdrop]

/-- The reply on a list that a 32-bit index counts is its slice. -/
theorem lRangeReply_short (h : list.length < 2 ^ 31) (hstart : -2 ^ 31 ≤ start)
    (hstop : -2 ^ 31 ≤ stop) : lRangeReply list start stop = bulkArray (slice list start stop) := by
  have hlen : asI32 list.length = list.length := asI32_of_fits (by omega) (by omega)
  rw [slice_resolved h hstart hstop]
  by_cases hno : NoRange list start stop
  · rw [lRangeReply_noRange hno]
    dsimp only [NoRange] at hno
    rw [hlen] at hno
    refine congrArg bulkArray ?_
    rw [eq_comm, ← List.length_eq_zero_iff, List.length_take, List.length_drop]
    omega
  · by_cases hpos : 0 < asI32 list.length
    · rw [lRangeReply_counted hno hpos]
      dsimp only [NoRange] at hno
      rw [hlen] at hno ⊢
      refine congrArg bulkArray ?_
      rw [List.take_eq_take_iff, List.length_drop]
      omega
    · obtain rfl : list = [] := List.length_eq_zero_iff.mp (by omega)
      rw [lRangeReply_wrapped hno (by omega), List.drop_nil, List.take_nil, List.take_nil]
      rfl

end LRange

section Store
variable (env : Env) (ctx : Ctx) (mem : Memory)

def stored (key : Bytes) : Option DataType := (mem (calculateShardIndex env key)).value? key

def allKeys : List Bytes := (List.finRange shardCount).flatMap fun i => (mem i).keys

def shardKeys (cursor : Nat) : List Bytes :=
  if h : cursor < shardCount then (mem ⟨cursor, h⟩).keys else []

/-- A string, or nothing for any other value. -/
def stringValue : Option DataType → Resp.Value
  | some (.string val) => .bulk val
  | _ => .nil

/-- What a command on the data asks for; nothing where it is to fail. -/
def storeValue : Command → Option Resp.Value
  | .get key =>
    if isExpired ctx.now ((mem (calculateShardIndex env key)).lookup key) then some .nil
    else match stored env mem key with
      | some (.string val) => some (.bulk val)
      | some _ => none
      | none => some .nil
  | .hGet key field => match stored env mem key with
    | some (.hash hmap) => some ((hmap.lookup field).elim .nil .bulk)
    | some _ => none
    | none => some .nil
  | .lRange key start stop => match stored env mem key with
    | some (.list list) => some (.array ((slice list start stop).map .bulk))
    | some _ => none
    | none => some (.array [])
  | .hGetAll key => match stored env mem key with
    | some (.hash hmap) => some (.array (hmap.entries.flatMap fun e => [.bulk e.1, .bulk e.2]))
    | some _ => none
    | none => some (.array [])
  | .sMembers key => match stored env mem key with
    | some (.set set) => some (.array (set.keys.map .bulk))
    | some _ => none
    | none => some (.array [])
  | .mGet keyA keyB =>
    some (.array [stringValue (stored env mem keyA), stringValue (stored env mem keyB)])
  | .sInter keyA keyB => some (.array (((setOrEmpty (stored env mem keyA)).keys.filter
      fun item => item ∈ setOrEmpty (stored env mem keyB)).map .bulk))
  | .keys pattern => (env.regex (globRegex (bytesToStr pattern))).map fun isMatch =>
      .array (((allKeys mem).filter (keyMatches isMatch)).map .bulk)
  | .scan cursor matchPattern => some (.array
      [.bulk (decimal (if cursor < 63 then cursor + 1 else 0 : Nat)),
        .array ((retainMatching env matchPattern (shardKeys mem cursor)).map .bulk)])
  | _ => none

end Store

section Runs
variable (env : Env) (ctx : Ctx) (mem : Memory)

theorem run_overShards {β : Type} (f : β → Shard → β) (is : List Index) (acc : β) :
    (overShards f is acc : Arm β).run mem =
      some (is.foldl (fun acc i => f acc (mem i)) acc, mem, []) := by
  induction is generalizing acc with
  | nil => rfl
  | cons i is ih => exact ih (f acc (mem i))

theorem run_getAllKeys : (getAllKeys : Arm (List Bytes)).run mem = some (allKeys mem, mem, []) := by
  have hfold : ∀ (is : List Index) (acc : List Bytes),
      is.foldl (fun acc i => acc ++ (mem i).keys) acc = acc ++ is.flatMap fun i =>
        (mem i).keys := by
    intro is
    induction is with
    | nil => simp
    | cons i is ih => simp [ih]
  rw [getAllKeys, run_overShards, hfold, List.nil_append, allKeys]

theorem run_withEntry (key : Bytes) (respond : Option Entry → Bytes) :
    (withEntry env key respond).run mem =
      some (.reply (respond ((mem (calculateShardIndex env key)).lookup key)), mem, []) := rfl

theorem run_withTwoValues (keyA keyB : Bytes)
    (respond : Option DataType → Option DataType → Bytes) :
    (withTwoValues env keyA keyB respond).run mem =
      some (.reply (respond (stored env mem keyA) (stored env mem keyB)), mem, []) := by
  unfold withTwoValues readMultiShards
  dsimp only
  split
  · rename_i heq
    simp [MultiGuard.maps, MultiGuard.release, stored, heq]
  · split <;> simp [MultiGuard.maps, MultiGuard.release, stored]

theorem run_withWrite (key : Bytes) (arm : Index → Arm Bytes) :
    (withWrite env key arm).run mem =
      ((arm (calculateShardIndex env key)).run mem).map fun r => (.reply r.1, r.2.1, r.2.2) := by
  show (arm (calculateShardIndex env key) >>= fun reply => (Prog.unlock
    (calculateShardIndex env key) (.done (Outcome.reply reply)) : Handler)).run mem = _
  rw [Prog.run_bind]
  cases (arm (calculateShardIndex env key)).run mem with
  | none => rfl
  | some r => simp

/-- `GET` on an entry past its deadline removes it and says so in the log. -/
theorem handleGet_run_expired {key : Bytes}
    (h : isExpired ctx.now ((mem (calculateShardIndex env key)).lookup key) = true) :
    (handleGet env ctx key).run mem = some (.reply nilReply,
      onShard env key (·.erase key) mem, [.del key]) := by
  obtain ⟨entry, hentry⟩ : ∃ entry, (mem (calculateShardIndex env key)).lookup key =
      some entry := by
    cases hl : (mem (calculateShardIndex env key)).lookup key with
    | none => simp [hl, isExpired] at h
    | some entry => exact ⟨entry, rfl⟩
  rw [handleGet, run_withWrite]
  simp only [Prog.get_bind, Prog.run_read]
  rw [if_pos h]
  simp [remove, hentry, onShard]

/-- `GET` on any other entry only looks. -/
theorem handleGet_run {key : Bytes}
    (h : isExpired ctx.now ((mem (calculateShardIndex env key)).lookup key) = false) :
    (handleGet env ctx key).run mem = some (.reply (match stored env mem key with
      | some (.string val) => writeBulk val
      | some _ => lit "-WRONGTYPE Operation against a key holding the wrong type of value\r\n"
      | none => nilReply), mem, []) := by
  rw [handleGet, run_withWrite]
  simp only [Prog.get_bind, Prog.run_read]
  rw [if_neg (by rw [h]; exact Bool.false_ne_true)]
  simp only [Prog.run_read, stored]
  cases (mem (calculateShardIndex env key)).value? key with
  | none => simp
  | some value => cases value <;> simp

/-- `LRANGE` on a list. -/
theorem handleLRange_run {key : Bytes} {list : List Bytes} {start stop : Int}
    (h : stored env mem key = some (.list list)) :
    (handleLRange env key start stop).run mem =
      some (.reply (lRangeReply list start stop), mem, []) := by
  obtain ⟨entry, hl, hval⟩ := Option.map_eq_some_iff.mp h
  rw [handleLRange, run_withEntry, hl]
  dsimp only
  rw [hval]
  rfl

end Runs

section Data
variable (env : Env) (ctx : Ctx) (mem : Memory)

/-- The commands that reply with what the store holds. -/
def Command.isData : Command → Prop
  | .get _ | .hGet _ _ | .lRange _ _ _ | .hGetAll _ | .sMembers _ | .mGet _ _ | .sInter _ _
  | .keys _ | .scan _ _ => True
  | _ => False

/-- A reply that the arm ends in encodes the value, or is an error if there is none. -/
def Says (ends : Option (Outcome × Memory × List Command)) (value : Option Resp.Value) : Prop :=
  ∀ buffer mem' logs, ends = some (.reply buffer, mem', logs) →
    (∀ v, value = some v → v.Sound ∧ buffer = v.encode) ∧ (value = none → IsError buffer)

section Says
variable {mem' : Memory} {logs : List Command} {v : Resp.Value} {buffer : Bytes}

theorem Says.encoded (hv : v.Sound) (hb : buffer = v.encode) :
    Says (some (.reply buffer, mem', logs)) (some v) := by
  rintro _ _ _ ⟨⟩
  exact ⟨fun w hw => Option.some.inj hw ▸ ⟨hv, hb⟩, fun h => (by cases h)⟩

theorem Says.error (hb : IsError buffer) : Says (some (.reply buffer, mem', logs)) none := by
  rintro _ _ _ ⟨⟩
  exact ⟨fun w hw => (by cases hw), fun _ => hb⟩

theorem Says.array (vals : List Bytes) :
    Says (some (.reply (bulkArray vals), mem', logs)) (some (.array (vals.map .bulk))) :=
  .encoded (v := .array _) (soundAll_bulk vals) (bulkArray_eq vals)

theorem Says.nil : Says (some (.reply nilReply, mem', logs)) (some .nil) :=
  .encoded (v := .nil) trivial nilReply_eq

theorem Says.bulk {val : Bytes} :
    Says (some (.reply (writeBulk val), mem', logs)) (some (.bulk val)) :=
  .encoded (v := .bulk val) trivial (writeBulk_eq val)

end Says

theorem Says.isReply {ends : Option (Outcome × Memory × List Command)} {value : Option Resp.Value}
    {mem' : Memory} {logs : List Command} {buffer : Bytes} (h : Says ends value)
    (hends : ends = some (.reply buffer, mem', logs)) : IsReply buffer := by
  obtain ⟨hvalue, herror⟩ := h buffer mem' logs hends
  cases value with
  | none => exact (herror rfl).isReply
  | some v => exact ⟨v, hvalue v rfl⟩

attribute [local simp] storeValue

theorem get_replies (key : Bytes) :
    Says ((handleGet env ctx key).run mem) (storeValue env ctx mem (.get key)) := by
  cases he : isExpired ctx.now ((mem (calculateShardIndex env key)).lookup key) with
  | true =>
    rw [handleGet_run_expired env ctx mem he, storeValue, he]
    exact .nil
  | false =>
    rw [handleGet_run env ctx mem he, storeValue, he]
    cases stored env mem key with
    | none => exact .nil
    | some value =>
      cases value with
      | string val => exact .bulk
      | _ => exact .error .wrongTypeOfValue

theorem hGet_replies (key field : Bytes) :
    Says ((handleHGet env key field).run mem) (storeValue env ctx mem (.hGet key field)) := by
  rw [handleHGet, run_withEntry]
  simp only [storeValue, stored, Shard.value?]
  cases (mem (calculateShardIndex env key)).lookup key with
  | none => exact .nil
  | some entry =>
    obtain ⟨value, expiresAt⟩ := entry
    cases value with
    | hash hmap =>
      simp only [Option.map_some]
      cases hmap.lookup field with
      | none => exact .nil
      | some val => exact .bulk
    | _ => exact .error .wrongType

theorem hGetAll_replies (key : Bytes) :
    Says ((handleHGetAll env key).run mem) (storeValue env ctx mem (.hGetAll key)) := by
  rw [handleHGetAll, run_withEntry]
  simp only [storeValue, stored, Shard.value?]
  cases (mem (calculateShardIndex env key)).lookup key with
  | none => exact .array []
  | some entry =>
    obtain ⟨value, expiresAt⟩ := entry
    cases value with
    | hash hmap =>
      refine .encoded (v := .array _) (soundAll_of_forall fun v hv => ?_) ?_
      · obtain ⟨e, -, hv⟩ := List.mem_flatMap.mp hv
        rcases List.mem_pair.mp hv with rfl | rfl <;> trivial
      · have hitem : ∀ e : (_ : Bytes) × Bytes, writeBulk e.1 ++ writeBulk e.2 =
            [Resp.Value.bulk e.1, Resp.Value.bulk e.2].flatMap Resp.Value.encode := fun e => by
          simp [writeBulk_eq]
        have hlen : (hmap.entries.flatMap fun e => [Resp.Value.bulk e.1,
            Resp.Value.bulk e.2]).length =
            hmap.entries.length * 2 := by
          simp [List.length_flatMap]
        dsimp only
        rw [arrayHeader_eq, Resp.Value.encode, Resp.Value.encodeAll_eq_flatMap,
          List.flatMap_assoc, hlen, funext hitem]
        rfl
    | _ => exact .error .wrongType

theorem sMembers_replies (key : Bytes) :
    Says ((handleSMembers env key).run mem) (storeValue env ctx mem (.sMembers key)) := by
  rw [handleSMembers, run_withEntry]
  simp only [storeValue, stored, Shard.value?]
  cases (mem (calculateShardIndex env key)).lookup key with
  | none => exact .array []
  | some entry =>
    obtain ⟨value, expiresAt⟩ := entry
    cases value with
    | set members => exact .array _
    | _ => exact .error .wrongType

theorem lRange_replies {key : Bytes} {start stop : Int} (hstart : -2 ^ 31 ≤ start)
    (hstop : -2 ^ 31 ≤ stop)
    (hshort : ∀ list, stored env mem key = some (.list list) → list.length < 2 ^ 31) :
    Says ((handleLRange env key start stop).run mem)
      (storeValue env ctx mem (.lRange key start stop)) := by
  rw [handleLRange, run_withEntry]
  simp only [storeValue, stored, Shard.value?] at hshort ⊢
  cases hl : (mem (calculateShardIndex env key)).lookup key with
  | none => exact .array []
  | some entry =>
    obtain ⟨value, expiresAt⟩ := entry
    cases value with
    | list list =>
      have hreply := lRangeReply_short (hshort list (by rw [hl]; rfl)) hstart hstop
      show Says (some (.reply (lRangeReply list start stop), mem, [])) _
      rw [hreply]
      exact .array _
    | _ => exact .error .wrongKind

theorem sound_stringValue (value : Option DataType) : (stringValue value).Sound := by
  unfold stringValue
  split <;> trivial

theorem mGetItem_eq (value : Option DataType) : mGetItem value = (stringValue value).encode := by
  cases value with
  | none => exact nilReply_eq
  | some value =>
    cases value with
    | string val => exact writeBulk_eq val
    | _ => exact nilReply_eq

theorem mGet_replies (keyA keyB : Bytes) :
    Says ((handleMGet env keyA keyB).run mem) (storeValue env ctx mem (.mGet keyA keyB)) := by
  rw [handleMGet, run_withTwoValues, storeValue]
  refine .encoded (v := .array _) ⟨sound_stringValue _, sound_stringValue _, trivial⟩ ?_
  rw [mGetItem_eq, mGetItem_eq, Resp.Value.encode, Resp.Value.encodeAll_eq_flatMap]
  simp
  rfl

theorem sInter_replies (keyA keyB : Bytes) :
    Says ((handleSInter env keyA keyB).run mem) (storeValue env ctx mem (.sInter keyA keyB)) := by
  rw [handleSInter, run_withTwoValues]
  exact .array _

theorem keys_replies (pattern : Bytes) :
    Says ((handleKeys env pattern).run mem) (storeValue env ctx mem (.keys pattern)) := by
  rw [storeValue]
  unfold handleKeys
  cases hre : env.regex (globRegex (bytesToStr pattern)) with
  | none =>
    intro buffer mem' logs h
    cases h
  | some isMatch =>
    rw [Prog.run_bind, run_getAllKeys]
    exact .array _

/-- Without a valid pattern all keys are kept. -/
theorem retainMatching_eq_filter (matchPattern : Option Bytes) :
    ∃ p : Bytes → Bool, ∀ keys, retainMatching env matchPattern keys = keys.filter p := by
  unfold retainMatching
  cases matchPattern.bind fun pattern => env.regex (globRegex (bytesToStr pattern)) with
  | none => exact ⟨fun _ => true, fun keys => (List.filter_true keys).symm⟩
  | some isMatch => exact ⟨keyMatches isMatch, fun _ => rfl⟩

theorem run_scanShard (cursor : Nat) :
    (scanShard cursor : Arm (List Bytes)).run mem = some (shardKeys mem cursor, mem, []) := by
  unfold scanShard shardKeys
  split
  · rfl
  · rfl

theorem scan_replies (cursor : Nat) (matchPattern : Option Bytes) :
    Says ((handleScan env cursor matchPattern).run mem)
      (storeValue env ctx mem (.scan cursor matchPattern)) := by
  have hsound : ∀ keys : List Bytes, ∀ next : Bytes,
      (Resp.Value.array [.bulk next, .array (keys.map .bulk)]).Sound :=
    fun keys next => ⟨trivial, soundAll_bulk keys, trivial⟩
  rw [storeValue]
  unfold handleScan
  split
  · rename_i hcursor
    have hkeys : shardKeys mem cursor = [] := dif_neg (by unfold shardCount; omega)
    have hnone : retainMatching env matchPattern [] = [] := by
      unfold retainMatching
      split <;> rfl
    rw [if_neg (by omega), hkeys, hnone]
    exact .encoded (hsound [] _) rfl
  · rename_i hcursor
    rw [Prog.run_bind, run_scanShard]
    have hnext : (if cursor = 63 then 0 else cursor + 1) = if cursor < 63 then cursor + 1
        else 0 := by
      split <;> split <;> omega
    refine .encoded (hsound _ _) ?_
    dsimp only
    rw [hnext, writeBulk_eq, bulkArray_eq]
    simp [Resp.Value.encode, Resp.Value.encodeAll]
    rfl

theorem parseI32_range {b : Bytes} {z : Int} (h : parseI32 b = some z) : -2 ^ 31 ≤ z := by
  obtain ⟨t, -, ht⟩ := Option.bind_eq_some_iff.mp h
  exact (Decimal.parseInt_range ht).1

/-- The indices of a parsed `LRANGE` are 32-bit integers. -/
theorem parseCommand_lRange {parts : List Bytes} {key : Bytes} {start stop : Int}
    (h : parseCommand parts = .lRange key start stop) : -2 ^ 31 ≤ start ∧ -2 ^ 31 ≤ stop := by
  cases parts with
  | nil => cases h
  | cons word rest =>
    have hparsed := parsedFrom_parseArgs (Verb.of? (uppercase word)) rest
    rw [parseCommand] at h
    rw [h] at hparsed
    obtain ⟨-, _, _, -, hstart, hstop⟩ := hparsed
    exact ⟨parseI32_range hstart, parseI32_range hstop⟩

/-- Every list under its key is one that a 32-bit index counts. -/
def ListsFit (env : Env) (mem : Memory) : Prop :=
  ∀ key list, stored env mem key = some (.list list) → list.length < 2 ^ 31

/-- The replies to a command on the data encode what the store holds. -/
theorem data_replies (hfit : ListsFit env mem) {parts : List Bytes}
    (hdata : (parseCommand parts).isData) :
    Says ((handle env ctx (parseCommand parts)).run mem)
      (storeValue env ctx mem (parseCommand parts)) := by
  cases hc : parseCommand parts with
  | get key => exact get_replies env ctx mem key
  | hGet key field => exact hGet_replies env ctx mem key field
  | hGetAll key => exact hGetAll_replies env ctx mem key
  | sMembers key => exact sMembers_replies env ctx mem key
  | mGet keyA keyB => exact mGet_replies env ctx mem keyA keyB
  | sInter keyA keyB => exact sInter_replies env ctx mem keyA keyB
  | keys pattern => exact keys_replies env ctx mem pattern
  | scan cursor matchPattern => exact scan_replies env ctx mem cursor matchPattern
  | lRange key start stop =>
    obtain ⟨hstart, hstop⟩ := parseCommand_lRange hc
    exact lRange_replies env ctx mem hstart hstop (hfit key)
  | _ =>
    rw [hc] at hdata
    exact hdata.elim

/-- A reply with data, whatever follows it on the wire, decodes to what the store
holds, and the decoder stops at its end. -/
def BinarySafe (command : Command) : Prop :=
  ∀ buffer mem' logs, (handle env ctx command).run mem = some (.reply buffer, mem', logs) →
    buffer.head? ≠ some 45 → ∃ v, storeValue env ctx mem command = some v ∧
      ∀ rest, Resp.decode (buffer ++ rest) = some (v, rest)

theorem Says.binarySafe {command : Command}
    (h : Says ((handle env ctx command).run mem) (storeValue env ctx mem command)) :
    BinarySafe env ctx mem command := by
  intro buffer mem' logs hrun hne
  obtain ⟨hvalue, herror⟩ := h buffer mem' logs hrun
  cases hv : storeValue env ctx mem command with
  | none => exact absurd (herror hv).head hne
  | some v =>
    obtain ⟨hsound, rfl⟩ := hvalue v hv
    exact ⟨v, rfl, fun rest => Resp.decode_encode hsound rest⟩

/-- No reply has more elements than a 32-bit integer counts. -/
theorem lRangeReply_whole (list : List Bytes) :
    ∃ vals, lRangeReply list 0 (-1) = bulkArray vals ∧ vals.length < 2 ^ 31 := by
  have hrange := asI32_range list.length
  by_cases hno : NoRange list 0 (-1)
  · exact ⟨[], lRangeReply_noRange hno, by decide⟩
  · have hpos : 0 < asI32 list.length := by
      dsimp only [NoRange] at hno
      unfold resolveIndex at hno
      omega
    refine ⟨_, lRangeReply_counted hno hpos, Nat.lt_of_le_of_lt (List.length_take_le _ _) ?_⟩
    omega

theorem slice_whole (list : List Bytes) : slice list 0 (-1) = list := by
  have hlen : ((list.length : Int) + -1 + 1 - 0).toNat = list.length := by omega
  simp only [slice]
  rw [if_pos (by decide), if_neg (by decide), hlen]
  exact List.take_length

/-- Reading a whole list that no 32-bit index counts does not return it. -/
theorem not_binarySafe_of_long {key : Bytes} {list : List Bytes}
    (hv : stored env mem key = some (.list list)) (hlong : 2 ^ 31 ≤ list.length) :
    ¬ BinarySafe env ctx mem (.lRange key 0 (-1)) := by
  intro h
  obtain ⟨vals, hreply, hlen⟩ := lRangeReply_whole list
  obtain ⟨v, hvalue, hdec⟩ := h _ _ _ (handleLRange_run env mem hv) lRangeReply_head
  rw [storeValue, hv] at hvalue
  obtain rfl := Option.some.inj hvalue
  have hback := hdec []
  rw [hreply, bulkArray_eq, Resp.decode_encode (v := .array _) (soundAll_bulk vals), slice_whole]
    at hback
  have hlens := congrArg List.length (Resp.Value.array.inj (Prod.mk.inj (Option.some.inj hback)).1)
  rw [List.length_map, List.length_map] at hlens
  omega

def wholeList (key : Bytes) : List Bytes := [lit "LRANGE", key, lit "0", lit "-1"]

theorem parseCommand_wholeList (key : Bytes) :
    parseCommand (wholeList key) = .lRange key 0 (-1) := by
  rfl

/-- The commands on the data are binary-safe exactly in the databases whose lists
all have fewer than 2^31 elements. -/
theorem binarySafe_iff_listsFit :
    (∀ ctx parts, (parseCommand parts).isData → BinarySafe env ctx mem (parseCommand parts)) ↔
      ListsFit env mem := by
  constructor
  · intro h key list hv
    by_contra hlong
    have hparse := parseCommand_wholeList key
    have hsafe := h plainCtx (wholeList key) (by rw [hparse]; trivial)
    rw [hparse] at hsafe
    exact not_binarySafe_of_long env plainCtx mem hv (by omega) hsafe
  · intro hfit ctx parts hdata
    exact (data_replies env ctx mem hfit hdata).binarySafe

/-- A list under the key `k`. -/
def listDb (list : List Bytes) : Memory :=
  Function.update newDb ⟨0, by decide⟩ ((∅ : Shard).insert [107] ⟨.list list, none⟩)

theorem stored_listDb (list : List Bytes) :
    stored plainEnv (listDb list) [107] = some (.list list) := rfl

/-- A list of 2^31 elements. -/
theorem not_binarySafe_listDb :
    ¬ BinarySafe plainEnv plainCtx (listDb (List.replicate (2 ^ 31) [120]))
      (parseCommand (wholeList [107])) := by
  rw [parseCommand_wholeList]
  refine not_binarySafe_of_long plainEnv plainCtx _ (stored_listDb _) ?_
  rw [List.length_replicate]

end Data

end TitanKv
