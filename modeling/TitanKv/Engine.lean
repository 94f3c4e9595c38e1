import Mathlib.Algebra.Ring.Int.Defs
import Mathlib.Algebra.Ring.Nat
import Mathlib.Data.List.AList
import Mathlib.Data.List.FinRange
import TitanKv.Lib.Decimal
import TitanKv.Lib.TwoPhase

/-! # The sharded store

Keys are spread over 64 shards by the low bits of a hash; each shard is a map
behind its own reader-writer lock. The lock functions are programs over the
shards and return what they hold. A map is an association list with unique
keys, whose order stands for the unspecified iteration order. -/

namespace TitanKv
open TwoPhase

abbrev Bytes := Utf8.Bytes
abbrev Text := Utf8.Text

/-- The bytes of a source literal. -/
def lit (s : String) : Bytes := Utf8.encode s.toList

abbrev HashMap (α : Type) := AList fun _ : Bytes => α
abbrev HashSet := HashMap Unit

inductive DataType where
  | string (val : Bytes)
  | list (list : List Bytes)
  | hash (hmap : HashMap Bytes)
  | set (set : HashSet)

/-- Nanoseconds since the Unix epoch; the whole seconds are an `i64`. -/
structure SystemTime where
  nanos : Int
  fits : -2 ^ 63 ≤ nanos / 10 ^ 9 ∧ nanos / 10 ^ 9 < 2 ^ 63
  deriving DecidableEq

namespace SystemTime

instance : LE SystemTime := ⟨fun t u => t.nanos ≤ u.nanos⟩
instance : LT SystemTime := ⟨fun t u => t.nanos < u.nanos⟩
instance (t u : SystemTime) : Decidable (t ≤ u) := inferInstanceAs (Decidable (t.nanos ≤ u.nanos))
instance (t u : SystemTime) : Decidable (t < u) := inferInstanceAs (Decidable (t.nanos < u.nanos))

def unixEpoch : SystemTime := ⟨0, by decide⟩

/-- `self + Duration::from_secs(secs)`; `none` where the addition panics. -/
def addSecs (t : SystemTime) (secs : Nat) : Option SystemTime :=
  if h : t.nanos / 10 ^ 9 + secs < 2 ^ 63 then
    some ⟨t.nanos + secs * 10 ^ 9, by have := t.fits; omega⟩
  else none

/-- `self.duration_since(earlier)` in nanoseconds; `none` where it is an error. -/
def durationSince (t earlier : SystemTime) : Option Nat :=
  if earlier ≤ t then some (t.nanos - earlier.nanos).toNat else none

end SystemTime

structure Entry where
  value : DataType
  expiresAt : Option SystemTime

abbrev Shard := HashMap Entry

def shardCount : Nat := 64
def shardMask : UInt64 := 63

abbrev Index := Fin shardCount
abbrev Memory := Index → Shard

def newDb : Memory := fun _ => ∅

/-- What the program takes from outside: the hash function of the keys, the
regex compiler and the name of the operating system. -/
structure Env where
  hash : Bytes → UInt64
  regex : Text → Option (Text → Bool)
  os : Text

/-- An environment with one shard in use and no valid pattern. -/
def plainEnv : Env := ⟨fun _ => 0, fun _ => none, []⟩

/-- The first byte of a key is its shard. -/
def firstByteEnv : Env := ⟨fun key => (key.headD 0).toUInt64, fun _ => none, []⟩

namespace Shard

/-- `map.entry(key).or_insert_with(…)`, which keeps an entry that is there. -/
def orInsertWith (map : Shard) (key : Bytes) (default : Entry) : Shard :=
  if key ∈ map then map else map.insert key default

/-- A write through the mutable reference to the value of an entry. -/
def setValue (map : Shard) (key : Bytes) (value : DataType) : Shard :=
  match map.lookup key with
  | some entry => map.insert key { entry with value := value }
  | none => map

end Shard

section Locks
variable {μ : Type} (env : Env)

theorem mask_lt (x : UInt64) : (x &&& shardMask).toNat < shardCount := by
  rw [UInt64.toNat_and]
  exact Nat.lt_of_le_of_lt Nat.and_le_right (by decide)

def calculateShardIndex (key : Bytes) : Index := ⟨(env.hash key &&& shardMask).toNat, mask_lt _⟩

def readShard (key : Bytes) : Prog Index Shard μ Index := do
  let index := calculateShardIndex env key
  Prog.acquire index .read
  return index

def writeShard (key : Bytes) : Prog Index Shard μ Index := do
  let index := calculateShardIndex env key
  Prog.acquire index .write
  return index

inductive MultiGuard where
  | single (shard : Index)
  | double (shardA shardB : Index)
  deriving DecidableEq

def writeMultiShards (keyA keyB : Bytes) : Prog Index Shard μ MultiGuard :=
  let idxA := calculateShardIndex env keyA
  let idxB := calculateShardIndex env keyB
  if idxA = idxB then do
    Prog.acquire idxA .write
    return .single idxA
  else if idxA < idxB then do
    Prog.acquire idxA .write
    Prog.acquire idxB .write
    return .double idxA idxB
  else do
    Prog.acquire idxB .write
    Prog.acquire idxA .write
    return .double idxA idxB

/-- Both branches take the first key's shard first, whichever index is lower. -/
def readMultiShards (keyA keyB : Bytes) : Prog Index Shard μ MultiGuard :=
  let idxA := calculateShardIndex env keyA
  let idxB := calculateShardIndex env keyB
  if idxA = idxB then do
    Prog.acquire idxA .read
    return .single idxA
  else if idxA < idxB then do
    Prog.acquire idxA .read
    Prog.acquire idxB .read
    return .double idxA idxB
  else do
    Prog.acquire idxA .read
    Prog.acquire idxB .read
    return .double idxA idxB

/-- Dropping the guards at the end of their scope, the last bound one first. -/
def MultiGuard.release : MultiGuard → Prog Index Shard μ Unit
  | .single shard => Prog.drop shard
  | .double shardA shardB => do
    Prog.drop shardB
    Prog.drop shardA

/-- The total size, or the keys, of the shards from `is`, one lock at a time. -/
def overShards {β : Type} (f : β → Shard → β) : List Index → β → Prog Index Shard μ β
  | [], acc => pure acc
  | i :: is, acc => do
    Prog.acquire i .read
    let shard ← Prog.get i
    Prog.drop i
    overShards f is (f acc shard)

def getAllKeys : Prog Index Shard μ (List Bytes) :=
  overShards (fun collectedKeys shard => collectedKeys ++ shard.keys) (List.finRange shardCount) []

def scanShard (cursor : Nat) : Prog Index Shard μ (List Bytes) :=
  if h : cursor < shardCount then do
    Prog.acquire ⟨cursor, h⟩ .read
    let shard ← Prog.get (⟨cursor, h⟩ : Index)
    Prog.drop ⟨cursor, h⟩
    return shard.keys
  else return []

end Locks

end TitanKv
