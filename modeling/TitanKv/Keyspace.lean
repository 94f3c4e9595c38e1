import TitanKv.Lib.Local
import TitanKv.Lib.LogOrder
import TitanKv.Server

/-! # The keyspace, without shards, locks or clocks

What the database is for: a map from keys to items, an item being a value and
whether it carries a deadline. `Keyspace.apply` is the meaning of a logged
command on it. `view` reads the keyspace off the shards. -/

namespace TitanKv
open Local TwoPhase

inductive Value where
  | string (val : Bytes)
  | list (list : List Bytes)
  | hash (fields : Bytes → Option Bytes)
  | set (members : Set Bytes)

structure Item where
  value : Value
  expires : Bool

abbrev Keyspace := Bytes → Option Item

namespace Item

/-- The item of a collection command: created empty if absent, and left alone
by a command of another type. -/
def alter (empty : Value) (f : Value → Option Value) (item : Option Item) : Option Item :=
  let present := item.getD ⟨empty, false⟩
  some { present with value := (f present.value).getD present.value }

def changeList (f : List Bytes → List Bytes) : Value → Option Value
  | .list list => some (.list (f list))
  | _ => none

def insertField (field val : Bytes) : Value → Option Value
  | .hash fields => some (.hash (Function.update fields field (some val)))
  | _ => none

def insertMember (member : Bytes) : Value → Option Value
  | .set members => some (.set (insert member members))
  | _ => none

def pushFront (val : Bytes) : Option Item → Option Item :=
  alter (.list []) (changeList fun list => val :: list)

def pushBack (val : Bytes) : Option Item → Option Item :=
  alter (.list []) (changeList fun list => list ++ [val])

def setField (field val : Bytes) : Option Item → Option Item :=
  alter (.hash fun _ => none) (insertField field val)

def addMember (member : Bytes) : Option Item → Option Item :=
  alter (.set ∅) (insertMember member)

/-- The item of a command on an existing list. -/
def onList (f : List Bytes → List Bytes) : Option Item → Option Item
  | some ⟨.list list, expires⟩ => some ⟨.list (f list), expires⟩
  | item => item

def last? : Option Item → Option Bytes
  | some ⟨.list list, _⟩ => list.getLast?
  | _ => none

/-- The number replay counts from: 0 where there is none. -/
def number : Option Item → Int
  | some ⟨.string val, _⟩ => (parseI64 val).getD 0
  | _ => 0

def replace (new : Option Item) : Option Item → Option Item := fun _ => new

def increment (item : Option Item) : Option Item :=
  some ⟨.string (decimal (asI64 (number item + 1))), false⟩

end Item

namespace Keyspace

def empty : Keyspace := fun _ => none

def move (source destination : Bytes) (ks : Keyspace) : Keyspace :=
  match Item.last? (ks source) with
  | none => ks
  | some val =>
    onKey (Item.pushFront val) destination (onKey (Item.onList List.dropLast) source ks)

def apply : Command → Keyspace → Keyspace
  | .set key value => onKey (Item.replace (some ⟨.string value, false⟩)) key
  | .setEx key _ value => onKey (Item.replace (some ⟨.string value, true⟩)) key
  | .del key => onKey (Item.replace none) key
  | .incr key => onKey Item.increment key
  | .lPush key value => onKey (Item.pushFront value) key
  | .rPush key value => onKey (Item.pushBack value) key
  | .lPop key => onKey (Item.onList List.tail) key
  | .rPop key => onKey (Item.onList List.dropLast) key
  | .hSet key field value => onKey (Item.setField field value) key
  | .sAdd key member => onKey (Item.addMember member) key
  | .lRem key _ value => onKey (Item.onList fun list => list.erase value) key
  | .rPopLPush source destination => move source destination
  | _ => id

/-- Executing commands in order. -/
abbrev applyAll : List Command → Keyspace → Keyspace := TwoPhase.applyAll apply

end Keyspace

/-- The keys a command names; a command without keys is not about the data. -/
def Command.keyArgs : Command → List Bytes
  | .set key _ | .get key | .del key | .exists key | .incr key | .setEx key _ _ | .lPush key _
  | .lPop key | .rPop key | .rPush key _ | .lRem key _ _ | .lTrim key _ _ | .lRange key _ _
  | .hSet key _ _ | .hGetAll key | .hGet key _ | .sAdd key _ | .type key | .ttl key | .pttl key
  | .llen key | .hlen key | .scard key | .sMembers key | .strlen key => [key]
  | .rPopLPush keyA keyB | .mGet keyA keyB | .sInter keyA keyB => [keyA, keyB]
  | _ => []

namespace Keyspace

theorem move_local (source destination : Bytes) :
    LocalTo {k | k = source ∨ k = destination} (move source destination) := by
  have hmove : ∀ val, LocalTo {k | k = source ∨ k = destination} fun ks : Keyspace =>
      onKey (Item.pushFront val) destination (onKey (Item.onList List.dropLast) source ks) :=
    fun val => LocalTo.comp (S := _) (LocalTo.onKey _ (by simp)) (LocalTo.onKey _ (by simp))
  constructor
  · intro ks k hk
    unfold move
    cases Item.last? (ks source) with
    | none => rfl
    | some val => exact (hmove val).frame ks k hk
  · intro ks ks' hks k hk
    unfold move
    rw [hks source (Or.inl rfl)]
    cases Item.last? (ks' source) with
    | none => exact hks k hk
    | some val => exact (hmove val).reads ks ks' hks k hk

theorem apply_local (cmd : Command) : LocalTo {k | k ∈ cmd.keyArgs} (apply cmd) := by
  cases cmd with
  | rPopLPush source destination =>
    exact (move_local source destination).mono fun k hk => by
      rcases hk with rfl | rfl <;> simp [Command.keyArgs]
  | set key _ | setEx key _ _ | del key | incr key | lPush key _ | rPush key _ | lPop key | rPop key
  | hSet key _ _ | sAdd key _ | lRem key _ _ =>
    exact LocalTo.onKey _ (List.mem_singleton.mpr (rfl : key = key))
  | _ => exact LocalTo.id

/-- Commands without a common key commute. -/
theorem apply_commute {cmd cmd' : Command} (h : ∀ k ∈ cmd.keyArgs, k ∉ cmd'.keyArgs)
    (ks : Keyspace) :
    apply cmd (apply cmd' ks) = apply cmd' (apply cmd ks) :=
  (apply_local cmd).commute (apply_local cmd') h ks

end Keyspace

section Locality
variable {commands : List Command} {key : Bytes} {ks ks' : Keyspace}

/-- Commands that do not name a key leave it alone. -/
theorem applyAll_frame (h : ∀ c ∈ commands, key ∉ c.keyArgs) (ks : Keyspace) :
    Keyspace.applyAll commands ks key = ks key := by
  induction commands generalizing ks with
  | nil => rfl
  | cons c commands ih =>
    rw [Keyspace.applyAll, applyAll_cons, ← Keyspace.applyAll,
      ih fun c' hc' => h c' (List.mem_cons_of_mem _ hc')]
    exact (Keyspace.apply_local c).frame ks key (h c (by simp))

def Command.SingleKey (c : Command) : Prop := ∀ k ∈ c.keyArgs, ∀ k' ∈ c.keyArgs, k = k'

theorem singleKey_of_eq {c : Command} (h : c.keyArgs = [key]) : c.SingleKey := by
  intro k hk k' hk'
  rw [h, List.mem_singleton] at hk hk'
  rw [hk, hk']

/-- What commands of one key each make of a key depends on that key only. -/
theorem applyAll_at (h : ∀ c ∈ commands, c.SingleKey) (hk : ks key = ks' key) :
    Keyspace.applyAll commands ks key = Keyspace.applyAll commands ks' key := by
  induction commands generalizing ks ks' with
  | nil => exact hk
  | cons c commands ih =>
    rw [Keyspace.applyAll, applyAll_cons, applyAll_cons]
    refine ih (fun c' hc' => h c' (List.mem_cons_of_mem _ hc')) ?_
    have hlocal := Keyspace.apply_local c
    by_cases hin : key ∈ c.keyArgs
    · refine hlocal.reads ks ks' (fun k hk' => ?_) key hin
      rwa [h c (by simp) k hk' key hin]
    · rw [hlocal.frame ks key hin, hlocal.frame ks' key hin, hk]

end Locality

section View

def DataType.toValue : DataType → Value
  | .string val => .string val
  | .list vals => .list vals
  | .hash hmap => .hash hmap.lookup
  | .set members => .set {member | member ∈ members}

def Entry.item (entry : Entry) : Item := ⟨entry.value.toValue, entry.expiresAt.isSome⟩

def Shard.items (map : Shard) (key : Bytes) : Option Item := (map.lookup key).map Entry.item

/-- The keyspace the shards hold: each key is looked up in its own shard. -/
def view (env : Env) (db : Memory) : Keyspace :=
  fun key => (db (calculateShardIndex env key)).items key

theorem view_newDb (env : Env) : view env newDb = Keyspace.empty := rfl

namespace Shard
variable {map : Shard} {key k : Bytes} {entry : Entry} {value : DataType}

theorem mem_iff_items : k ∈ map ↔ (map.items k).isSome := by
  simp [items, AList.lookup_isSome]

@[simp] theorem items_insert : items (map.insert key entry) key = some entry.item := by
  simp [items]

@[simp] theorem items_insert_of_ne (h : k ≠ key) :
    items (map.insert key entry) k = map.items k := by
  simp [items, AList.lookup_insert_ne h]

@[simp] theorem items_erase : items (map.erase key) key = none := by
  simp [items]

@[simp] theorem items_erase_of_ne (h : k ≠ key) : items (map.erase key) k = map.items k := by
  simp [items, AList.lookup_erase_ne h]

theorem lookup_setValue (h : map.lookup key = some entry) :
    (map.setValue key value).lookup key = some { entry with value := value } := by
  simp [setValue, h]

theorem lookup_setValue_of_ne (h : k ≠ key) : (map.setValue key value).lookup k = map.lookup k := by
  unfold setValue
  split
  · exact AList.lookup_insert_ne h
  · rfl

@[simp] theorem items_setValue_of_ne (h : k ≠ key) :
    (map.setValue key value).items k = map.items k := by
  rw [items, lookup_setValue_of_ne h, items]

theorem lookup_orInsertWith :
    (map.orInsertWith key entry).lookup key = some ((map.lookup key).getD entry) := by
  unfold orInsertWith
  split
  · rename_i hmem
    obtain ⟨e, he⟩ := Option.isSome_iff_exists.mp (AList.lookup_isSome.mpr hmem)
    simp [he]
  · rename_i hmem
    simp [AList.lookup_eq_none.mpr hmem]

theorem lookup_orInsertWith_of_ne (h : k ≠ key) :
    (map.orInsertWith key entry).lookup k = map.lookup k := by
  unfold orInsertWith
  split
  · rfl
  · exact AList.lookup_insert_ne h

@[simp] theorem items_orInsertWith_of_ne (h : k ≠ key) :
    (map.orInsertWith key entry).items k = map.items k := by
  rw [items, lookup_orInsertWith_of_ne h, items]

end Shard

variable (env : Env) {db : Memory} {key : Bytes}

/-- A change of one key's shard that leaves the other keys alone is an
operation on that key. -/
theorem view_update {map : Shard} {h : Option Item → Option Item}
    (hkey : map.items key = h ((db (calculateShardIndex env key)).items key))
    (hrest : ∀ k, k ≠ key → map.items k = (db (calculateShardIndex env key)).items k) :
    view env (Function.update db (calculateShardIndex env key) map) =
      onKey h key (view env db) := by
  funext k
  by_cases hk : k = key
  · subst hk; simp [view, hkey]
  · rw [onKey_of_ne _ _ hk]
    unfold view
    by_cases hi : calculateShardIndex env k = calculateShardIndex env key
    · rw [hi, Function.update_self, hrest k hk]
    · rw [Function.update_of_ne hi]

end View

end TitanKv
