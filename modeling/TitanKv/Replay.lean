import TitanKv.Lib.Lines
import TitanKv.Keyspace

/-! # Replay of the append-only file

`replayAof` reads the file line by line, tokenizes and parses each line, and
executes the command with the arms of `replayCommand`. It stops early only at a
line that is no UTF-8; it panics only where a deadline overflows. On the
keyspace the arms are `Keyspace.apply`. -/

namespace TitanKv
open Utf8 Local

section Arms
variable (env : Env)

/-- One arm's change of the map that owns the key. -/
def onShard (key : Bytes) (f : Shard → Shard) (db : Memory) : Memory :=
  Function.update db (calculateShardIndex env key) (f (db (calculateShardIndex env key)))

/-- `get_mut`, and a change of the list if there is one. -/
def editList (key : Bytes) (f : List Bytes → List Bytes) (map : Shard) : Shard :=
  match map.value? key with
  | some (.list list) => map.setValue key (.list (f list))
  | _ => map

/-- `entry(key).or_insert_with(…)`, and a change of the value if it has the type. -/
def growValue (key : Bytes) (empty : Entry) (f : DataType → Option DataType) (map : Shard) :
    Shard :=
  let map := map.orInsertWith key empty
  match (map.value? key).bind f with
  | some value => map.setValue key value
  | none => map

/-! The changes of a value, `none` at another type. -/

def changeList (f : List Bytes → List Bytes) : DataType → Option DataType
  | .list list => some (.list (f list))
  | _ => none

def insertField (field val : Bytes) : DataType → Option DataType
  | .hash hmap => some (.hash (hmap.insert field val))
  | _ => none

def insertMember (member : Bytes) : DataType → Option DataType
  | .set set => some (.set (set.insert member ()))
  | _ => none

/-- The number replay increments: 0 where a live `INCR` would fail. -/
def replayNumber : Option DataType → Int
  | some (.string val) => (parseI64 val).getD 0
  | _ => 0

/-- One arm of the replay loop; `none` where the deadline overflows. -/
def replayCommand (now : SystemTime) (command : Command) (db : Memory) : Option Memory :=
  match command with
  | .set k v => some (onShard env k (·.insert k ⟨.string v, none⟩) db)
  | .setEx k s v => (now.addSecs (asU64 s)).map fun expirationTime =>
    onShard env k (·.insert k ⟨.string v, some expirationTime⟩) db
  | .del k => some (onShard env k (·.erase k) db)
  | .incr k => some (onShard env k (fun map =>
    map.insert k ⟨.string (decimal (asI64 (replayNumber (map.value? k) + 1))), none⟩) db)
  | .lPush k v => some (onShard env k (growValue k emptyList (changeList fun list => v :: list)) db)
  | .rPush k v =>
    some (onShard env k (growValue k emptyList (changeList fun list => list ++ [v])) db)
  | .lPop k => some (onShard env k (editList k List.tail) db)
  | .rPop k => some (onShard env k (editList k List.dropLast) db)
  | .hSet k f v => some (onShard env k (growValue k emptyHash (insertField f v)) db)
  | .sAdd k member => some (onShard env k (growValue k emptySet (insertMember member)) db)
  | .lRem k _ v => some (onShard env k (editList k fun list => list.erase v) db)
  | .rPopLPush s d =>
    match (db (calculateShardIndex env s)).value? s with
    | some (.list list) => match popBack list with
      | some (v, rest) =>
        some (onShard env d (growValue d emptyList (changeList fun list => v :: list))
          (onShard env s (·.setValue s (.list rest)) db))
      | none => some db
    | _ => some db
  | _ => some db

/-- The arms one after another; the clock is read for each command anew. -/
def replayAll (clock : Nat → SystemTime) : Nat → List Command → Memory → Option Memory
  | _, [], db => some db
  | n, command :: commands, db =>
    (replayCommand env (clock n) command db).bind (replayAll clock (n + 1) commands)

end Arms

section Lines

def stripLast (c : Char) (text : Text) : Option Text :=
  if text.getLast? = some c then some text.dropLast else none

/-- A line as `next_line` returns it. -/
def lineContent (piece : Text) : Text :=
  match stripLast '\n' piece with
  | some body => (stripLast '\r' body).getD body
  | none => piece

def lineCommand (piece : Text) : Command := parseCommand (tokenize (lineContent piece))

/-- The commands of the lines up to the first that is no UTF-8. -/
def lineCommands : List Bytes → List Command
  | [] => []
  | piece :: pieces => match decode? piece with
    | some text => lineCommand text :: lineCommands pieces
    | none => []

def aofCommands (file : Bytes) : List Command := lineCommands (Lines.split 10 file)

def replayAof (env : Env) (clock : Nat → SystemTime) (file : Bytes) : Option Memory :=
  replayAll env clock 0 (aofCommands file) newDb

end Lines

section Refinement
variable (env : Env) {db db' : Memory} {now : SystemTime}

theorem view_onShard (key : Bytes) {f : Shard → Shard} {h : Option Item → Option Item}
    (hkey : ∀ map : Shard, (f map).items key = h (map.items key))
    (hrest : ∀ map : Shard, ∀ k, k ≠ key → (f map).items k = map.items k) (db : Memory) :
    view env (onShard env key f db) = onKey h key (view env db) :=
  view_update env (hkey _) (hrest _)

theorem editList_items (key : Bytes) (f : List Bytes → List Bytes) (map : Shard) :
    (editList key f map).items key = Item.onList f (map.items key) := by
  unfold editList Shard.value? Shard.items
  cases hl : map.lookup key with
  | none => simp [hl, Item.onList]
  | some entry =>
    obtain ⟨value, expiresAt⟩ := entry
    cases value with
    | list vals =>
      simp [Shard.lookup_setValue hl, Entry.item, DataType.toValue, Item.onList]
    | string val => simp [hl, Entry.item, DataType.toValue, Item.onList]
    | hash hmap => simp [hl, Entry.item, DataType.toValue, Item.onList]
    | set members => simp [hl, Entry.item, DataType.toValue, Item.onList]

theorem editList_items_of_ne {key k : Bytes} (f : List Bytes → List Bytes) (map : Shard)
    (h : k ≠ key) : (editList key f map).items k = map.items k := by
  unfold editList
  split
  · exact Shard.items_setValue_of_ne h
  · rfl

/-- A growing arm alters the item if its change of the value is the abstract one. -/
theorem growValue_items (key : Bytes) {empty : Entry} {f : DataType → Option DataType}
    {g : Value → Option Value} (hempty : empty.expiresAt = none)
    (hf : ∀ value, (f value).map DataType.toValue = g value.toValue) (map : Shard) :
    (growValue key empty f map).items key =
      Item.alter empty.value.toValue g (map.items key) := by
  have hlookup : (map.orInsertWith key empty).lookup key = some ((map.lookup key).getD empty) :=
    Shard.lookup_orInsertWith
  have hitem : (map.items key).getD ⟨empty.value.toValue, false⟩ =
      ((map.lookup key).getD empty).item := by
    unfold Shard.items
    cases map.lookup key with
    | none => simp [Entry.item, hempty]
    | some entry => rfl
  have hg := hf ((map.lookup key).getD empty).value
  unfold growValue Item.alter
  rw [hitem]
  simp only [Shard.value?, hlookup, Option.map_some, Option.bind_some, Entry.item, ← hg]
  cases hfv : f ((map.lookup key).getD empty).value with
  | none => simp [Shard.items, hlookup, Entry.item]
  | some value => simp [Shard.items, Shard.lookup_setValue hlookup, Entry.item]

theorem growValue_items_of_ne {key k : Bytes} {empty : Entry} {f : DataType → Option DataType}
    (map : Shard) (h : k ≠ key) : (growValue key empty f map).items k = map.items k := by
  unfold growValue
  dsimp only
  split
  · rw [Shard.items_setValue_of_ne h, Shard.items_orInsertWith_of_ne h]
  · exact Shard.items_orInsertWith_of_ne h

theorem view_replace (key : Bytes) (entry : Entry) (db : Memory) :
    view env (onShard env key (·.insert key entry) db) =
      onKey (Item.replace (some entry.item)) key (view env db) :=
  view_onShard env key (fun _ => Shard.items_insert) (fun _ _ h => Shard.items_insert_of_ne h) db

theorem view_editList (key : Bytes) (f : List Bytes → List Bytes) (db : Memory) :
    view env (onShard env key (editList key f) db) = onKey (Item.onList f) key (view env db) :=
  view_onShard env key (editList_items key f) (fun map _ h => editList_items_of_ne f map h) db

theorem view_growValue (key : Bytes) {empty : Entry} {f : DataType → Option DataType}
    {g : Value → Option Value} (hempty : empty.expiresAt = none)
    (hf : ∀ value, (f value).map DataType.toValue = g value.toValue) (db : Memory) :
    view env (onShard env key (growValue key empty f) db) =
      onKey (Item.alter empty.value.toValue g) key (view env db) :=
  view_onShard env key (growValue_items key hempty hf)
    (fun map _ h => growValue_items_of_ne map h) db

theorem changeList_toValue (f : List Bytes → List Bytes) (value : DataType) :
    (changeList f value).map DataType.toValue = Item.changeList f value.toValue := by
  cases value <;> rfl

theorem insertField_toValue (field val : Bytes) (value : DataType) :
    (insertField field val value).map DataType.toValue =
      Item.insertField field val value.toValue := by
  cases value with
  | hash hmap =>
    simp only [insertField, Option.map_some, DataType.toValue, Item.insertField,
      Option.some.injEq, Value.hash.injEq]
    funext f
    by_cases h : f = field
    · subst h; simp
    · simp [h, AList.lookup_insert_ne h]
  | _ => rfl

theorem insertMember_toValue (member : Bytes) (value : DataType) :
    (insertMember member value).map DataType.toValue = Item.insertMember member value.toValue := by
  cases value with
  | set members =>
    simp only [insertMember, Option.map_some, DataType.toValue, Item.insertMember,
      Option.some.injEq, Value.set.injEq]
    ext m
    simp [AList.mem_insert]
  | _ => rfl

theorem emptySet_toValue : emptySet.value.toValue = .set ∅ := by simp [emptySet, DataType.toValue]

theorem view_addMember (key member : Bytes) (db : Memory) :
    view env (onShard env key (growValue key emptySet (insertMember member)) db) =
      onKey (Item.addMember member) key (view env db) := by
  rw [view_growValue env key rfl (insertMember_toValue member), emptySet_toValue]
  rfl

theorem replayNumber_eq (item : Option Entry) :
    replayNumber (item.map Entry.value) = Item.number (item.map Entry.item) := by
  cases item with
  | none => rfl
  | some entry => obtain ⟨value, _⟩ := entry; cases value <;> rfl

theorem view_increment (key : Bytes) (db : Memory) :
    view env (onShard env key (fun map => map.insert key
      ⟨.string (decimal (asI64 (replayNumber (map.value? key) + 1))), none⟩) db) =
      onKey Item.increment key (view env db) := by
  refine view_onShard env key (fun map => ?_) (fun _ _ h => Shard.items_insert_of_ne h) db
  rw [Shard.items_insert, Shard.value?, replayNumber_eq]
  rfl

/-- The last element of the list a key holds. -/
theorem last?_view (key : Bytes) (db : Memory) :
    Item.last? (view env db key) =
      match (db (calculateShardIndex env key)).value? key with
      | some (.list list) => list.getLast?
      | _ => none := by
  unfold view Shard.items Shard.value?
  cases (db (calculateShardIndex env key)).lookup key with
  | none => rfl
  | some entry => obtain ⟨value, _⟩ := entry; cases value <;> rfl

theorem setValue_eq_editList {map : Shard} {key : Bytes} {list : List Bytes}
    {f : List Bytes → List Bytes} (h : map.value? key = some (.list list)) :
    map.setValue key (.list (f list)) = editList key f map := by
  unfold editList; rw [h]

/-- Replay's arms are the keyspace's commands. -/
theorem view_replayCommand {command : Command}
    (h : replayCommand env now command db = some db') :
    view env db' = Keyspace.apply command (view env db) := by
  cases command with
  | set k v => obtain rfl := Option.some.inj h; exact view_replace env k _ db
  | setEx k secs v =>
    obtain ⟨t, _, rfl⟩ := Option.map_eq_some_iff.mp h
    exact view_replace env k _ db
  | del k =>
    obtain rfl := Option.some.inj h
    exact view_onShard env k (fun _ => Shard.items_erase)
      (fun _ _ h => Shard.items_erase_of_ne h) db
  | incr k => obtain rfl := Option.some.inj h; exact view_increment env k db
  | lPush k v =>
    obtain rfl := Option.some.inj h; exact view_growValue env k rfl (changeList_toValue _) db
  | rPush k v =>
    obtain rfl := Option.some.inj h; exact view_growValue env k rfl (changeList_toValue _) db
  | lPop k => obtain rfl := Option.some.inj h; exact view_editList env k _ db
  | rPop k => obtain rfl := Option.some.inj h; exact view_editList env k _ db
  | hSet k f v =>
    obtain rfl := Option.some.inj h; exact view_growValue env k rfl (insertField_toValue f v) db
  | sAdd k member => obtain rfl := Option.some.inj h; exact view_addMember env k member db
  | lRem k count v => obtain rfl := Option.some.inj h; exact view_editList env k _ db
  | rPopLPush s d =>
    have hlast := last?_view env s db
    simp only [Keyspace.apply, Keyspace.move]
    simp only [replayCommand] at h
    rw [hlast]
    split at h
    · rename_i list hv
      unfold popBack at h
      cases hl : list.getLast? with
      | none =>
        rw [hl] at h
        obtain rfl := Option.some.inj h
        rfl
      | some val =>
        rw [hl] at h
        obtain rfl := Option.some.inj h
        rw [view_growValue env d rfl (changeList_toValue _)]
        dsimp only
        show onKey (Item.pushFront val) d _ = _
        congr 1
        rw [← view_editList]
        unfold onShard
        dsimp only
        rw [setValue_eq_editList hv]
    · rename_i hv
      obtain rfl := Option.some.inj h
      split
      · rfl
      · rename_i heq; cases heq
  | _ => obtain rfl := Option.some.inj h; rfl

/-- A command whose deadline, if it sets one, can be represented. -/
def Fits (now : SystemTime) : Command → Prop
  | .setEx _ seconds _ => (now.addSecs (asU64 seconds)).isSome
  | _ => True

/-- Replay panics at an overflowing deadline and nowhere else. -/
theorem replayCommand_isSome (db : Memory) {command : Command} :
    (replayCommand env now command db).isSome ↔ Fits now command := by
  cases command with
  | setEx k secs v => simp [replayCommand, Fits]
  | rPopLPush s d =>
    simp only [replayCommand, Fits, iff_true]
    split
    · split <;> rfl
    · rfl
  | _ => exact iff_of_true rfl trivial

variable {clock : Nat → SystemTime}

/-- Replaying a list of commands runs it on the keyspace. -/
theorem view_replayAll {n : Nat} {commands : List Command} {db db' : Memory}
    (h : replayAll env clock n commands db = some db') :
    view env db' = Keyspace.applyAll commands (view env db) := by
  induction commands generalizing n db with
  | nil => obtain rfl := Option.some.inj h; rfl
  | cons command commands ih =>
    obtain ⟨db₁, h₁, hrest⟩ := Option.bind_eq_some_iff.mp h
    rw [ih hrest, view_replayCommand env h₁]
    rfl

/-- Every deadline can be represented at the clock reading of its command. -/
def FitsAll (clock : Nat → SystemTime) : Nat → List Command → Prop
  | _, [] => True
  | n, command :: commands => Fits (clock n) command ∧ FitsAll clock (n + 1) commands

theorem replayAll_isSome (n : Nat) {commands : List Command} (db : Memory) :
    (replayAll env clock n commands db).isSome ↔ FitsAll clock n commands := by
  induction commands generalizing n db with
  | nil => exact iff_of_true rfl trivial
  | cons command commands ih =>
    rw [FitsAll, ← replayCommand_isSome env db, replayAll]
    cases h : replayCommand env (clock n) command db with
    | none => simp
    | some db₁ => simp [ih]

end Refinement

end TitanKv
