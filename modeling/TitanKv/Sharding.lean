import TitanKv.Lib.Footprint
import TitanKv.Replies

/-! # The shards as one map

The store against a single flat map from keys to entries. On the flat map a
command runs the code of its arm, every shard being that map; the commands that
go over all shards go over it once. Whatever the hash function, the two give the
same replies, and the shards stay a partition of the flat map. -/

namespace TitanKv
open TwoPhase

/-- Each key of the flat map lies in the shard of its index, and nowhere else. -/
def Partition (env : Env) (db : Memory) (flat : Shard) : Prop :=
  ∀ i key, (db i).lookup key = if calculateShardIndex env key = i then flat.lookup key else none

section Partition
variable {env : Env} {db : Memory} {flat : Shard} {key : Bytes}

theorem partition_newDb : Partition env newDb ∅ := by
  intro i key
  split <;> rfl

theorem Partition.lookup (h : Partition env db flat) (key : Bytes) :
    (db (calculateShardIndex env key)).lookup key = flat.lookup key := by
  rw [h, if_pos rfl]

/-- A change of a map at one key that depends on the entry there only. -/
structure AtKey (key : Bytes) (f : Shard → Shard) : Prop where
  frame : ∀ map k, k ≠ key → (f map).lookup k = map.lookup k
  reads : ∀ map map' : Shard, map.lookup key = map'.lookup key →
    (f map).lookup key = (f map').lookup key

theorem Partition.update {f : Shard → Shard} (hf : AtKey key f) (h : Partition env db flat) :
    Partition env (Function.update db (calculateShardIndex env key)
      (f (db (calculateShardIndex env key))))
      (f flat) := by
  intro i k
  by_cases hi : i = calculateShardIndex env key
  · subst hi
    rw [Function.update_self]
    by_cases hk : k = key
    · subst hk
      rw [if_pos rfl, hf.reads _ _ (h.lookup k)]
    · rw [hf.frame _ k hk, hf.frame _ k hk, h]
  · rw [Function.update_of_ne hi, h]
    by_cases hk : calculateShardIndex env k = i
    · have hne : k ≠ key := fun heq => hi (by rw [← hk, heq])
      rw [if_pos hk, if_pos hk, hf.frame _ k hne]
    · rw [if_neg hk, if_neg hk]

theorem AtKey.insert (key : Bytes) (entry : Entry) : AtKey key (·.insert key entry) where
  frame _ _ hk := AList.lookup_insert_ne hk
  reads _ _ _ := by rw [AList.lookup_insert, AList.lookup_insert]

theorem AtKey.erase (key : Bytes) : AtKey key (·.erase key) where
  frame _ _ hk := AList.lookup_erase_ne hk
  reads _ _ _ := by rw [AList.lookup_erase, AList.lookup_erase]

theorem AtKey.orInsertWith (key : Bytes) (empty : Entry) :
    AtKey key (·.orInsertWith key empty) where
  frame _ _ hk := Shard.lookup_orInsertWith_of_ne hk
  reads map map' h := by rw [Shard.lookup_orInsertWith, Shard.lookup_orInsertWith, h]

theorem AtKey.setValue (key : Bytes) (value : DataType) : AtKey key (·.setValue key value) where
  frame _ _ hk := Shard.lookup_setValue_of_ne hk
  reads map map' h := by
    cases hl : map.lookup key with
    | none => simp [Shard.setValue, hl, ← h]
    | some entry => rw [Shard.lookup_setValue hl, Shard.lookup_setValue (h ▸ hl)]

/-- The relation of the shards to a flat map follows the key. -/
abbrev Follows (env : Env) (R : Memory → Shard → Prop) (key : Bytes) : Prop :=
  Tracking (calculateShardIndex env) (fun map key => AList.lookup key map) R key

theorem AtKey.localChange {f : Shard → Shard} (h : AtKey key f) :
    LocalChange (fun (map : Shard) key => AList.lookup key map) key f :=
  ⟨h.frame, h.reads⟩

theorem follows_partition (key : Bytes) : Follows env (Partition env) key where
  reads _ _ h := h.lookup key
  change _ hf _ _ h := h.update ⟨hf.frame, hf.reads⟩

end Partition

section Flat

/-- The environment with one shard in use. -/
def Env.flat (env : Env) : Env := { env with hash := fun _ => 0 }

/-- A database with all its keys in one shard. -/
def alone (flat : Shard) : Memory := Function.update newDb ⟨0, Nat.succ_pos 63⟩ flat

/-- A request on the flat map: the code of its arm, run on that map. -/
def Request.handleFlat (env : Env) (request : Request) (flat : Shard) :
    Option (Outcome × Shard × List Command) :=
  match request.command with
  | .dbSize => some (.reply (integerReply flat.entries.length), flat, [])
  | .keys pattern => match env.regex (globRegex (bytesToStr pattern)) with
    | none => some (.closed, flat, [])
    | some isMatch => some (.reply (bulkArray (flat.keys.filter (keyMatches isMatch))), flat, [])
  | .info => ((handleInfo env request.ctx).run (alone flat)).map fun r => (r.1, flat, r.2.2)
  | command => (TitanKv.handle env.flat request.ctx command).runCell flat

/-- Requests one at a time on the flat map: their replies and the map they leave. -/
def executeFlat (env : Env) : List Request → Shard → Option (List Outcome × Shard)
  | [], flat => some ([], flat)
  | request :: requests, flat => (request.handleFlat env flat).bind fun r =>
      (executeFlat env requests r.2.1).map fun q => (r.1 :: q.1, q.2)

end Flat

section Arms
variable {env : Env} {R : Memory → Shard → Prop} {key : Bytes}

abbrev Same {α : Type} (env : Env) (p q : Arm α) : Prop := Matches (Partition env) p q

/-- The two read the map of a key. -/
theorem same_read {α : Type} {j : Index} {f g : Shard → Arm α} (hR : Follows env R key)
    (h : ∀ map flat : Shard, map.lookup key = flat.lookup key → Matches R (f map) (g flat)) :
    Matches R (Prog.get (calculateShardIndex env key) >>= f) (Prog.get j >>= g) :=
  .read fun _ _ h₀ => h _ _ (hR.reads _ _ h₀)

/-- The two change the map of a key at that key. -/
theorem same_write {α : Type} {j : Index} {change : Shard → Shard} {f g : Unit → Arm α}
    (hR : Follows env R key) (hc : AtKey key change) (h : Matches R (f ()) (g ())) :
    Matches R (Prog.modify (calculateShardIndex env key) change >>= f)
      (Prog.modify j change >>= g) :=
  .update (hR.change _ hc.localChange) h

theorem value?_congr {map flat : Shard} (h : map.lookup key = flat.lookup key) :
    map.value? key = flat.value? key := by
  rw [Shard.value?, h, Shard.value?]

theorem same_withEntry (key : Bytes) (respond : Option Entry → Bytes) (hR : Follows env R key) :
    Matches R (withEntry env key respond) (withEntry env.flat key respond) := by
  refine .lockL (.lockR (.read fun db flat h => .unlockL (.unlockR ?_)))
  rw [hR.reads _ _ h]
  exact .done _

theorem same_withWrite {arm arm' : Index → Arm Bytes}
    (h : Matches R (arm (calculateShardIndex env key)) (arm' (calculateShardIndex env.flat key))) :
    Matches R (withWrite env key arm) (withWrite env.flat key arm') :=
  .lockL (.lockR (h.bind fun _ => .unlockL (.unlockR (.done _))))

theorem same_remove {j : Index} (hR : Follows env R key) :
    Matches R (remove (calculateShardIndex env key) key) (remove j key) := by
  refine same_read hR fun map flat h => same_write hR (.erase key) ?_
  rw [h]
  exact .done _

theorem same_set (key value : Bytes) (hR : Follows env R key) :
    Matches R (handleSet env key value) (handleSet env.flat key value) :=
  same_withWrite (same_write hR (.insert key _) (.send (.done _)))

theorem same_del (key : Bytes) (hR : Follows env R key) :
    Matches R (handleDel env key) (handleDel env.flat key) := by
  refine same_withWrite ((same_remove hR).bind fun removed => ?_)
  cases removed with
  | none => exact .done _
  | some entry => exact .send (.done _)

variable (ctx : Ctx)

theorem same_setEx (key : Bytes) (seconds : Int) (value : Bytes) (hR : Follows env R key) :
    Matches R (handleSetEx env ctx key seconds value)
      (handleSetEx env.flat ctx key seconds value) := by
  unfold handleSetEx
  cases ctx.now.addSecs (asU64 seconds) with
  | none => exact .done _
  | some deadline =>
    exact same_withWrite (same_write hR (.insert key _) (.send (.done _)))

theorem same_get (key : Bytes) (hR : Follows env R key) :
    Matches R (handleGet env ctx key) (handleGet env.flat ctx key) := by
  refine same_withWrite (same_read hR fun map flat h => ?_)
  rw [h]
  split
  · refine (same_remove hR).bind fun removed => ?_
    cases removed with
    | none => exact .done _
    | some entry => exact .send (.done _)
  · refine same_read hR fun map flat h => ?_
    rw [value?_congr h]
    split <;> exact .done _

theorem same_incr (key : Bytes) (hR : Follows env R key) :
    Matches R (handleIncr env key) (handleIncr env.flat key) := by
  refine same_withWrite (same_read hR fun map flat h => ?_)
  rw [value?_congr h]
  split
  · exact .done _
  · exact same_write hR (.insert key _) (.send (.done _))

theorem same_lPush (key value : Bytes) (hR : Follows env R key) :
    Matches R (handleLPush env key value) (handleLPush env.flat key value) := by
  refine same_withWrite (same_write hR (.orInsertWith key _) (same_read hR fun map flat h => ?_))
  rw [value?_congr h]
  split
  · exact same_write hR (.setValue key _) (.send (.done _))
  · exact .done _

theorem same_rPush (key value : Bytes) (hR : Follows env R key) :
    Matches R (handleRPush env key value) (handleRPush env.flat key value) := by
  refine same_withWrite (same_write hR (.orInsertWith key _) (same_read hR fun map flat h => ?_))
  rw [value?_congr h]
  split
  · exact same_write hR (.setValue key _) (.send (.done _))
  · exact .done _

theorem same_lPop (key : Bytes) (hR : Follows env R key) :
    Matches R (handleLPop env key) (handleLPop env.flat key) := by
  refine same_withWrite (same_read hR fun map flat h => ?_)
  rw [value?_congr h]
  split
  · exact same_write hR (.setValue key _) (.send (.done _))
  all_goals exact .done _

theorem same_rPop (key : Bytes) (hR : Follows env R key) :
    Matches R (handleRPop env key) (handleRPop env.flat key) := by
  refine same_withWrite (same_read hR fun map flat h => ?_)
  rw [value?_congr h]
  split
  · split
    · exact same_write hR (.setValue key _) (.send (.done _))
    · exact .done _
  all_goals exact .done _

theorem same_lTrim (key : Bytes) (start stop : Int) (hR : Follows env R key) :
    Matches R (handleLTrim env key start stop) (handleLTrim env.flat key start stop) := by
  refine same_withWrite (same_read hR fun map flat h => ?_)
  rw [value?_congr h]
  split
  · dsimp only
    split
    · exact (same_remove hR).bind fun _ => .send (.done _)
    · split
      · exact same_write hR (.setValue key _) .hang
      · refine same_write hR (.setValue key _)
          (same_write hR (.setValue key _) ?_)
        split
        · exact (same_remove hR).bind fun _ => .send (.done _)
        · exact .send (.done _)
  all_goals exact .done _

theorem same_hSet (key field value : Bytes) (hR : Follows env R key) :
    Matches R (handleHSet env key field value) (handleHSet env.flat key field value) := by
  refine same_withWrite (same_write hR (.orInsertWith key _) (same_read hR fun map flat h => ?_))
  rw [value?_congr h]
  split
  · exact same_write hR (.setValue key _) (.send (.done _))
  · exact .done _

theorem same_sAdd (key member : Bytes) (hR : Follows env R key) :
    Matches R (handleSAdd env key member) (handleSAdd env.flat key member) := by
  refine same_withWrite (same_write hR (.orInsertWith key _) (same_read hR fun map flat h => ?_))
  rw [value?_congr h]
  split
  · split
    · exact .done _
    · exact same_write hR (.setValue key _) (.send (.done _))
  · exact .done _

theorem same_lRem (key value : Bytes) (hR : Follows env R key) :
    Matches R (handleLRem env key value) (handleLRem env.flat key value) := by
  refine same_withWrite (same_read hR fun map flat h => ?_)
  rw [value?_congr h]
  split
  · split
    · exact same_write hR (.setValue key _) (.send (.done _))
    · exact .done _
  · exact .done _

end Arms

section TwoKeys
variable {env : Env} {R : Memory → Shard → Prop} {α : Type} {keyA keyB : Bytes}

theorem same_release {guard guard' : MultiGuard} {f g : Unit → Arm α}
    (h : Matches R (f ()) (g ())) :
    Matches R (guard.release >>= f) (guard'.release >>= g) := by
  cases guard with
  | single i =>
    cases guard' with
    | single j => exact .unlockL (.unlockR h)
    | double j j' => exact .unlockL (.unlockR (.unlockR h))
  | double i i' =>
    cases guard' with
    | single j => exact .unlockL (.unlockL (.unlockR h))
    | double j j' => exact .unlockL (.unlockL (.unlockR (.unlockR h)))

/-- The guards cover the shards of the two keys, one guard or two. -/
theorem same_writeMultiShards {f g : MultiGuard → Arm α}
    (h : ∀ guard guard' : MultiGuard,
      guard.maps = (calculateShardIndex env keyA, calculateShardIndex env keyB) →
      Matches R (f guard) (g guard')) :
    Matches R (writeMultiShards env keyA keyB >>= f)
    (writeMultiShards env.flat keyA keyB >>= g) := by
  have hright : writeMultiShards env.flat keyA keyB =
      (.lock (calculateShardIndex env.flat keyA) .write
        (.done (.single (calculateShardIndex env.flat keyA))) : Arm MultiGuard) := if_pos rfl
  rw [hright]
  unfold writeMultiShards
  dsimp only
  split
  · rename_i heq
    exact .lockL (.lockR (h _ _ (by rw [MultiGuard.maps, ← heq])))
  · split
    · exact .lockL (.lockL (.lockR (h _ _ rfl)))
    · exact .lockL (.lockL (.lockR (h _ _ rfl)))

theorem same_readMultiShards {f g : MultiGuard → Arm α}
    (h : ∀ guard guard' : MultiGuard,
      guard.maps = (calculateShardIndex env keyA, calculateShardIndex env keyB) →
      Matches R (f guard) (g guard')) :
    Matches R (readMultiShards env keyA keyB >>= f) (readMultiShards env.flat keyA keyB >>= g) := by
  have hright : readMultiShards env.flat keyA keyB =
      (.lock (calculateShardIndex env.flat keyA) .read
        (.done (.single (calculateShardIndex env.flat keyA))) : Arm MultiGuard) := if_pos rfl
  rw [hright]
  unfold readMultiShards
  dsimp only
  split
  · rename_i heq
    exact .lockL (.lockR (h _ _ (by rw [MultiGuard.maps, ← heq])))
  · split
    · exact .lockL (.lockL (.lockR (h _ _ rfl)))
    · exact .lockL (.lockL (.lockR (h _ _ rfl)))

theorem same_withTwoValues (keyA keyB : Bytes) (respond : Option DataType → Option DataType → Bytes)
    (hA : Follows env R keyA) (hB : Follows env R keyB) :
    Matches R (withTwoValues env keyA keyB respond) (withTwoValues env.flat keyA keyB respond) := by
  refine same_readMultiShards fun guard guard' hmaps => ?_
  rw [hmaps]
  refine same_read hA fun mapA flatA h => same_read hB fun mapB flatB h' => same_release ?_
  rw [value?_congr h, value?_congr h']
  exact .done _

theorem same_rPopLPush (source destination : Bytes) (hs : Follows env R source)
    (hd : Follows env R destination) :
    Matches R (handleRPopLPush env source destination)
      (handleRPopLPush env.flat source destination) := by
  refine same_writeMultiShards fun guard guard' hmaps => ?_
  unfold moveUnder
  rw [hmaps]
  refine Matches.bind ?_ fun poppedVal => ?_
  · refine same_read hs fun map flat h => ?_
    rw [value?_congr h]
    split
    · split
      · exact same_write hs (.setValue source _) (.done _)
      · exact .done _
    · exact .done _
  · cases poppedVal with
    | none => exact same_release (.done _)
    | some val =>
      refine Matches.bind ?_ fun _ => same_release (.send (.done _))
      refine same_write hd (.orInsertWith destination _) (same_read hd fun map flat h => ?_)
      rw [value?_congr h]
      split
      · exact .update (hd.change _ (AtKey.setValue destination _).localChange) (.done _)
      · exact .done _

end TwoKeys

section WholeStore
variable {env : Env} {db : Memory} {flat : Shard}

theorem mem_keys_iff {map : Shard} {key : Bytes} :
    key ∈ map.keys ↔ (map.lookup key).isSome = true := by
  rw [← AList.mem_keys, AList.lookup_isSome]

theorem mem_allKeys {key : Bytes} : key ∈ allKeys db ↔ ∃ i, key ∈ db i := by
  rw [allKeys, List.mem_flatMap]
  constructor
  · intro h
    obtain ⟨i, -, hi⟩ := h
    exact ⟨i, AList.mem_keys.mpr hi⟩
  · intro h
    obtain ⟨i, hi⟩ := h
    exact ⟨i, List.mem_finRange i, AList.mem_keys.mp hi⟩

/-- Keys in the shards of their indices are listed once. -/
theorem nodup_allKeys (h : ∀ i key, key ∈ db i → calculateShardIndex env key = i) :
    (allKeys db).Nodup := by
  refine List.nodup_flatMap.mpr ⟨fun i _ => (db i).keys_nodup,
    (List.nodup_finRange shardCount).imp ?_⟩
  intro i j hne key hi hj
  exact hne ((h i key (AList.mem_keys.mpr hi)).symm.trans (h j key (AList.mem_keys.mpr hj)))

/-- The shards list the keys of the flat map, each once. -/
theorem Partition.allKeys_perm (h : Partition env db flat) : (allKeys db).Perm flat.keys := by
  have hindex : ∀ i key, key ∈ db i → calculateShardIndex env key = i := by
    intro i key hkey
    rw [← AList.lookup_isSome, h] at hkey
    by_contra hi
    rw [if_neg hi] at hkey
    cases hkey
  refine (List.perm_ext_iff_of_nodup (nodup_allKeys hindex) flat.keys_nodup).mpr fun key => ?_
  rw [mem_allKeys, mem_keys_iff]
  constructor
  · intro hkey
    obtain ⟨i, hi⟩ := hkey
    rw [← h.lookup key, hindex i key hi]
    exact AList.lookup_isSome.mpr hi
  · intro hkey
    refine ⟨calculateShardIndex env key, AList.lookup_isSome.mp ?_⟩
    rwa [h.lookup]

theorem length_keys (map : Shard) : map.keys.length = map.entries.length := List.length_map ..

theorem run_totalKeys (db : Memory) :
    (totalKeys : Arm Nat).run db = some ((allKeys db).length, db, []) := by
  have hfold : ∀ (is : List Index) (acc : Nat),
      is.foldl (fun acc i => acc + (db i).entries.length) acc =
        acc + (is.flatMap fun i => (db i).keys).length := by
    intro is
    induction is with
    | nil => simp
    | cons i is ih =>
      intro acc
      rw [List.foldl_cons, ih, List.flatMap_cons, List.length_append, length_keys, Nat.add_assoc]
  rw [totalKeys, run_overShards, hfold, Nat.zero_add, allKeys]

theorem Partition.length_allKeys (h : Partition env db flat) :
    (allKeys db).length = flat.entries.length := by
  rw [h.allKeys_perm.length_eq, length_keys]

theorem partition_alone (env : Env) (flat : Shard) : Partition env.flat (alone flat) flat := by
  intro i key
  have hindex : calculateShardIndex env.flat key = ⟨0, Nat.succ_pos 63⟩ := by
    simp [calculateShardIndex, Env.flat]
  rw [hindex]
  by_cases hi : i = ⟨0, Nat.succ_pos 63⟩
  · rw [if_pos hi.symm, alone, hi, Function.update_self]
  · rw [if_neg (fun heq => hi heq.symm), alone, Function.update_of_ne hi]
    rfl

/-- `INFO` reads the number of keys only. -/
theorem run_handleInfo (env : Env) (ctx : Ctx) : ∃ respond : Nat → Outcome, ∀ db : Memory,
    (handleInfo env ctx).run db = some (respond (allKeys db).length, db, []) := by
  have hform : ∃ respond : Nat → Outcome,
      handleInfo env ctx = totalKeys >>= fun total => (.done (respond total) : Handler) := ⟨_, rfl⟩
  obtain ⟨respond, hrespond⟩ := hform
  refine ⟨respond, fun db => ?_⟩
  rw [hrespond, Prog.run_bind, run_totalKeys]
  rfl

end WholeStore

section Requests
variable {env : Env} {R : Memory → Shard → Prop} {db : Memory} {flat : Shard}

/-- The commands of the data's whole extent, and `SCAN`. -/
def Command.isWhole : Command → Prop
  | .dbSize | .keys _ | .info | .scan _ _ => True
  | _ => False

theorem same_looksUp (ctx : Ctx) {command : Command} {k : Bytes} (h : command.looksUp = some k)
    (hR : Follows env R k) :
    Matches R (handle env ctx command) (handle env.flat ctx command) := by
  obtain ⟨respond, hr⟩ := handle_looksUp ctx h
  rw [hr, hr]
  exact same_withEntry k respond hR

/-- A command keeps every relation to the flat map that follows its keys. -/
theorem matches_handle (ctx : Ctx) {command : Command} (h : ¬ command.isWhole)
    (hR : ∀ key ∈ command.keyArgs, Follows env R key) :
    Matches R (handle env ctx command) (handle env.flat ctx command) := by
  cases command with
  | set key value => exact same_set key value (hR key List.mem_cons_self)
  | setEx key seconds value => exact same_setEx ctx key seconds value (hR key List.mem_cons_self)
  | get key => exact same_get ctx key (hR key List.mem_cons_self)
  | del key => exact same_del key (hR key List.mem_cons_self)
  | incr key => exact same_incr key (hR key List.mem_cons_self)
  | lPush key value => exact same_lPush key value (hR key List.mem_cons_self)
  | lPop key => exact same_lPop key (hR key List.mem_cons_self)
  | rPush key value => exact same_rPush key value (hR key List.mem_cons_self)
  | rPop key => exact same_rPop key (hR key List.mem_cons_self)
  | lTrim key start stop => exact same_lTrim key start stop (hR key List.mem_cons_self)
  | hSet key field value => exact same_hSet key field value (hR key List.mem_cons_self)
  | sAdd key member => exact same_sAdd key member (hR key List.mem_cons_self)
  | lRem key count value => exact same_lRem key value (hR key List.mem_cons_self)
  | rPopLPush source destination =>
    exact same_rPopLPush source destination (hR source List.mem_cons_self)
      (hR destination (List.mem_cons_of_mem _ List.mem_cons_self))
  | mGet keyA keyB =>
    show Matches R (handleMGet env keyA keyB) (handleMGet env.flat keyA keyB)
    exact same_withTwoValues keyA keyB _ (hR keyA List.mem_cons_self)
      (hR keyB (List.mem_cons_of_mem _ List.mem_cons_self))
  | sInter keyA keyB =>
    show Matches R (handleSInter env keyA keyB) (handleSInter env.flat keyA keyB)
    exact same_withTwoValues keyA keyB _ (hR keyA List.mem_cons_self)
      (hR keyB (List.mem_cons_of_mem _ List.mem_cons_self))
  | strlen key | «type» key | ttl key | pttl key | «exists» key | lRange key _ _ | hGetAll key
  | hGet key _ | sMembers key | scard key | llen key | hlen key =>
    exact same_looksUp ctx rfl (hR key List.mem_cons_self)
  | dbSize | keys _ | info | scan _ _ => exact absurd trivial h
  | _ => exact .done _

theorem same_handle (ctx : Ctx) {command : Command} (h : ¬ command.isWhole) :
    Same env (handle env ctx command) (handle env.flat ctx command) :=
  matches_handle ctx h fun key _ => follows_partition key

/-- The replies of a command are equal, or list the same keys in another order. -/
inductive SameReply (command : Command) : Outcome → Outcome → Prop
  | same (a : Outcome) : SameReply command a a
  | keys {pattern : Bytes} {vals vals' : List Bytes} (hc : command = .keys pattern)
      (hp : vals.Perm vals') :
      SameReply command (.reply (bulkArray vals)) (.reply (bulkArray vals'))

/-- The commands over all shards end on both stores. -/
theorem whole_same (ctx : Ctx) {command : Command} (hwhole : command.isWhole)
    (hscan : ∀ cursor pattern, command ≠ .scan cursor pattern) (h : Partition env db flat) :
    ∃ a a', (Request.handle env ⟨ctx, command⟩).run db = some (a, db, []) ∧
      Request.handleFlat env ⟨ctx, command⟩ flat = some (a', flat, []) ∧
        SameReply command a a' := by
  cases command with
  | dbSize =>
    refine ⟨_, _, ?_, rfl, .same _⟩
    simp only [Request.handle, handle, handleDbSize]
    rw [Prog.run_bind, run_totalKeys, h.length_allKeys]
    rfl
  | info =>
    obtain ⟨respond, hrun⟩ := run_handleInfo env ctx
    refine ⟨_, _, hrun db, ?_, .same _⟩
    simp only [Request.handleFlat]
    rw [hrun, (partition_alone env flat).length_allKeys, h.length_allKeys]
    rfl
  | keys pattern =>
    simp only [Request.handle, Request.handleFlat, handle, handleKeys]
    cases env.regex (globRegex (bytesToStr pattern)) with
    | none => exact ⟨_, _, rfl, rfl, .same _⟩
    | some isMatch =>
      refine ⟨_, _, ?_, rfl, .keys rfl (h.allKeys_perm.filter _)⟩
      rw [Prog.run_bind, run_getAllKeys]
      rfl
  | scan cursor pattern => exact absurd rfl (hscan cursor pattern)
  | _ => exact hwhole.elim

theorem handleFlat_of_not_whole {ctx : Ctx} {command : Command} (h : ¬ command.isWhole)
    (flat : Shard) :
    Request.handleFlat env ⟨ctx, command⟩ flat = (handle env.flat ctx command).runCell flat := by
  cases command with
  | dbSize | keys _ | info => exact absurd trivial h
  | _ => rfl

/-- One request: neither store's ends, or both do, with the same reply. -/
theorem request_same {request : Request}
    (hscan : ∀ cursor pattern, request.command ≠ .scan cursor pattern) (h : Partition env db flat) :
    ((request.handle env).run db = none ∧ request.handleFlat env flat = none) ∨
    ∃ a db' logs a' flat', (request.handle env).run db = some (a, db', logs) ∧
      request.handleFlat env flat = some (a', flat', logs) ∧ SameReply request.command a a' ∧
      Partition env db' flat' := by
  obtain ⟨ctx, command⟩ := request
  by_cases hwhole : command.isWhole
  · obtain ⟨a, a', hrun, hflat, hreply⟩ := whole_same ctx hwhole hscan h
    exact Or.inr ⟨a, db, [], a', flat, hrun, hflat, hreply, h⟩
  · rw [handleFlat_of_not_whole hwhole]
    have hends : EndAlike (Partition env) ((Request.handle env ⟨ctx, command⟩).run db) _ :=
      (same_handle ctx hwhole).run h
    revert hends
    generalize (Request.handle env ⟨ctx, command⟩).run db = ends
    generalize (handle env.flat ctx command).runCell flat = endsFlat
    rintro (_ | h)
    · exact Or.inl ⟨rfl, rfl⟩
    · exact Or.inr ⟨_, _, _, _, _, rfl, rfl, .same _, h⟩

/-- The replies of one run are those of the other, request by request. -/
inductive SameReplies : List Request → List Outcome → List Outcome → Prop
  | nil : SameReplies [] [] []
  | cons {request : Request} {requests : List Request} {a a' : Outcome} {as as' : List Outcome}
      (head : SameReply request.command a a') (tail : SameReplies requests as as') :
      SameReplies (request :: requests) (a :: as) (a' :: as')

/-- Neither run ends, or both do: alike in their replies, with the shards a
partition of the flat map. -/
def Alike (env : Env) (requests : List Request) :
    Option (List Outcome × Memory) → Option (List Outcome × Shard) → Prop
  | none, none => True
  | some (replies, db), some (replies', flat) =>
    SameReplies requests replies replies' ∧ Partition env db flat
  | _, _ => False

theorem alike_of_partition {requests : List Request}
    (hscan : ∀ request ∈ requests, ∀ cursor pattern, request.command ≠ .scan cursor pattern)
    (h : Partition env db flat) :
    Alike env requests (execAll (Request.handle env) requests db)
      (executeFlat env requests flat) := by
  induction requests generalizing db flat with
  | nil => exact ⟨.nil, h⟩
  | cons request requests ih =>
    rw [execAll, executeFlat]
    obtain ⟨hrun, hflat⟩ | ⟨a, db', logs, a', flat', hrun, hflat, hreply, h'⟩ :=
      request_same (hscan request (by simp)) h
    · rw [hrun, hflat]
      trivial
    · rw [hrun, hflat, Option.bind_some, Option.bind_some]
      have hrest := ih (fun r hr => hscan r (List.mem_cons_of_mem _ hr)) h'
      revert hrest
      generalize execAll (Request.handle env) requests db' = ends
      generalize executeFlat env requests flat' = endsFlat
      intro hrest
      cases ends with
      | none =>
        cases endsFlat with
        | none => trivial
        | some _ => exact hrest.elim
      | some ends =>
        cases endsFlat with
        | none => exact hrest.elim
        | some _ => exact ⟨.cons hreply hrest.1, hrest.2⟩

/-- From the empty database, at every step of every run of requests without
`SCAN`, the store replies as the flat map does, and each key of the flat map is in
the shard of its index: counted once, listed once. -/
theorem sharding_invisible (env : Env) {requests : List Request}
    (hscan : ∀ request ∈ requests, ∀ cursor pattern, request.command ≠ .scan cursor pattern)
    (n : Nat) :
    Alike env (requests.take n) (execAll (Request.handle env) (requests.take n) newDb)
        (executeFlat env (requests.take n) ∅) ∧
      ∀ replies db replies' flat, execAll (Request.handle env) (requests.take n) newDb =
        some (replies, db) →
        executeFlat env (requests.take n) ∅ = some (replies', flat) →
        (allKeys db).Perm flat.keys ∧ (allKeys db).Nodup ∧
          (totalKeys : Arm Nat).run db = some (flat.entries.length, db, []) := by
  have halike : Alike env (requests.take n) (execAll (Request.handle env) (requests.take n) newDb)
      (executeFlat env (requests.take n) ∅) :=
    alike_of_partition (fun request hr => hscan request (List.mem_of_mem_take hr)) partition_newDb
  refine ⟨halike, fun replies db replies' flat hrun hflat => ?_⟩
  rw [hrun, hflat] at halike
  obtain ⟨-, hpartition⟩ := halike
  refine ⟨hpartition.allKeys_perm, hpartition.allKeys_perm.nodup_iff.mpr flat.keys_nodup, ?_⟩
  rw [run_totalKeys, hpartition.length_allKeys]

/-- Keys spread by their length, and patterns that match every key. -/
def lengthEnv : Env :=
  { plainEnv with hash := fun key => UInt64.ofNat key.length, regex := fun _ => some fun _ => true }

theorem sharding_invisible_move :
    let requests : List Request :=
  [⟨plainCtx, .lPush [97] [120]⟩, ⟨plainCtx, .rPopLPush [97] [98, 98]⟩,
      ⟨plainCtx, .dbSize⟩, ⟨plainCtx, .keys [42]⟩]
    Alike lengthEnv (requests.take 4) (execAll (Request.handle lengthEnv) (requests.take 4) newDb)
        (executeFlat lengthEnv (requests.take 4) ∅) ∧
      ∀ replies db replies' flat,
        execAll (Request.handle lengthEnv) (requests.take 4) newDb = some (replies, db) →
        executeFlat lengthEnv (requests.take 4) ∅ = some (replies', flat) →
        (allKeys db).Perm flat.keys ∧ (allKeys db).Nodup ∧
          (totalKeys : Arm Nat).run db = some (flat.entries.length, db, []) :=
  sharding_invisible lengthEnv (by simp) 4

end Requests

end TitanKv
