import TitanKv.Locality
import TitanKv.Sweeper

/-! # Keys stay in their shards

A command, a replay arm and a visit of the sweeper change entries of the keys
they name or find, in the shards of those keys. So every key of a reachable
database is in the shard of its index. -/

namespace TitanKv
open Local TwoPhase Runs

/-- Each key is in the shard of its index. -/
def Routed (env : Env) (db : Memory) : Prop := ∀ i key, key ∈ db i → calculateShardIndex env key = i

/-- The entry of the key in its shard. -/
def entryAt (env : Env) (db : Memory) (key : Bytes) : Option Entry :=
  (db (calculateShardIndex env key)).lookup key

theorem stored_eq (env : Env) (db : Memory) (key : Bytes) :
    stored env db key = (entryAt env db key).map Entry.value := rfl

/-- The entries outside the shards of the given keys are as before. -/
def TouchesOnly (env : Env) (keys : List Bytes) (db db' : Memory) : Prop :=
  ∀ i key, ¬ (key ∈ keys ∧ i = calculateShardIndex env key) → (db' i).lookup key = (db i).lookup key

section Frames
variable {env : Env} {db db' db₁ : Memory} {keys keys' : List Bytes} {key : Bytes}

theorem routed_newDb : Routed env newDb := fun _ key h => absurd h (AList.notMem_empty key)

theorem TouchesOnly.same : TouchesOnly env keys db db := fun _ _ _ => rfl

theorem TouchesOnly.mono (h : TouchesOnly env keys db db') (hsub : ∀ key ∈ keys, key ∈ keys') :
    TouchesOnly env keys' db db' :=
  fun i key hkey => h i key fun hin => hkey ⟨hsub key hin.1, hin.2⟩

theorem TouchesOnly.trans (h : TouchesOnly env keys db db₁) (h' : TouchesOnly env keys db₁ db') :
    TouchesOnly env keys db db' :=
  fun i key hkey => (h' i key hkey).trans (h i key hkey)

theorem TouchesOnly.entryAt (h : TouchesOnly env keys db db') (hkey : key ∉ keys) :
    entryAt env db' key = entryAt env db key :=
  h _ key fun hin => hkey hin.1

theorem TouchesOnly.routed (h : TouchesOnly env keys db db') (hdb : Routed env db) :
    Routed env db' := by
  intro i key hkey
  by_contra hi
  have hsame := h i key fun hin => hi hin.2.symm
  refine hi (hdb i key ?_)
  rwa [← AList.lookup_isSome, ← hsame, AList.lookup_isSome]

/-- A change of one key's shard at that key. -/
theorem TouchesOnly.onShard {f : Shard → Shard}
    (hf : ∀ map k, k ≠ key → (f map).lookup k = map.lookup k) :
    TouchesOnly env [key] db (onShard env key f db) := by
  intro i k hk
  unfold TitanKv.onShard
  by_cases hi : i = calculateShardIndex env key
  · have hne : k ≠ key := fun heq => hk ⟨List.mem_singleton.mpr heq, heq ▸ hi⟩
    rw [hi, Function.update_self, hf _ k hne]
  · rw [Function.update_of_ne hi]

end Frames

section Commands
variable (env : Env) (ctx : Ctx) {command : Command} {db db' : Memory} {a : Outcome}
  {logs : List Command}

/-- A command leaves the entries of the keys it does not name alone. -/
theorem handle_frame (hrun : (handle env ctx command).run db = some (a, db', logs)) :
    TouchesOnly env command.keyArgs db db' := by
  intro i key hkey
  by_cases hnames : command.keyArgs = []
  · have hreads : command.reads := by
      cases command <;> trivial
    obtain ⟨rfl, -⟩ := run_of_reads env ctx hreads hrun
    rfl
  · obtain ⟨flat, hflat⟩ :=
      exists_entries command.keyArgs fun key => entryOf (db (calculateShardIndex env key)) key
    exact (handle_footprint env ctx hnames).frame ⟨flat, hflat⟩ hrun hkey

theorem handle_routed (h : Routed env db)
    (hrun : (handle env ctx command).run db = some (a, db', logs)) :
    Routed env db' :=
  (handle_frame env ctx hrun).routed h

end Commands

section Sweeps
variable {env : Env} {db : Memory} {i : Index} {keys : List Bytes} {key : Bytes}

theorem removeKeys_lookup (keys : List Bytes) (map : Shard) (key : Bytes) :
    (removeKeys keys map).lookup key = if key ∈ keys then none else map.lookup key := by
  split
  · rename_i hkey
    rw [AList.lookup_eq_none]
    unfold removeKeys
    induction keys generalizing map with
    | nil => exact absurd hkey List.not_mem_nil
    | cons k keys ih =>
      by_cases hin : key ∈ keys
      · exact ih _ hin
      · obtain rfl : key = k := (List.mem_cons.mp hkey).resolve_right hin
        exact fun hmem => (AList.mem_erase.mp (mem_of_mem_removeKeys hmem)).1 rfl
  · rename_i hkey
    exact lookup_removeKeys hkey

/-- A shard from which keys were removed, and the others. -/
theorem lookup_update_removeKeys (db : Memory) (i j : Index) (keys : List Bytes) (key : Bytes) :
    (Function.update db i (removeKeys keys (db i)) j).lookup key =
      if j = i ∧ key ∈ keys then none else (db j).lookup key := by
  by_cases hj : j = i
  · rw [hj, Function.update_self, removeKeys_lookup]
    simp
  · rw [Function.update_of_ne hj, if_neg fun h => hj h.1]

theorem sweep_routed (h : Routed env db) (keys : List Bytes) :
    Routed env (Function.update db i (removeKeys keys (db i))) := by
  intro j key hkey
  refine h j key ?_
  rw [← AList.lookup_isSome, lookup_update_removeKeys] at hkey
  split at hkey
  · cases hkey
  · exact AList.lookup_isSome.mp hkey

end Sweeps

section Replay
variable {env : Env} {now : SystemTime} {clock : Nat → SystemTime} {command : Command}
  {commands : List Command}
  {db db' : Memory} {key k : Bytes} {n : Nat}

theorem editList_lookup_of_ne (f : List Bytes → List Bytes) (map : Shard) (h : k ≠ key) :
    (editList key f map).lookup k = map.lookup k := by
  unfold editList
  split
  · exact Shard.lookup_setValue_of_ne h
  · rfl

theorem growValue_lookup_of_ne {empty : Entry} {f : DataType → Option DataType} (map : Shard)
    (h : k ≠ key) :
    (growValue key empty f map).lookup k = map.lookup k := by
  unfold growValue
  dsimp only
  split
  · rw [Shard.lookup_setValue_of_ne h, Shard.lookup_orInsertWith_of_ne h]
  · exact Shard.lookup_orInsertWith_of_ne h

/-- A replay arm leaves the entries of the keys its command does not name alone. -/
theorem replayCommand_frame (h : replayCommand env now command db = some db') :
    TouchesOnly env command.keyArgs db db' := by
  cases command with
  | set k v =>
    obtain rfl := Option.some.inj h; exact .onShard fun _ _ hne => AList.lookup_insert_ne hne
  | setEx k secs v =>
    obtain ⟨t, _, rfl⟩ := Option.map_eq_some_iff.mp h
    exact .onShard fun _ _ hne => AList.lookup_insert_ne hne
  | del k =>
    obtain rfl := Option.some.inj h; exact .onShard fun _ _ hne => AList.lookup_erase_ne hne
  | incr k =>
    obtain rfl := Option.some.inj h; exact .onShard fun _ _ hne => AList.lookup_insert_ne hne
  | lPush k v =>
    obtain rfl := Option.some.inj h; exact .onShard fun map _ hne => growValue_lookup_of_ne map hne
  | rPush k v =>
    obtain rfl := Option.some.inj h; exact .onShard fun map _ hne => growValue_lookup_of_ne map hne
  | hSet k f v =>
    obtain rfl := Option.some.inj h; exact .onShard fun map _ hne => growValue_lookup_of_ne map hne
  | sAdd k m =>
    obtain rfl := Option.some.inj h; exact .onShard fun map _ hne => growValue_lookup_of_ne map hne
  | lPop k =>
    obtain rfl := Option.some.inj h; exact .onShard fun map _ hne => editList_lookup_of_ne _ map hne
  | rPop k =>
    obtain rfl := Option.some.inj h; exact .onShard fun map _ hne => editList_lookup_of_ne _ map hne
  | lRem k c v =>
    obtain rfl := Option.some.inj h; exact .onShard fun map _ hne => editList_lookup_of_ne _ map hne
  | rPopLPush s d =>
    simp only [replayCommand] at h
    split at h
    · split at h
      · rename_i v rest _
        obtain rfl := Option.some.inj h
        have hs : TouchesOnly env [s] db (onShard env s (·.setValue s (.list rest)) db) :=
          .onShard fun _ _ hne => Shard.lookup_setValue_of_ne hne
        have hd : TouchesOnly env [d] _
            (onShard env d (growValue d emptyList (changeList fun list => v :: list))
            (onShard env s (·.setValue s (.list rest)) db)) :=
          .onShard fun map _ hne => growValue_lookup_of_ne map hne
        exact (hs.mono (by simp [Command.keyArgs])).trans (hd.mono (by simp [Command.keyArgs]))
      · obtain rfl := Option.some.inj h
        exact .same
    · obtain rfl := Option.some.inj h
      exact .same
  | _ => obtain rfl := Option.some.inj h; exact .same

theorem replayAll_routed (hdb : Routed env db) (h : replayAll env clock n commands db = some db') :
    Routed env db' := by
  induction commands generalizing n db with
  | nil => obtain rfl := Option.some.inj h; exact hdb
  | cons command commands ih =>
    obtain ⟨db₁, h₁, hrest⟩ := Option.bind_eq_some_iff.mp h
    exact ih ((replayCommand_frame h₁).routed hdb) hrest

end Replay

section Steps
variable {env : Env} {s s' : System} {e : Event}

/-- What a step of the server does to the database: a command runs, the sweeper
cleans a shard, or nothing. -/
theorem step_db (he : step env s e = some s') :
    (∃ request a logs, e = .command request ∧ (request.handle env).run s.db =
      some (a, s'.db, logs)) ∨
    (∃ now swept keys, ∃ hlt : swept < shardCount, e = .sweepShard ∧
      s.sweeper = .sweeping now swept keys ∧
      s'.db = Function.update s.db ⟨swept, hlt⟩
        (removeKeys (expiredKeys now (s.db ⟨swept, hlt⟩)) (s.db ⟨swept, hlt⟩))) ∨
    s'.db = s.db := by
  obtain ⟨t, ht, rfl⟩ := step_some he
  cases e with
  | command request =>
    obtain ⟨a, db, logs, hrun, ⟨-, rfl⟩ | ⟨-, rfl⟩⟩ := stepCommand_some ht
    · exact Or.inl ⟨request, a, logs, rfl, hrun⟩
    · exact Or.inl ⟨request, a, logs, rfl, hrun⟩
  | sweepShard =>
    obtain ⟨now, swept, keys, hlt, hsweeper, rfl⟩ := stepSweepShard_some ht
    exact Or.inr (Or.inl ⟨now, swept, keys, hlt, rfl, hsweeper, rfl⟩)
  | sendLate n => obtain ⟨_, rfl⟩ := stepSendLate_some ht; exact Or.inr (Or.inr rfl)
  | receive => obtain ⟨_, _, -, rfl | ⟨-, rfl⟩⟩ := stepReceive_some ht <;> exact Or.inr (Or.inr rfl)
  | tick => obtain ⟨-, rfl⟩ | rfl := stepTick_some ht <;> exact Or.inr (Or.inr rfl)
  | startCompaction => obtain ⟨-, rfl⟩ := stepStartCompaction_some ht; exact Or.inr (Or.inr rfl)
  | readShard now => obtain ⟨_, _, -, rfl⟩ := stepReadShard_some ht; exact Or.inr (Or.inr rfl)
  | writeTemp isOk =>
    obtain ⟨_, -, rfl | rfl⟩ := stepWriteTemp_some ht <;> exact Or.inr (Or.inr rfl)
  | rename isOk =>
    obtain ⟨-, ⟨-, rfl⟩ | ⟨-, rfl⟩⟩ := stepRename_some ht <;> exact Or.inr (Or.inr rfl)
  | startSweep now => obtain ⟨-, rfl⟩ := stepStartSweep_some ht; exact Or.inr (Or.inr rfl)
  | openLog =>
    obtain ⟨_, _, _, -, ⟨-, rfl⟩ | rfl⟩ := stepOpenLog_some ht <;> exact Or.inr (Or.inr rfl)
  | appendDel => obtain ⟨_, _, _, -, rfl⟩ := stepAppendDel_some ht; exact Or.inr (Or.inr rfl)

theorem step_routed (h : Routed env s.db) (he : step env s e = some s') : Routed env s'.db := by
  obtain ⟨request, a, logs, rfl, hrun⟩ | ⟨now, swept, keys, hlt, rfl, -, hdb⟩ | hdb := step_db he
  · exact handle_routed env request.ctx h hrun
  · rw [hdb]
    exact sweep_routed h _
  · rwa [hdb]

end Steps

end TitanKv
