import TitanKv.Lib.Deadlock
import TitanKv.Replay

/-! # What the dispatcher's arms do

Three facts about every arm. A command that names keys is two-phase and takes
the locks of its `lockPlan`. A command changes the keyspace exactly as the
commands it logs do. -/

namespace TitanKv
open Local TwoPhase

/-- What the arm of one key does to the key's map: the other keys stay, and the
commands it logs do to the item what the arm does. -/
structure LogsEffect (key : Bytes) (map map' : Shard) (logs : List Command) : Prop where
  frame : ∀ k, k ≠ key → map'.items k = map.items k
  effect : ∀ ks : Keyspace, ks key = map.items key →
    Keyspace.applyAll logs ks = Function.update ks key (map'.items key)

theorem LogsEffect.unchanged {key : Bytes} {map map' : Shard}
    (h : ∀ k, map'.items k = map.items k) : LogsEffect key map map' [] where
  frame k _ := h k
  effect ks hk := by rw [h key, ← hk, Function.update_eq_self]; rfl

theorem LogsEffect.logged {key : Bytes} {map map' : Shard} {command : Command}
    {h : Option Item → Option Item} (hc : Keyspace.apply command = onKey h key)
    (hkey : map'.items key = h (map.items key))
    (hrest : ∀ k, k ≠ key → map'.items k = map.items k) : LogsEffect key map map' [command] where
  frame := hrest
  effect ks hk := by
    simp only [applyAll_cons, applyAll_nil, hc, hkey, ← hk]
    rfl

/-- The handler holds one key's write guard, and `E` relates the map before to
what the arm ends with on it. -/
def WritesKey (env : Env) (key : Bytes) (p : Handler)
    (E : Shard → Option (Bytes × Shard × List Command) → Prop) : Prop :=
  ∃ arm : Index → Arm Bytes, p = withWrite env key arm ∧
    ∀ i, Guarded i (arm i) ∧ ∀ map, E map ((arm i).runCell map)

/-- The arm ends, and logs what it does. -/
def Logged (key : Bytes) (map : Shard) (ends : Option (Bytes × Shard × List Command)) : Prop :=
  ∃ r map' logs, ends = some (r, map', logs) ∧ LogsEffect key map map' logs

section Maps
variable {map : Shard} {key : Bytes} {empty : Entry}

theorem orInsertWith_eq_self (h : (map.orInsertWith key empty).value? key ≠ some empty.value) :
    map.orInsertWith key empty = map := by
  unfold Shard.orInsertWith at h ⊢
  split
  · rfl
  · rename_i hmem
    simp [hmem, Shard.value?] at h

theorem growValue_of_some {f : DataType → Option DataType} {before value : DataType}
    (hv : (map.orInsertWith key empty).value? key = some before) (hf : f before = some value) :
    growValue key empty f map = (map.orInsertWith key empty).setValue key value := by
  simp [growValue, hv, hf]

end Maps

section Effects
variable {key : Bytes} {map : Shard} {command : Command}

theorem LogsEffect.replaced {entry : Entry}
    (hc : Keyspace.apply command = onKey (Item.replace (some entry.item)) key) :
    LogsEffect key map (map.insert key entry) [command] :=
  .logged hc Shard.items_insert fun _ h => Shard.items_insert_of_ne h

theorem LogsEffect.removed (hc : Keyspace.apply command = onKey (Item.replace none) key) :
    LogsEffect key map (map.erase key) [command] :=
  .logged hc Shard.items_erase fun _ h => Shard.items_erase_of_ne h

theorem LogsEffect.edited {f : List Bytes → List Bytes} {vals : List Bytes}
    (hc : Keyspace.apply command = onKey (Item.onList f) key)
    (hv : map.value? key = some (.list vals)) :
    LogsEffect key map (map.setValue key (.list (f vals))) [command] := by
  rw [setValue_eq_editList hv]
  exact .logged hc (editList_items key f map) fun _ h => editList_items_of_ne f map h

theorem LogsEffect.grown {empty : Entry} {f : DataType → Option DataType}
    {g : Value → Option Value} (hempty : empty.expiresAt = none)
    (hf : ∀ value, (f value).map DataType.toValue = g value.toValue) {before value : DataType}
    (hv : (map.orInsertWith key empty).value? key = some before) (hfv : f before = some value)
    (hc : Keyspace.apply command = onKey (Item.alter empty.value.toValue g) key) :
    LogsEffect key map ((map.orInsertWith key empty).setValue key value) [command] := by
  rw [← growValue_of_some hv hfv]
  exact .logged hc (growValue_items key hempty hf map) fun _ h => growValue_items_of_ne map h

theorem LogsEffect.same : LogsEffect key map map [] := .unchanged fun _ => rfl

/-- A growing arm that found another type at the key had nothing to insert. -/
theorem LogsEffect.kept {empty : Entry}
    (h : (map.orInsertWith key empty).value? key ≠ some empty.value) :
    LogsEffect key map (map.orInsertWith key empty) [] := by
  rw [orInsertWith_eq_self h]
  exact .same

end Effects

section Writers
variable (env : Env) (ctx : Ctx)

theorem handleSet_writes (key value : Bytes) :
    WritesKey env key (handleSet env key value) (Logged key) := by
  refine ⟨_, rfl, fun i => ⟨by simp, fun map => ?_⟩⟩
  exact ⟨_, _, _, rfl, .replaced rfl⟩

theorem handleSetEx_writes {key value : Bytes} {seconds : Int} {deadline : SystemTime}
    (h : ctx.now.addSecs (asU64 seconds) = some deadline) :
    WritesKey env key (handleSetEx env ctx key seconds value) (Logged key) := by
  unfold handleSetEx
  rw [h]
  refine ⟨_, rfl, fun i => ⟨by simp, fun map => ?_⟩⟩
  exact ⟨_, _, _, rfl, .replaced rfl⟩

/-- Removing a key logs a `DEL` exactly if the key was there. -/
theorem Logged.remove (key : Bytes) (map : Shard) (reply reply' : Bytes) :
    Logged key map (Prog.runCell (match map.lookup key with
      | some _ => (Prog.send (.del key) (.done reply) : Arm Bytes)
      | none => .done reply') (map.erase key)) := by
  split
  · exact ⟨_, _, _, rfl, .removed rfl⟩
  · rename_i hl
    refine ⟨_, _, _, rfl, .unchanged fun k => ?_⟩
    by_cases hk : k = key
    · subst hk; simp [Shard.items, hl]
    · exact Shard.items_erase_of_ne hk

theorem handleDel_writes (key : Bytes) :
    WritesKey env key (handleDel env key) (Logged key) := by
  refine ⟨_, rfl, fun i => ⟨?_, fun map => ?_⟩⟩
  · simp only [remove, Prog.pure_eq, Prog.get_bind, Prog.read_bind, Prog.modify_bind,
      Prog.update_bind, Prog.done_bind, guarded_read, guarded_update, true_and]
    intro v
    split <;> simp
  · simp only [remove, Prog.pure_eq, Prog.get_bind, Prog.read_bind, Prog.modify_bind,
      Prog.update_bind, Prog.done_bind, Prog.emit_bind, runCell_read, runCell_update]
    exact .remove key map _ _

theorem handleGet_writes (key : Bytes) :
    WritesKey env key (handleGet env ctx key) (Logged key) := by
  refine ⟨_, rfl, fun i => ⟨?_, fun map => ?_⟩⟩
  · simp only [remove, Prog.pure_eq, Prog.get_bind, Prog.read_bind, Prog.modify_bind,
      Prog.update_bind, Prog.done_bind, guarded_read, true_and]
    intro v
    split
    · simp only [guarded_read, guarded_update, true_and]
      intro w
      split <;> simp
    · simp only [guarded_read, true_and]
      intro w
      split <;> simp
  · simp only [remove, Prog.pure_eq, Prog.get_bind, Prog.read_bind, Prog.modify_bind,
      Prog.update_bind, Prog.done_bind, Prog.emit_bind, runCell_read]
    split
    · exact .remove key map _ _
    · simp only [runCell_read]
      split <;>
        · exact ⟨_, _, _, rfl, .same⟩

/-- `INCR` logs only where replay reads the same number. -/
theorem replayNumber_of_ok {value : Option DataType} {num : Int}
    (h : currentNumber value = .ok num) : replayNumber value = num := by
  unfold currentNumber at h
  split at h
  · split at h
    · rename_i hp
      simp only [Except.ok.injEq] at h
      simp [replayNumber, hp, h]
    · cases h
  · cases h
  · simp only [Except.ok.injEq] at h
    exact h

theorem handleIncr_writes (key : Bytes) :
    WritesKey env key (handleIncr env key) (Logged key) := by
  refine ⟨_, rfl, fun i => ⟨?_, fun map => ?_⟩⟩
  · simp only [Prog.pure_eq, Prog.get_bind, guarded_read, true_and]
    intro v
    split <;> simp
  · simp only [Prog.pure_eq, Prog.get_bind, runCell_read]
    split
    · exact ⟨_, _, _, rfl, .same⟩
    · rename_i num hn
      refine ⟨_, _, _, rfl, .logged (h := Item.increment) rfl ?_
        fun _ hk => Shard.items_insert_of_ne hk⟩
      rw [Shard.items_insert, ← replayNumber_of_ok hn, Shard.value?, replayNumber_eq]
      rfl

theorem handleLPush_writes (key value : Bytes) :
    WritesKey env key (handleLPush env key value) (Logged key) := by
  refine ⟨_, rfl, fun i => ⟨?_, fun map => ?_⟩⟩
  · simp only [Prog.pure_eq, Prog.modify_bind, Prog.get_bind, guarded_read, guarded_update,
      true_and]
    intro v
    split <;> simp
  · simp only [Prog.pure_eq, Prog.modify_bind, Prog.get_bind, runCell_update, runCell_read]
    split
    · rename_i hv
      exact ⟨_, _, _, rfl, .grown rfl (changeList_toValue fun list => value :: list) hv rfl rfl⟩
    · rename_i hne
      exact ⟨_, _, _, rfl, .kept fun hv => hne [] hv⟩

theorem handleRPush_writes (key value : Bytes) :
    WritesKey env key (handleRPush env key value) (Logged key) := by
  refine ⟨_, rfl, fun i => ⟨?_, fun map => ?_⟩⟩
  · simp only [Prog.pure_eq, Prog.modify_bind, Prog.get_bind, guarded_read, guarded_update,
      true_and]
    intro v
    split <;> simp
  · simp only [Prog.pure_eq, Prog.modify_bind, Prog.get_bind, runCell_update, runCell_read]
    split
    · rename_i hv
      exact ⟨_, _, _, rfl, .grown rfl (changeList_toValue fun list => list ++ [value]) hv rfl rfl⟩
    · rename_i hne
      exact ⟨_, _, _, rfl, .kept fun hv => hne [] hv⟩

theorem handleLPop_writes (key : Bytes) :
    WritesKey env key (handleLPop env key) (Logged key) := by
  refine ⟨_, rfl, fun i => ⟨?_, fun map => ?_⟩⟩
  · simp only [Prog.pure_eq, Prog.get_bind, guarded_read, true_and]
    intro v
    split <;> simp
  · simp only [Prog.pure_eq, Prog.get_bind, runCell_read]
    split
    · rename_i hv
      exact ⟨_, _, _, rfl, .edited (f := List.tail) rfl hv⟩
    all_goals
      exact ⟨_, _, _, rfl, .same⟩

theorem handleRPop_writes (key : Bytes) :
    WritesKey env key (handleRPop env key) (Logged key) := by
  refine ⟨_, rfl, fun i => ⟨?_, fun map => ?_⟩⟩
  · simp only [Prog.pure_eq, Prog.get_bind, guarded_read, true_and]
    intro v
    split
    · split <;> simp
    all_goals simp
  · simp only [Prog.pure_eq, Prog.get_bind, runCell_read]
    split
    · rename_i hv
      split
      · rename_i hp
        obtain ⟨_, _, he⟩ := Option.map_eq_some_iff.mp hp
        obtain ⟨rfl, rfl⟩ := Prod.mk.inj he
        exact ⟨_, _, _, rfl, .edited (f := List.dropLast) rfl hv⟩
      · exact ⟨_, _, _, rfl, .same⟩
    all_goals
      exact ⟨_, _, _, rfl, .same⟩

theorem handleHSet_writes (key field value : Bytes) :
    WritesKey env key (handleHSet env key field value) (Logged key) := by
  refine ⟨_, rfl, fun i => ⟨?_, fun map => ?_⟩⟩
  · simp only [Prog.pure_eq, Prog.modify_bind, Prog.get_bind, guarded_read, guarded_update,
      true_and]
    intro v
    split <;> simp
  · simp only [Prog.pure_eq, Prog.modify_bind, Prog.get_bind, runCell_update, runCell_read]
    split
    · rename_i hv
      exact ⟨_, _, _, rfl, .grown rfl (insertField_toValue field value) hv rfl rfl⟩
    · rename_i hne
      exact ⟨_, _, _, rfl, .kept fun hv => hne ∅ hv⟩

theorem handleSAdd_writes (key member : Bytes) :
    WritesKey env key (handleSAdd env key member) (Logged key) := by
  refine ⟨_, rfl, fun i => ⟨?_, fun map => ?_⟩⟩
  · simp only [Prog.pure_eq, Prog.modify_bind, Prog.get_bind, guarded_read, guarded_update,
      true_and]
    intro v
    split
    · split <;> simp
    · simp
  · simp only [Prog.pure_eq, Prog.modify_bind, Prog.get_bind, runCell_update, runCell_read]
    split
    · rename_i set hv
      split
      · rename_i hmem
        refine ⟨_, _, _, rfl, .kept fun hempty => ?_⟩
        rw [hv] at hempty
        obtain rfl : set = ∅ := by simpa [emptySet] using hempty
        exact AList.notMem_empty member hmem
      · refine ⟨_, _, _, rfl, .grown rfl (insertMember_toValue member) hv rfl ?_⟩
        rw [emptySet_toValue]
        rfl
    · rename_i hne
      exact ⟨_, _, _, rfl, .kept fun hv => hne ∅ hv⟩

theorem handleLRem_writes (key value : Bytes) :
    WritesKey env key (handleLRem env key value) (Logged key) := by
  refine ⟨_, rfl, fun i => ⟨?_, fun map => ?_⟩⟩
  · simp only [Prog.pure_eq, Prog.get_bind, guarded_read, true_and]
    intro v
    split
    · split <;> simp
    · simp
  · simp only [Prog.pure_eq, Prog.get_bind, runCell_read]
    split
    · rename_i hv
      split
      · exact ⟨_, _, _, rfl, .edited (f := fun list => list.erase value) rfl hv⟩
      · exact ⟨_, _, _, rfl, .same⟩
    · exact ⟨_, _, _, rfl, .same⟩

theorem handleLTrim_writes (key : Bytes) (start stop : Int) :
    WritesKey env key (handleLTrim env key start stop) fun map ends =>
      ∀ r map' logs, ends = some (r, map', logs) → ∀ k, k ≠ key → map'.items k = map.items k := by
  refine ⟨_, rfl, fun i => ⟨?_, fun map r map' logs h k hk => ?_⟩⟩
  · simp only [remove, Prog.pure_eq, Prog.get_bind, Prog.read_bind, Prog.modify_bind,
      Prog.update_bind, Prog.done_bind, guarded_read, true_and]
    intro v
    split
    · split
      · simp
      · split
        · simp
        · split <;> simp
    all_goals simp
  · simp only [remove, Prog.pure_eq, Prog.get_bind, Prog.read_bind, Prog.modify_bind,
      Prog.update_bind, Prog.done_bind, Prog.emit_bind, runCell_read] at h
    split at h
    · split at h
      · obtain ⟨rfl, rfl, rfl⟩ := by simpa using h
        exact Shard.items_erase_of_ne hk
      · split at h
        · cases h
        · simp only [runCell_update] at h
          split at h
          · obtain ⟨rfl, rfl, rfl⟩ := by simpa using h
            simp [hk]
          · obtain ⟨rfl, rfl, rfl⟩ := by simpa using h
            simp [hk]
    all_goals
      obtain ⟨rfl, rfl, rfl⟩ := by simpa using h
      rfl

end Writers

section TwoKeys
variable (env : Env)

theorem disciplined_withTwoValues (keyA keyB : Bytes)
    (respond : Option DataType → Option DataType → Bytes) :
    Disciplined [] (withTwoValues env keyA keyB respond) := by
  unfold withTwoValues readMultiShards
  dsimp only
  split
  · simp [MultiGuard.maps, MultiGuard.release, Disciplined, Tail, release]
  · rename_i hne
    have hne' := Ne.symm hne
    split <;>
      simp [MultiGuard.maps, MultiGuard.release, Disciplined, Tail, release, hne, hne']

variable {held : List (Index × Mode)} {α β : Type}

theorem disciplined_popSource {src : Index} {source : Bytes} {f : Option Bytes → Arm α}
    (hsrc : (src, Mode.write) ∈ held) (hf : ∀ popped, Disciplined held (f popped)) :
    Disciplined held (popSource src source >>= f) := by
  unfold popSource
  simp only [Prog.get_bind, Prog.read_bind]
  refine ⟨List.mem_map.mpr ⟨_, hsrc, rfl⟩, fun v => ?_⟩
  dsimp only
  split
  · split
    · exact ⟨hsrc, hf _⟩
    · exact hf _
  · exact hf _

theorem disciplined_pushDestination {dest : Index} {destination val : Bytes} {f : Unit → Arm α}
    (hdest : (dest, Mode.write) ∈ held) (hf : Disciplined held (f ())) :
    Disciplined held (pushDestination dest destination val >>= f) := by
  unfold pushDestination
  simp only [Prog.modify_bind, Prog.update_bind, Prog.get_bind, Prog.read_bind]
  refine ⟨hdest, List.mem_map.mpr ⟨_, hdest, rfl⟩, fun v => ?_⟩
  dsimp only
  split
  · exact ⟨hdest, hf⟩
  · exact hf

/-- The body of `RPOPLPUSH` under its guard. -/
theorem disciplined_move {guard : MultiGuard} {source destination : Bytes}
    (hsrc : (guard.maps.1, Mode.write) ∈ held) (hdest : (guard.maps.2, Mode.write) ∈ held)
    (hrelease : ∀ k : Handler, Tail [] k → Tail held (guard.release >>= fun _ => k)) :
    Disciplined held (moveUnder guard source destination) := by
  refine disciplined_popSource hsrc fun popped => ?_
  cases popped with
  | none => exact (hrelease (.done _) rfl).disciplined
  | some val =>
    exact disciplined_pushDestination hdest (hrelease (.send _ (.done _)) rfl).disciplined

theorem disciplined_rPopLPush (source destination : Bytes) :
    Disciplined [] (handleRPopLPush env source destination) := by
  unfold handleRPopLPush writeMultiShards
  dsimp only
  split
  · refine ⟨by simp, disciplined_move (by simp [MultiGuard.maps]) (by simp [MultiGuard.maps]) ?_⟩
    intro k hk
    simpa [MultiGuard.release, Tail, release] using hk
  · rename_i hne
    have hne' := Ne.symm hne
    split
    · refine ⟨by simp, by simp [hne'], disciplined_move (by simp [MultiGuard.maps])
        (by simp [MultiGuard.maps]) ?_⟩
      intro k hk
      simpa [MultiGuard.release, Tail, release, hne, hne'] using hk
    · refine ⟨by simp, by simp [hne], disciplined_move (by simp [MultiGuard.maps])
        (by simp [MultiGuard.maps]) ?_⟩
      intro k hk
      simpa [MultiGuard.release, Tail, release, hne, hne'] using hk

end TwoKeys

section Readers
variable (env : Env) (ctx : Ctx)

/-- The commands that look one key up under a read guard. -/
def Command.looksUp : Command → Option Bytes
  | .strlen key | .type key | .ttl key | .pttl key | .exists key | .lRange key _ _ | .hGetAll key
  | .hGet key _ | .sMembers key | .scard key | .llen key | .hlen key => some key
  | _ => none

theorem handle_looksUp {command : Command} {k : Bytes} (h : command.looksUp = some k) :
    ∃ respond, ∀ env, handle env ctx command = withEntry env k respond := by
  cases command <;> cases h <;>
    simp only [handle, handleStrlen, handleType, handleTtl, handlePttl, handleExists, handleLRange,
      handleHGetAll, handleHGet, handleSMembers, handleScard, handleLlen, handleHlen] <;>
    exact ⟨_, fun _ => rfl⟩

end Readers

section Disciplined
variable (env : Env) (ctx : Ctx)

theorem disciplined_withEntry (key : Bytes) (respond : Option Entry → Bytes) :
    Disciplined [] (withEntry env key respond) := by
  simp [withEntry, readShard, Disciplined, Tail, release]

theorem disciplined_looksUp {command : Command} {k : Bytes} (h : command.looksUp = some k) :
    Disciplined [] (handle env ctx command) := by
  obtain ⟨respond, hr⟩ := handle_looksUp ctx h
  rw [hr]
  exact disciplined_withEntry env k respond

theorem WritesKey.disciplined {key : Bytes} {p : Handler}
    {E : Shard → Option (Bytes × Shard × List Command) → Prop} (h : WritesKey env key p E) :
    Disciplined [] p := by
  obtain ⟨arm, rfl, harm⟩ := h
  exact ⟨by simp, (harm _).1.disciplined _⟩

/-- Every command that names keys is two-phase. -/
theorem disciplined_handle {command : Command} (h : command.keyArgs ≠ []) :
    Disciplined [] (handle env ctx command) := by
  cases command with
  | set key value => exact (handleSet_writes env key value).disciplined
  | setEx key seconds value =>
    show Disciplined [] (handleSetEx env ctx key seconds value)
    cases hd : ctx.now.addSecs (asU64 seconds) with
    | none => unfold handleSetEx; rw [hd]; rfl
    | some deadline => exact (handleSetEx_writes env ctx hd).disciplined
  | get key => exact (handleGet_writes env ctx key).disciplined
  | del key => exact (handleDel_writes env key).disciplined
  | incr key => exact (handleIncr_writes env key).disciplined
  | lPush key value => exact (handleLPush_writes env key value).disciplined
  | lPop key => exact (handleLPop_writes env key).disciplined
  | rPush key value => exact (handleRPush_writes env key value).disciplined
  | rPop key => exact (handleRPop_writes env key).disciplined
  | lTrim key start stop => exact (handleLTrim_writes env key start stop).disciplined
  | hSet key field value => exact (handleHSet_writes env key field value).disciplined
  | sAdd key member => exact (handleSAdd_writes env key member).disciplined
  | lRem key count value => exact (handleLRem_writes env key value).disciplined
  | rPopLPush source destination => exact disciplined_rPopLPush env source destination
  | mGet keyA keyB =>
    show Disciplined [] (handleMGet env keyA keyB)
    exact disciplined_withTwoValues env keyA keyB _
  | sInter keyA keyB =>
    show Disciplined [] (handleSInter env keyA keyB)
    exact disciplined_withTwoValues env keyA keyB _
  | strlen key | «type» key | ttl key | pttl key | «exists» key | lRange key _ _ | hGetAll key
  | hGet key _ | sMembers key | scard key | llen key | hlen key =>
    exact disciplined_looksUp env ctx (k := key) rfl
  | _ => exact absurd rfl h

end Disciplined

section ReadOnly
variable (env : Env) (ctx : Ctx)

theorem readOnly_withEntry (key : Bytes) (respond : Option Entry → Bytes) :
    ReadOnly (withEntry env key respond) := fun _ => trivial

theorem readOnly_looksUp {command : Command} {k : Bytes} (h : command.looksUp = some k) :
    ReadOnly (handle env ctx command) := by
  obtain ⟨respond, hr⟩ := handle_looksUp ctx h
  rw [hr]
  exact readOnly_withEntry env k respond

theorem readOnly_withTwoValues (keyA keyB : Bytes)
    (respond : Option DataType → Option DataType → Bytes) :
    ReadOnly (withTwoValues env keyA keyB respond) := by
  unfold withTwoValues readMultiShards
  dsimp only
  split
  · exact fun _ _ => trivial
  · split <;> exact fun _ _ => trivial

theorem readOnly_overShards {β : Type} (f : β → Shard → β) (is : List Index) (acc : β) :
    ReadOnly (overShards f is acc : Arm β) := by
  induction is generalizing acc with
  | nil => trivial
  | cons i is ih => exact fun v => ih (f acc v)

theorem readOnly_scanShard (cursor : Nat) : ReadOnly (scanShard cursor : Arm (List Bytes)) := by
  unfold scanShard
  split
  · exact fun _ => trivial
  · trivial

/-- The commands without an arm that may write. -/
def Command.reads : Command → Prop
  | .set _ _ | .setEx _ _ _ | .get _ | .del _ | .incr _ | .lPush _ _ | .lPop _ | .rPush _ _
  | .rPop _ | .lTrim _ _ _ | .hSet _ _ _ | .sAdd _ _ | .lRem _ _ _ | .rPopLPush _ _ => False
  | _ => True

theorem readOnly_handle {command : Command} (h : command.reads) :
    ReadOnly (handle env ctx command) := by
  cases command with
  | mGet keyA keyB =>
    show ReadOnly (handleMGet env keyA keyB)
    exact readOnly_withTwoValues env keyA keyB _
  | sInter keyA keyB =>
    show ReadOnly (handleSInter env keyA keyB)
    exact readOnly_withTwoValues env keyA keyB _
  | strlen key | «type» key | ttl key | pttl key | «exists» key | lRange key _ _ | hGetAll key
  | hGet key _ | sMembers key | scard key | llen key | hlen key =>
    exact readOnly_looksUp env ctx (k := key) rfl
  | dbSize => exact (readOnly_overShards _ _ _).bind fun _ => trivial
  | info => exact (readOnly_overShards _ _ _).bind fun _ => trivial
  | keys pattern =>
    show ReadOnly (handleKeys env pattern)
    unfold handleKeys
    split
    · trivial
    · exact (readOnly_overShards _ _ _).bind fun _ => trivial
  | scan cursor matchPattern =>
    show ReadOnly (handleScan env cursor matchPattern)
    unfold handleScan
    split
    · trivial
    · exact (readOnly_scanShard cursor).bind fun _ => trivial
  | set _ _ | setEx _ _ _ | get _ | del _ | incr _ | lPush _ _ | lPop _ | rPush _ _ | rPop _
  | lTrim _ _ _ | hSet _ _ _ | sAdd _ _ | lRem _ _ _ | rPopLPush _ _ => exact h.elim
  | _ => trivial

/-- A command without an arm that may write changes and logs nothing. -/
theorem run_of_reads {command : Command} (h : command.reads) {mem mem' : Memory} {a : Outcome}
    {logs : List Command} (hrun : (handle env ctx command).run mem = some (a, mem', logs)) :
    mem' = mem ∧ logs = [] := by
  obtain ⟨a', hrun'⟩ := (readOnly_handle env ctx h).run mem
  rw [hrun'] at hrun
  obtain ⟨-, rfl, rfl⟩ := Option.some.inj hrun
  exact ⟨rfl, rfl⟩

end ReadOnly

section Effect
variable (env : Env) (ctx : Ctx) {mem mem' : Memory} {a : Outcome} {logs : List Command}

/-- The run of a handler that holds one key's write guard. -/
theorem withWrite_run {key : Bytes} {arm : Index → Arm Bytes}
    (h : Guarded (calculateShardIndex env key) (arm (calculateShardIndex env key))) (mem : Memory) :
    (withWrite env key arm).run mem =
      ((arm (calculateShardIndex env key)).runCell (mem (calculateShardIndex env key))).map
        fun r => (.reply r.1, Function.update mem (calculateShardIndex env key) r.2.1, r.2.2) := by
  show (arm (calculateShardIndex env key) >>= fun reply => (Prog.unlock
    (calculateShardIndex env key) (.done (Outcome.reply reply)) : Handler)).run mem = _
  rw [Prog.run_bind, h.run_eq]
  cases (arm (calculateShardIndex env key)).runCell (mem (calculateShardIndex env key)) with
  | none => rfl
  | some r => simp

theorem runCell_withWrite (key : Bytes) (arm : Index → Arm Bytes) (map : Shard) :
    (withWrite env key arm).runCell map =
      ((arm (calculateShardIndex env key)).runCell map).map fun r =>
        (.reply r.1, r.2.1, r.2.2) := by
  show (arm (calculateShardIndex env key) >>= fun reply => (Prog.unlock
    (calculateShardIndex env key) (.done (Outcome.reply reply)) : Handler)).runCell map = _
  rw [Prog.runCell_bind]
  cases (arm (calculateShardIndex env key)).runCell map with
  | none => rfl
  | some r =>
    show some (Outcome.reply r.1, r.2.1, r.2.2 ++ []) = _
    rw [List.append_nil]
    rfl

/-- A writer of one key runs on the key's shard alone. -/
theorem WritesKey.run_eq {key : Bytes} {p : Handler}
    {E : Shard → Option (Bytes × Shard × List Command) → Prop} (h : WritesKey env key p E)
    (mem : Memory) :
    p.run mem = (p.runCell (mem (calculateShardIndex env key))).map fun r =>
      (r.1, Function.update mem (calculateShardIndex env key) r.2.1, r.2.2) := by
  obtain ⟨arm, rfl, harm⟩ := h
  rw [withWrite_run env (harm _).1, runCell_withWrite, Option.map_map]
  rfl

/-- The handler ends, and the keyspace after it is what the logged commands
make of the keyspace before it. -/
def Agrees (p : Handler) : Prop :=
  ∀ mem, ∃ a mem' logs, p.run mem = some (a, mem', logs) ∧
    view env mem' = Keyspace.applyAll logs (view env mem)

variable {env}

theorem LogsEffect.view {key : Bytes} {map' : Shard}
    (h : LogsEffect key (mem (calculateShardIndex env key)) map' logs) :
    view env (Function.update mem (calculateShardIndex env key) map') =
      Keyspace.applyAll logs (view env mem) := by
  rw [h.effect (TitanKv.view env mem) rfl]
  exact view_update env (h := Item.replace (map'.items key)) rfl h.frame

theorem WritesKey.agrees {key : Bytes} {p : Handler} (h : WritesKey env key p (Logged key)) :
    Agrees env p := by
  obtain ⟨arm, rfl, harm⟩ := h
  intro mem
  obtain ⟨r, map', logs, hrun, heffect⟩ := (harm (calculateShardIndex env key)).2
    (mem (calculateShardIndex env key))
  refine ⟨.reply r, _, logs, ?_, heffect.view⟩
  rw [withWrite_run env (harm _).1, hrun]
  rfl

/-- A writer of one key brings no other key into the shards. -/
theorem WritesKey.keys {key : Bytes} {p : Handler} (h : WritesKey env key p (Logged key))
    (hrun : p.run mem = some (a, mem', logs)) {i : Index} {k : Bytes} (hk : k ∈ mem' i) :
    k ∈ mem i ∨ k = key ∧ calculateShardIndex env key = i := by
  obtain ⟨arm, rfl, harm⟩ := h
  obtain ⟨r, map', logs', hcell, heffect⟩ := (harm (calculateShardIndex env key)).2
    (mem (calculateShardIndex env key))
  rw [withWrite_run env (harm _).1, hcell] at hrun
  obtain ⟨-, rfl, -⟩ := by simpa using hrun
  by_cases hi : i = calculateShardIndex env key
  · subst hi
    rw [Function.update_self] at hk
    by_cases hkey : k = key
    · exact Or.inr ⟨hkey, rfl⟩
    · rw [Shard.mem_iff_items, heffect.frame k hkey, ← Shard.mem_iff_items] at hk
      exact Or.inl hk
  · rw [Function.update_of_ne hi] at hk
    exact Or.inl hk

theorem agrees_of_readOnly {p : Handler} (h : ReadOnly p) : Agrees env p := by
  intro mem
  obtain ⟨a, hr⟩ := h.run mem
  exact ⟨a, mem, [], hr, rfl⟩

variable (env)

/-- The two guards cover the shards of the two keys. -/
theorem writeMultiShards_run (source destination : Bytes) (f : MultiGuard → Handler)
    (mem : Memory) :
    ∃ guard : MultiGuard, guard.maps =
      (calculateShardIndex env source, calculateShardIndex env destination) ∧
      (writeMultiShards env source destination >>= f).run mem = (f guard).run mem := by
  unfold writeMultiShards
  dsimp only
  split
  · rename_i heq
    exact ⟨.single (calculateShardIndex env source), by simp [MultiGuard.maps, ← heq], rfl⟩
  · split <;> exact ⟨.double _ _, rfl, rfl⟩

theorem run_release (guard : MultiGuard) (k : Handler) (mem : Memory) :
    (guard.release >>= fun _ => k).run mem = k.run mem := by
  cases guard <;> rfl

/-- The element a move takes off its source, and what it leaves there. -/
def lastOf (source : Bytes) (mem : Memory) : Option (Bytes × List Bytes) :=
  match (mem (calculateShardIndex env source)).value? source with
  | some (.list list) => popBack list
  | _ => none

theorem run_popSource (source : Bytes) (mem : Memory) :
    (popSource (calculateShardIndex env source) source).run mem =
      match lastOf env source mem with
      | some (val, rest) =>
        some (some val, onShard env source (·.setValue source (.list rest)) mem, [])
      | none => some (none, mem, []) := by
  unfold popSource lastOf
  simp only [Prog.get_bind, Prog.run_read]
  cases (mem (calculateShardIndex env source)).value? source with
  | none => rfl
  | some value =>
    cases value with
    | list list =>
      dsimp only
      cases popBack list with
      | some popped => rfl
      | none => rfl
    | _ => rfl

theorem run_pushDestination (destination val : Bytes) (mem : Memory) :
    (pushDestination (calculateShardIndex env destination) destination val).run mem =
      some ((), onShard env destination
        (growValue destination emptyList (changeList fun list => val :: list)) mem, []) := by
  unfold pushDestination onShard growValue
  simp only [Prog.modify_bind, Prog.get_bind, Prog.run_update, Prog.run_read, Function.update_self]
  cases ((mem (calculateShardIndex env destination)).orInsertWith destination emptyList).value?
    destination with
  | none => rfl
  | some value =>
    cases value with
    | list list =>
      show some ((), Function.update (Function.update mem _ _) _ _, []) = _
      rw [Function.update_idem, Function.update_self]
      rfl
    | _ => rfl

/-- `RPOPLPUSH` moves an element or changes nothing. -/
theorem handleRPopLPush_run (source destination : Bytes) (mem : Memory) :
    (handleRPopLPush env source destination).run mem =
      match lastOf env source mem with
      | some (val, rest) => some (.reply (writeBulk val),
          onShard env destination
            (growValue destination emptyList (changeList fun list => val :: list))
            (onShard env source (·.setValue source (.list rest)) mem),
          [.rPopLPush source destination])
      | none => some (.reply nilReply, mem, []) := by
  obtain ⟨guard, hmaps, hrun⟩ :=
    writeMultiShards_run env source destination (fun g => moveUnder g source destination) mem
  show (writeMultiShards env source destination >>= fun g =>
    moveUnder g source destination).run mem = _
  rw [hrun, moveUnder, Prog.run_bind, hmaps, run_popSource]
  cases lastOf env source mem with
  | none => simp [run_release]
  | some popped =>
    simp only [Option.bind_some]
    rw [Prog.run_bind, run_pushDestination]
    simp only [Option.bind_some, run_release]
    rfl

theorem replayCommand_rPopLPush (now : SystemTime) (source destination : Bytes) (mem : Memory) :
    replayCommand env now (.rPopLPush source destination) mem =
      match lastOf env source mem with
      | some (val, rest) => some
          (onShard env destination
            (growValue destination emptyList (changeList fun list => val :: list))
            (onShard env source (·.setValue source (.list rest)) mem))
      | none => some mem := by
  unfold lastOf
  simp only [replayCommand]
  cases (mem (calculateShardIndex env source)).value? source with
  | none => rfl
  | some value => cases value <;> rfl

/-- What `RPOPLPUSH` moves is what replay's arm moves. -/
theorem handleRPopLPush_agrees (source destination : Bytes) :
    Agrees env (handleRPopLPush env source destination) := by
  intro mem
  have hreplay := replayCommand_rPopLPush env SystemTime.unixEpoch source destination mem
  have hrun := handleRPopLPush_run env source destination mem
  cases hlast : lastOf env source mem with
  | none =>
    rw [hlast] at hrun
    exact ⟨_, _, _, hrun, rfl⟩
  | some popped =>
    rw [hlast] at hrun hreplay
    exact ⟨_, _, _, hrun, view_replayCommand env hreplay⟩

/-- Every command but `LTRIM` ends and logs what it does to the keyspace. -/
theorem handle_agrees {command : Command} (h : ∀ key start stop, command ≠ .lTrim key start stop) :
    Agrees env (handle env ctx command) := by
  by_cases hr : command.reads
  · exact agrees_of_readOnly (readOnly_handle env ctx hr)
  · cases command with
    | set key value => exact (handleSet_writes env key value).agrees
    | setEx key seconds value =>
      show Agrees env (handleSetEx env ctx key seconds value)
      cases hd : ctx.now.addSecs (asU64 seconds) with
      | none => unfold handleSetEx; rw [hd]; exact agrees_of_readOnly trivial
      | some deadline => exact (handleSetEx_writes env ctx hd).agrees
    | get key => exact (handleGet_writes env ctx key).agrees
    | del key => exact (handleDel_writes env key).agrees
    | incr key => exact (handleIncr_writes env key).agrees
    | lPush key value => exact (handleLPush_writes env key value).agrees
    | lPop key => exact (handleLPop_writes env key).agrees
    | rPush key value => exact (handleRPush_writes env key value).agrees
    | rPop key => exact (handleRPop_writes env key).agrees
    | lTrim key start stop => exact absurd rfl (h key start stop)
    | hSet key field value => exact (handleHSet_writes env key field value).agrees
    | sAdd key member => exact (handleSAdd_writes env key member).agrees
    | lRem key count value => exact (handleLRem_writes env key value).agrees
    | rPopLPush source destination => exact handleRPopLPush_agrees env source destination
    | _ => exact absurd trivial hr

end Effect

section Sends
variable {env : Env} {ctx : Ctx} {key : Bytes} {P : Command → Prop} {i : Index} {α : Type}

/-- The entry of a command that may write: `GET` logs the key it removes. -/
def Command.entry : Command → Command
  | .get key => .del key
  | .lRem key _ value => .lRem key 1 value
  | command => command

theorem keyArgs_entry (command : Command) : command.entry.keyArgs = command.keyArgs := by
  cases command <;> rfl

theorem sends_get {f : Shard → Arm α} (h : ∀ map, Sends P (f map)) : Sends P (Prog.get i >>= f) :=
  fun map => h map

theorem sends_modify {g : Shard → Shard} {f : Unit → Arm α} (h : Sends P (f ())) :
    Sends P (Prog.modify i g >>= f) := h

theorem sends_remove {f : Option Entry → Arm α} (h : ∀ removed, Sends P (f removed)) :
    Sends P (remove i key >>= f) := fun _ => h _

theorem sends_withWrite {arm : Index → Arm Bytes} (h : ∀ i, Sends P (arm i)) :
    Sends P (withWrite env key arm) :=
  Sends.bind (p := arm (calculateShardIndex env key)) (h _) fun _ => trivial

theorem sends_lTrim (key : Bytes) (start stop : Int) :
    Sends (· = .lTrim key start stop) (handleLTrim env key start stop) := by
  refine sends_withWrite fun i => sends_get fun map => ?_
  split
  · dsimp only
    split
    · exact sends_remove fun _ => ⟨rfl, trivial⟩
    · split
      · trivial
      · show Sends _ (ite _ _ _)
        split
        · exact sends_remove fun _ => ⟨rfl, trivial⟩
        · exact ⟨rfl, trivial⟩
  all_goals trivial

theorem sends_release {guard : MultiGuard} {f : Unit → Arm α} (h : Sends P (f ())) :
    Sends P (guard.release >>= f) := by
  cases guard with
  | single i => exact h
  | double i j => exact h

theorem sends_writeMultiShards {keyA keyB : Bytes} {f : MultiGuard → Arm α}
    (h : ∀ guard, Sends P (f guard)) : Sends P (writeMultiShards env keyA keyB >>= f) := by
  unfold writeMultiShards
  dsimp only
  split
  · exact h _
  · split
    · exact h _
    · exact h _

theorem sends_rPopLPush (source destination : Bytes) :
    Sends (· = .rPopLPush source destination) (handleRPopLPush env source destination) := by
  refine sends_writeMultiShards fun guard => Sends.bind (sends_get fun map => ?_) fun popped => ?_
  · split
    · split <;> trivial
    · trivial
  · cases popped with
    | none => exact sends_release trivial
    | some val =>
      refine Sends.bind (sends_modify (sends_get fun map => ?_)) fun _ =>
        sends_release ⟨rfl, trivial⟩
      split <;> trivial

/-- An arm that may write sends the entry of its command and nothing else. -/
theorem sends_handle {command : Command} (h : ¬ command.reads) :
    Sends (· = command.entry) (handle env ctx command) := by
  cases command with
  | set key value => exact sends_withWrite fun i => ⟨rfl, trivial⟩
  | setEx key seconds value =>
    show Sends _ (handleSetEx env ctx key seconds value)
    unfold handleSetEx
    split
    · trivial
    · exact sends_withWrite fun i => ⟨rfl, trivial⟩
  | get key =>
    refine sends_withWrite fun i => sends_get fun map => ?_
    split
    · refine sends_remove fun removed => ?_
      cases removed with
      | none => trivial
      | some entry => exact ⟨rfl, trivial⟩
    · refine sends_get fun map => ?_
      split <;> trivial
  | del key =>
    refine sends_withWrite fun i => sends_remove fun removed => ?_
    cases removed with
    | none => trivial
    | some entry => exact ⟨rfl, trivial⟩
  | incr key =>
    refine sends_withWrite fun i => sends_get fun map => ?_
    split
    · trivial
    · exact ⟨rfl, trivial⟩
  | lPush key value | rPush key value | hSet key field value =>
    refine sends_withWrite fun i => sends_modify (sends_get fun map => ?_)
    split
    · exact ⟨rfl, trivial⟩
    · trivial
  | sAdd key member =>
    refine sends_withWrite fun i => sends_modify (sends_get fun map => ?_)
    split
    · split
      · trivial
      · exact ⟨rfl, trivial⟩
    · trivial
  | lPop key =>
    refine sends_withWrite fun i => sends_get fun map => ?_
    split
    · exact ⟨rfl, trivial⟩
    all_goals trivial
  | rPop key =>
    refine sends_withWrite fun i => sends_get fun map => ?_
    split
    · split
      · exact ⟨rfl, trivial⟩
      · trivial
    all_goals trivial
  | lRem key count value =>
    refine sends_withWrite fun i => sends_get fun map => ?_
    split
    · split
      · exact ⟨rfl, trivial⟩
      · trivial
    · trivial
  | lTrim key start stop => exact sends_lTrim key start stop
  | rPopLPush source destination => exact sends_rPopLPush source destination
  | _ => exact absurd trivial h

/-- What a command logs is its entry, and only a command that may write logs. -/
theorem handle_logs {command : Command} {mem mem' : Memory} {a : Outcome} {logs : List Command}
    (hrun : (handle env ctx command).run mem = some (a, mem', logs)) :
    ∀ c ∈ logs, c = command.entry ∧ ¬ command.reads := by
  by_cases hr : command.reads
  · obtain ⟨-, rfl⟩ := run_of_reads env ctx hr hrun
    simp
  · exact fun c hc => ⟨(sends_handle hr).run hrun c hc, hr⟩

end Sends

end TitanKv
