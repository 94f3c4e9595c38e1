import TitanKv.Replies

/-! # Errors, changes and log lines

How the arms that may write end: an arm either leaves its map as it was and logs
nothing, whatever it replies, or it logs one command and replies with no error.
The one arm without a reply is `RPUSH` on a key of another type. -/

namespace TitanKv
open TwoPhase

/-- How an arm under one key's write guard ends, `silent` being where it has no
reply. -/
inductive Settled (silent : Prop) (map : Shard) : Option (Bytes × Shard × List Command) → Prop
  | hang : Settled silent map none
  | kept {r : Bytes} (hs : ¬ silent) (hr : IsReply r) : Settled silent map (some (r, map, []))
  | logged {r : Bytes} {map' : Shard} {c : Command} (hs : ¬ silent) (hr : IsAnswer r) :
      Settled silent map (some (r, map', [c]))
  | silent (hs : silent) : Settled silent map (some ([], map, []))

/-- The handler holds the key's write guard and settles. -/
def Settles (env : Env) (key : Bytes) (p : Handler) (silent : Shard → Prop) : Prop :=
  ∃ arm : Index → Arm Bytes, p = withWrite env key arm ∧
    ∀ map, Settled (silent map) map ((arm (calculateShardIndex env key)).runCell map)

theorem IsError.notInteger : IsError (lit "-ERR Value is not an integer or out of range\r\n") :=
  .of_isErrorLine (by decide)

theorem IsError.wrongKindOfValue :
    IsError (lit "-WRONGTYPE Operation against a key holding the wrong kind of value \r\n") :=
  .of_isErrorLine (by decide)

section Maps
variable {map : Shard} {key : Bytes} {silent : Prop}

theorem erase_eq_self (h : map.lookup key = none) : map.erase key = map :=
  AList.ext (List.kerase_of_notMem_keys (AList.lookup_eq_none.mp h))

theorem value?_orInsertWith {empty : Entry} :
    (map.orInsertWith key empty).value? key = some ((map.value? key).getD empty.value) := by
  rw [Shard.value?, Shard.lookup_orInsertWith, Option.map_some, Shard.value?]
  cases map.lookup key <;> rfl

theorem Settled.kept_of_eq {map' : Shard} {r : Bytes} (hs : ¬ silent) (hr : IsReply r)
    (h : map' = map) : Settled silent map (some (r, map', [])) := by
  rw [h]
  exact .kept hs hr

/-- Removing a key that is not there changes nothing. -/
theorem Settled.remove {reply reply' : Bytes} (hs : ¬ silent) (hr : IsAnswer reply)
    (hr' : IsReply reply') : Settled silent map (Prog.runCell (match map.lookup key with
      | some _ => (Prog.send (.del key) (.done reply) : Arm Bytes)
      | none => .done reply') (map.erase key)) := by
  split
  · exact .logged hs hr
  · rename_i hl
    exact .kept_of_eq hs hr' (erase_eq_self hl)

end Maps

section Writers
variable (env : Env) (ctx : Ctx)

/-- An arm with a reply on every path. -/
abbrev Speaks (env : Env) (key : Bytes) (p : Handler) : Prop := Settles env key p fun _ => False

theorem handleSet_settles (key value : Bytes) : Speaks env key (handleSet env key value) :=
  ⟨_, rfl, fun _ => .logged id .ok⟩

theorem handleSetEx_settles {key value : Bytes} {seconds : Int} {deadline : SystemTime}
    (h : ctx.now.addSecs (asU64 seconds) = some deadline) :
    Speaks env key (handleSetEx env ctx key seconds value) := by
  unfold handleSetEx
  rw [h]
  exact ⟨_, rfl, fun _ => .logged id .ok⟩

theorem handleDel_settles (key : Bytes) : Speaks env key (handleDel env key) := by
  refine ⟨_, rfl, fun map => ?_⟩
  simp only [remove, Prog.pure_eq, Prog.get_bind, Prog.read_bind, Prog.modify_bind,
    Prog.update_bind, Prog.done_bind, Prog.emit_bind, runCell_read, runCell_update]
  exact .remove id .one IsAnswer.zero.isReply

theorem handleGet_settles (key : Bytes) : Speaks env key (handleGet env ctx key) := by
  refine ⟨_, rfl, fun map => ?_⟩
  simp only [remove, Prog.pure_eq, Prog.get_bind, Prog.read_bind, Prog.modify_bind,
    Prog.update_bind, Prog.done_bind, Prog.emit_bind, runCell_read]
  split
  · exact .remove id .nil IsAnswer.nil.isReply
  · simp only [runCell_read]
    split
    · exact .kept id (IsAnswer.bulk _).isReply
    · exact .kept id IsError.wrongTypeOfValue.isReply
    · exact .kept id IsAnswer.nil.isReply

theorem currentNumber_error {value : Option DataType} {msg : Bytes}
    (h : currentNumber value = .error msg) :
    IsError msg := by
  unfold currentNumber at h
  split at h
  · split at h <;> cases h
    exact .notInteger
  · cases h
    exact .wrongKind
  · cases h

theorem handleIncr_settles (key : Bytes) : Speaks env key (handleIncr env key) := by
  refine ⟨_, rfl, fun map => ?_⟩
  simp only [Prog.pure_eq, Prog.get_bind, runCell_read]
  split
  · rename_i errMsg herr
    exact .kept id (currentNumber_error herr).isReply
  · exact .logged id (.integer _)

theorem handleLPush_settles (key value : Bytes) : Speaks env key (handleLPush env key value) := by
  refine ⟨_, rfl, fun map => ?_⟩
  simp only [Prog.pure_eq, Prog.modify_bind, Prog.get_bind, runCell_update, runCell_read]
  split
  · exact .logged id (.integer _)
  · rename_i hne
    exact .kept_of_eq id IsError.wrongKindOfValue.isReply (orInsertWith_eq_self fun hv => hne [] hv)

theorem handleLPop_settles (key : Bytes) : Speaks env key (handleLPop env key) := by
  refine ⟨_, rfl, fun map => ?_⟩
  simp only [Prog.pure_eq, Prog.get_bind, runCell_read]
  split
  · exact .logged id (.bulk _)
  · exact .kept id IsAnswer.nil.isReply
  · exact .kept id IsError.wrongKind.isReply
  · exact .kept id IsAnswer.nil.isReply

theorem handleRPop_settles (key : Bytes) : Speaks env key (handleRPop env key) := by
  refine ⟨_, rfl, fun map => ?_⟩
  simp only [Prog.pure_eq, Prog.get_bind, runCell_read]
  split
  · split
    · exact .logged id (.bulk _)
    · exact .kept id IsAnswer.nil.isReply
  · exact .kept id IsError.wrongKind.isReply
  · exact .kept id IsAnswer.nil.isReply

/-- Where `RPUSH` has no reply. -/
def HoldsOther (key : Bytes) (map : Shard) : Prop :=
  ∃ value, map.value? key = some value ∧ ∀ list, value ≠ .list list

theorem handleRPush_settles (key value : Bytes) :
    Settles env key (handleRPush env key value) (HoldsOther key) := by
  refine ⟨_, rfl, fun map => ?_⟩
  simp only [Prog.pure_eq, Prog.modify_bind, Prog.get_bind, runCell_update, runCell_read]
  split
  · rename_i list hv
    refine .logged ?_ (.integer _)
    rintro ⟨value, hval, hne⟩
    rw [value?_orInsertWith, hval] at hv
    exact hne list (Option.some.inj hv)
  · rename_i hne
    have hsame : map.orInsertWith key emptyList = map := orInsertWith_eq_self fun hv => hne [] hv
    rw [value?_orInsertWith] at hne
    rw [hsame]
    cases hval : map.value? key with
    | none => exact absurd (by rw [hval]; rfl) (hne [])
    | some value =>
      rw [hval] at hne
      exact .silent ⟨value, hval, fun list heq => hne list (congrArg some heq)⟩

theorem handleHSet_settles (key field value : Bytes) :
    Speaks env key (handleHSet env key field value) := by
  refine ⟨_, rfl, fun map => ?_⟩
  simp only [Prog.pure_eq, Prog.modify_bind, Prog.get_bind, runCell_update, runCell_read]
  split
  · exact .logged id .ok
  · rename_i hne
    exact .kept_of_eq id IsError.wrongType.isReply (orInsertWith_eq_self fun hv => hne ∅ hv)

theorem handleSAdd_settles (key member : Bytes) : Speaks env key (handleSAdd env key member) := by
  refine ⟨_, rfl, fun map => ?_⟩
  simp only [Prog.pure_eq, Prog.modify_bind, Prog.get_bind, runCell_update, runCell_read]
  split
  · rename_i set hv
    split
    · rename_i hmem
      refine .kept_of_eq id (IsAnswer.integer 0).isReply (orInsertWith_eq_self fun hempty => ?_)
      rw [hv] at hempty
      obtain rfl : set = ∅ := by simpa [emptySet] using hempty
      exact AList.notMem_empty member hmem
    · exact .logged id (.integer 1)
  · rename_i hne
    exact .kept_of_eq id (IsAnswer.integer 0).isReply (orInsertWith_eq_self fun hv => hne ∅ hv)

theorem handleLRem_settles (key value : Bytes) : Speaks env key (handleLRem env key value) := by
  refine ⟨_, rfl, fun map => ?_⟩
  simp only [Prog.pure_eq, Prog.get_bind, runCell_read]
  split
  · split
    · exact .logged id .one
    · exact .kept id IsAnswer.zero.isReply
  · exact .kept id IsAnswer.zero.isReply

theorem handleLTrim_settles (key : Bytes) (start stop : Int) :
    Speaks env key (handleLTrim env key start stop) := by
  refine ⟨_, rfl, fun map => ?_⟩
  simp only [remove, Prog.pure_eq, Prog.get_bind, Prog.read_bind, Prog.modify_bind,
    Prog.update_bind, Prog.done_bind, Prog.emit_bind, runCell_read]
  split
  · split
    · exact .logged id .ok
    · split
      · exact .hang
      · simp only [runCell_update]
        split
        · exact .logged id .ok
        · exact .logged id .ok
  · exact .kept id IsError.wrongKind.isReply
  · exact .kept id IsAnswer.ok.isReply

end Writers

/-- How a command that may write ends. -/
inductive Ended (silent : Prop) (mem : Memory) : Outcome → Memory → List Command → Prop
  | kept {r : Bytes} (hs : ¬ silent) (hr : IsReply r) : Ended silent mem (.reply r) mem []
  | logged {r : Bytes} {mem' : Memory} {c : Command} (hs : ¬ silent) (hr : IsAnswer r) :
      Ended silent mem (.reply r) mem' [c]
  | silent (hs : silent) : Ended silent mem (.reply []) mem []
  | panic (hs : ¬ silent) : Ended silent mem .panic mem []

section Commands
variable (env : Env) (ctx : Ctx) {mem mem' : Memory} {a : Outcome} {logs : List Command}

theorem Settles.ended {key : Bytes} {p : Handler} {silent : Shard → Prop}
    {E : Shard → Option (Bytes × Shard × List Command) → Prop} (hw : WritesKey env key p E)
    (hs : Settles env key p silent) (hrun : p.run mem = some (a, mem', logs)) :
    Ended (silent (mem (calculateShardIndex env key))) mem a mem' logs := by
  obtain ⟨arm, rfl, harm⟩ := hs
  rw [hw.run_eq, runCell_withWrite, Option.map_map] at hrun
  have hsettled := harm (mem (calculateShardIndex env key))
  cases hcell : (arm (calculateShardIndex env key)).runCell (mem (calculateShardIndex env key)) with
  | none =>
    rw [hcell] at hrun
    cases hrun
  | some r =>
    rw [hcell] at hrun hsettled
    obtain ⟨rfl, rfl, rfl⟩ := Option.some.inj hrun
    cases hsettled with
    | kept hs hr =>
      simp only [Function.update_eq_self]
      exact .kept hs hr
    | logged hs hr => exact .logged hs hr
    | silent hs =>
      simp only [Function.update_eq_self]
      exact .silent hs

/-- Where a command that may write has no reply. -/
def Silences (mem : Memory) : Command → Prop
  | .rPush key _ => HoldsOther key (mem (calculateShardIndex env key))
  | _ => False

/-- Every command that may write ends in one of the four ways. -/
theorem handle_ended {command : Command} (h : ¬ command.reads)
    (hrun : (handle env ctx command).run mem = some (a, mem', logs)) :
    Ended (Silences env mem command) mem a mem' logs := by
  cases command with
  | set key value =>
    exact (handleSet_settles env key value).ended env (handleSet_writes env key value) hrun
  | setEx key seconds value =>
    simp only [handle] at hrun
    cases hd : ctx.now.addSecs (asU64 seconds) with
    | none =>
      unfold handleSetEx at hrun
      rw [hd] at hrun
      obtain ⟨rfl, rfl, rfl⟩ := Option.some.inj hrun
      exact .panic id
    | some deadline =>
      exact (handleSetEx_settles env ctx hd).ended env (handleSetEx_writes env ctx hd) hrun
  | get key => exact (handleGet_settles env ctx key).ended env (handleGet_writes env ctx key) hrun
  | del key => exact (handleDel_settles env key).ended env (handleDel_writes env key) hrun
  | incr key => exact (handleIncr_settles env key).ended env (handleIncr_writes env key) hrun
  | lPush key value =>
    exact (handleLPush_settles env key value).ended env (handleLPush_writes env key value) hrun
  | lPop key => exact (handleLPop_settles env key).ended env (handleLPop_writes env key) hrun
  | rPush key value =>
    exact (handleRPush_settles env key value).ended env (handleRPush_writes env key value) hrun
  | rPop key => exact (handleRPop_settles env key).ended env (handleRPop_writes env key) hrun
  | lTrim key start stop =>
    exact (handleLTrim_settles env key start stop).ended env
      (handleLTrim_writes env key start stop) hrun
  | hSet key field value =>
    exact (handleHSet_settles env key field value).ended env
      (handleHSet_writes env key field value) hrun
  | sAdd key member =>
    exact (handleSAdd_settles env key member).ended env (handleSAdd_writes env key member) hrun
  | lRem key count value =>
    exact (handleLRem_settles env key value).ended env (handleLRem_writes env key value) hrun
  | rPopLPush source destination =>
    simp only [handle] at hrun
    rw [handleRPopLPush_run] at hrun
    cases hlast : lastOf env source mem with
    | none =>
      rw [hlast] at hrun
      obtain ⟨rfl, rfl, rfl⟩ := Option.some.inj hrun
      exact .kept id IsAnswer.nil.isReply
    | some popped =>
      rw [hlast] at hrun
      obtain ⟨rfl, rfl, rfl⟩ := Option.some.inj hrun
      exact .logged id (.bulk _)
  | _ => exact absurd trivial h

/-- The arm has written an error, sent or not. -/
def Outcome.isError : Outcome → Prop
  | .reply buffer => buffer.head? = some 45
  | .closed => True
  | _ => False

/-- A command that replies with an error changes and logs nothing, and one that
changes the database logs one command. -/
theorem handle_errors_and_changes {command : Command}
    (hrun : (handle env ctx command).run mem = some (a, mem', logs)) :
    (a.isError → mem' = mem ∧ logs = []) ∧ (mem' ≠ mem → ∃ c, logs = [c]) := by
  by_cases hr : command.reads
  · obtain ⟨rfl, rfl⟩ := run_of_reads env ctx hr hrun
    exact ⟨fun _ => ⟨rfl, rfl⟩, fun hne => absurd rfl hne⟩
  · cases handle_ended env ctx hr hrun with
    | kept _ _ => exact ⟨fun _ => ⟨rfl, rfl⟩, fun hne => absurd rfl hne⟩
    | logged _ ha => exact ⟨fun he => absurd he ha.head_ne, fun _ => ⟨_, rfl⟩⟩
    | silent _ => exact ⟨fun _ => ⟨rfl, rfl⟩, fun hne => absurd rfl hne⟩
    | panic _ => exact ⟨fun _ => ⟨rfl, rfl⟩, fun hne => absurd rfl hne⟩

theorem handle_errors_and_changes_set :
    ((Outcome.reply okReply).isError →
      onShard plainEnv [107] (·.insert [107] ⟨.string [118], none⟩) newDb =
      newDb ∧ [Command.set [107] [118]] = []) ∧
    (onShard plainEnv [107] (·.insert [107] ⟨.string [118], none⟩) newDb ≠ newDb →
      ∃ c, [Command.set [107] [118]] = [c]) :=
  handle_errors_and_changes plainEnv plainCtx
    (show (handle plainEnv plainCtx (.set [107] [118])).run newDb = _ from rfl)

end Commands

end TitanKv
