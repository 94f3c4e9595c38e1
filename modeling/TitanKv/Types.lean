import TitanKv.Moves

/-! # Values of another type

Most commands work on values of one type. An arm that matches on the value it
finds refuses one of another type; an arm that only asks whether the value is of
its type goes on as if there were none. -/

namespace TitanKv
open Local TwoPhase

inductive Kind where
  | string
  | list
  | hash
  | set
  deriving DecidableEq

def DataType.kind : DataType → Kind
  | .string _ => .string
  | .list _ => .list
  | .hash _ => .hash
  | .set _ => .set

/-- The type of value that a command works on. -/
def Command.worksOn : Command → Option Kind
  | .strlen _ | .get _ | .incr _ => some .string
  | .lPush _ _ | .rPush _ _ | .lPop _ | .rPop _ | .lTrim _ _ _ | .lRange _ _ _ | .llen _
  | .lRem _ _ _ | .rPopLPush _ _ => some .list
  | .hSet _ _ _ | .hGet _ _ | .hGetAll _ | .hlen _ => some .hash
  | .sAdd _ _ | .sMembers _ | .scard _ | .sInter _ _ => some .set
  | _ => none

/-- The arms that only ask whether the value is of their type. -/
def Command.unchecked : Command → Prop
  | .rPush _ _ | .lRem _ _ _ | .sAdd _ _ | .sInter _ _ | .rPopLPush _ _ => True
  | _ => False

/-- The keys whose type matters: all that the command names, but the destination
of `RPOPLPUSH` only where there is an element to move. -/
def Command.typedKeys (env : Env) (db : Memory) : Command → List Bytes
  | .rPopLPush source destination =>
    if (lastOf env source db).isSome then [source, destination] else [source]
  | command => command.keyArgs

/-- A key of the command holds an unexpired value of another type. -/
def Mistyped (env : Env) (ctx : Ctx) (db : Memory) (command : Command) : Prop :=
  ∃ kind key entry, command.worksOn = some kind ∧ key ∈ command.typedKeys env db ∧
    entryAt env db key = some entry ∧ isExpired ctx.now (some entry) = false ∧
      entry.value.kind ≠ kind

/-- One complete `WRONGTYPE` error. -/
def IsWrongType (bytes : Bytes) : Prop := IsError bytes ∧ lit "-WRONGTYPE" <+: bytes

/-- The handler replies with a `WRONGTYPE` error and changes nothing. -/
def Refuses (p : Handler) (db : Memory) : Prop :=
  ∃ buffer logs, p.run db = some (.reply buffer, db, logs) ∧ IsWrongType buffer

/-- A command on a value of another type is refused. -/
def TypeSafe (env : Env) (ctx : Ctx) (db : Memory) (command : Command) : Prop :=
  Mistyped env ctx db command → Refuses (handle env ctx command) db

section Errors

theorem IsWrongType.wrongKind : IsWrongType wrongKind := ⟨.wrongKind, by decide⟩

theorem IsWrongType.wrongType : IsWrongType wrongType := ⟨.wrongType, by decide⟩

theorem IsWrongType.wrongTypeOfValue :
    IsWrongType (lit "-WRONGTYPE Operation against a key holding the wrong type of value\r\n") :=
  ⟨.wrongTypeOfValue, by decide⟩

theorem IsWrongType.wrongKindOfValue :
    IsWrongType (lit "-WRONGTYPE Operation against a key holding the wrong kind of value \r\n") :=
  ⟨.wrongKindOfValue, by decide⟩

end Errors

section Arms
variable {env : Env} {ctx : Ctx} {db : Memory} {key val field : Bytes} {entry : Entry}
  {value : DataType}

theorem refuses_withEntry {respond : Option Entry → Bytes} (hl : entryAt env db key = some entry)
    (h : IsWrongType (respond (some entry))) : Refuses (withEntry env key respond) db := by
  refine ⟨_, _, run_withEntry env db key respond, ?_⟩
  rw [← entryAt, hl]
  exact h

/-- A writer of one key that refuses on the key's shard. -/
theorem refuses_withWrite {E : Shard → Option (Bytes × Shard × List Command) → Prop}
    {arm : Index → Arm Bytes} {buffer : Bytes} (hw : WritesKey env key (withWrite env key arm) E)
    (hcell : (arm (calculateShardIndex env key)).runCell (db (calculateShardIndex env key)) =
      some (buffer, db (calculateShardIndex env key), [])) (hb : IsWrongType buffer) :
    Refuses (withWrite env key arm) db := by
  refine ⟨buffer, [], ?_, hb⟩
  rw [hw.run_eq, runCell_withWrite, hcell]
  simp

section Cells
variable {E : Shard → Option (Bytes × Shard × List Command) → Prop} {f : Index → Shard → Arm Bytes}
  {buffer : Bytes}

/-- An arm that decides on what it reads. -/
theorem refuses_reading (hw : WritesKey env key (withWrite env key fun i => Prog.get i >>= f i) E)
    (hf : f (calculateShardIndex env key) (db (calculateShardIndex env key)) = Prog.done buffer)
    (hb : IsWrongType buffer) : Refuses (withWrite env key fun i => Prog.get i >>= f i) db := by
  refine refuses_withWrite hw ?_ hb
  rw [Prog.get_bind, runCell_read, hf]
  rfl

/-- Where a growing arm finds a value, it inserts nothing. -/
theorem orInsertWith_of_stored (empty : Entry) (h : stored env db key = some value) :
    (db (calculateShardIndex env key)).orInsertWith key empty =
      db (calculateShardIndex env key) := by
  obtain ⟨entry, hl, -⟩ := Option.map_eq_some_iff.mp h
  exact if_pos (AList.lookup_isSome.mp (by rw [hl]; rfl))

/-- An arm that puts an empty value under a new key first. -/
theorem refuses_growing {empty : Entry} (hw : WritesKey env key (withWrite env key fun i =>
      Prog.modify i (·.orInsertWith key empty) >>= fun _ => Prog.get i >>= f i) E)
    (h : stored env db key = some value)
    (hf : f (calculateShardIndex env key) (db (calculateShardIndex env key)) = Prog.done buffer)
    (hb : IsWrongType buffer) : Refuses (withWrite env key fun i =>
      Prog.modify i (·.orInsertWith key empty) >>= fun _ => Prog.get i >>= f i) db := by
  refine refuses_withWrite hw ?_ hb
  rw [Prog.modify_bind, runCell_update, orInsertWith_of_stored empty h, Prog.get_bind,
    runCell_read, hf]
  rfl

end Cells

/-- The look-ups of one key that work on one type. -/
theorem looksUp_refuses {command : Command} {kind : Kind} (hkind : command.worksOn = some kind)
    (hkey : command.looksUp = some key) (hl : entryAt env db key = some entry)
    (hne : entry.value.kind ≠ kind) :
    Refuses (handle env ctx command) db := by
  obtain ⟨value, expiresAt⟩ := entry
  cases command <;> cases hkind <;> cases hkey <;>
    simp only [handle, handleStrlen, handleLRange, handleHGetAll, handleHGet, handleSMembers,
      handleScard, handleLlen, handleHlen] <;>
    refine refuses_withEntry hl ?_ <;> cases value <;> dsimp only <;>
    first
    | exact absurd rfl hne
    | with_reducible exact .wrongKind
    | with_reducible exact .wrongType

theorem handleGet_refuses (hlive : isExpired ctx.now (entryAt env db key) = false)
    (h : stored env db key = some value) (hne : value.kind ≠ .string) :
    Refuses (handleGet env ctx key) db := by
  refine ⟨_, _, handleGet_run env ctx db hlive, ?_⟩
  rw [h]
  cases value with
  | string val => exact absurd rfl hne
  | list _ | hash _ | set _ => exact .wrongTypeOfValue

theorem handleIncr_refuses (h : stored env db key = some value) (hne : value.kind ≠ .string) :
    Refuses (handleIncr env key) db := by
  refine refuses_reading (handleIncr_writes env key) ?_ .wrongKind
  rw [stored] at h
  simp only [h]
  cases value with
  | string val => exact absurd rfl hne
  | list _ | hash _ | set _ => rfl

theorem handleLPush_refuses (h : stored env db key = some value) (hne : value.kind ≠ .list) :
    Refuses (handleLPush env key val) db := by
  refine refuses_growing (handleLPush_writes env key val) h ?_ .wrongKindOfValue
  rw [stored] at h
  simp only [h]
  cases value with
  | list list => exact absurd rfl hne
  | string _ | hash _ | set _ => rfl

theorem handleHSet_refuses (h : stored env db key = some value) (hne : value.kind ≠ .hash) :
    Refuses (handleHSet env key field val) db := by
  refine refuses_growing (handleHSet_writes env key field val) h ?_ .wrongType
  rw [stored] at h
  simp only [h]
  cases value with
  | hash hmap => exact absurd rfl hne
  | string _ | list _ | set _ => rfl

theorem handleLPop_refuses (h : stored env db key = some value) (hne : value.kind ≠ .list) :
    Refuses (handleLPop env key) db := by
  refine refuses_reading (handleLPop_writes env key) ?_ .wrongKind
  rw [stored] at h
  simp only [h]
  cases value with
  | list list => exact absurd rfl hne
  | string _ | hash _ | set _ => rfl

theorem handleRPop_refuses (h : stored env db key = some value) (hne : value.kind ≠ .list) :
    Refuses (handleRPop env key) db := by
  refine refuses_reading (handleRPop_writes env key) ?_ .wrongKind
  rw [stored] at h
  simp only [h]
  cases value with
  | list list => exact absurd rfl hne
  | string _ | hash _ | set _ => rfl

theorem handleLTrim_refuses {start stop : Int} (h : stored env db key = some value)
    (hne : value.kind ≠ .list) :
    Refuses (handleLTrim env key start stop) db := by
  refine refuses_reading (handleLTrim_writes env key start stop) ?_ .wrongKind
  rw [stored] at h
  simp only [h]
  cases value with
  | list list => exact absurd rfl hne
  | string _ | hash _ | set _ => rfl

end Arms

section Commands
variable {env : Env} {ctx : Ctx} {db : Memory} {command : Command}

/-- The arms that match on what they find. -/
theorem refuses_of_checked (hmistyped : Mistyped env ctx db command)
    (hchecked : ¬ command.unchecked) :
    Refuses (handle env ctx command) db := by
  obtain ⟨kind, key, entry, hkind, hkey, hl, hlive, hne⟩ := hmistyped
  have hvalue : stored env db key = some entry.value := stored_of_entryAt hl rfl
  have hkeys : command.typedKeys env db = command.keyArgs := by
    cases command with
    | rPopLPush _ _ => exact absurd trivial hchecked
    | _ => rfl
  rw [hkeys] at hkey
  cases command with
  | get k =>
    obtain rfl := List.mem_singleton.mp hkey
    cases hkind
    exact handleGet_refuses (by rw [hl]; exact hlive) hvalue hne
  | incr k =>
    obtain rfl := List.mem_singleton.mp hkey
    cases hkind
    exact handleIncr_refuses hvalue hne
  | lPush k val =>
    obtain rfl := List.mem_singleton.mp hkey
    cases hkind
    exact handleLPush_refuses hvalue hne
  | lPop k =>
    obtain rfl := List.mem_singleton.mp hkey
    cases hkind
    exact handleLPop_refuses hvalue hne
  | rPop k =>
    obtain rfl := List.mem_singleton.mp hkey
    cases hkind
    exact handleRPop_refuses hvalue hne
  | lTrim k start stop =>
    obtain rfl := List.mem_singleton.mp hkey
    cases hkind
    exact handleLTrim_refuses hvalue hne
  | hSet k field val =>
    obtain rfl := List.mem_singleton.mp hkey
    cases hkind
    exact handleHSet_refuses hvalue hne
  | strlen k | lRange k _ _ | llen k | hGet k _ | hGetAll k | hlen k | sMembers k | scard k =>
    obtain rfl := List.mem_singleton.mp hkey
    exact looksUp_refuses hkind rfl hl hne
  | rPush _ _ | lRem _ _ _ | sAdd _ _ | sInter _ _ | rPopLPush _ _ => exact absurd trivial hchecked
  | _ => cases hkind

/-- A writer of one key with no error on any path. -/
theorem head_ne_of_withWrite {key buffer : Bytes} {arm : Index → Arm Bytes} {db' : Memory}
    {logs : List Command}
    {E : Shard → Option (Bytes × Shard × List Command) → Prop}
    (hw : WritesKey env key (withWrite env key arm) E)
    (hcell : ∀ i map, ∃ r map' logs, (arm i).runCell map = some (r, map', logs) ∧ r.head? ≠ some 45)
    (hrun : (withWrite env key arm).run db = some (.reply buffer, db', logs)) :
    buffer.head? ≠ some 45 := by
  obtain ⟨r, map', sent, hends, hr⟩ :=
    hcell (calculateShardIndex env key) (db (calculateShardIndex env key))
  rw [hw.run_eq, runCell_withWrite, hends] at hrun
  obtain ⟨rfl, -⟩ := by simpa using hrun
  exact hr

/-- The arms that only ask never reply with an error. -/
theorem not_refuses_of_unchecked (h : command.unchecked) :
    ¬ Refuses (handle env ctx command) db := by
  rintro ⟨buffer, logs, hrun, herror, -⟩
  suffices hne : buffer.head? ≠ some 45 from hne herror.head
  cases command with
  | rPush key val =>
    refine head_ne_of_withWrite (handleRPush_writes env key val) (fun i map => ?_) hrun
    simp only [Prog.pure_eq, Prog.modify_bind, Prog.get_bind, runCell_update, runCell_read]
    split
    · exact ⟨_, _, _, rfl, (IsAnswer.integer _).head_ne⟩
    · exact ⟨_, _, _, rfl, by simp⟩
  | lRem key count val =>
    refine head_ne_of_withWrite (handleLRem_writes env key val) (fun i map => ?_) hrun
    simp only [Prog.pure_eq, Prog.get_bind, runCell_read]
    split
    · split
      · exact ⟨_, _, _, rfl, IsAnswer.one.head_ne⟩
      · exact ⟨_, _, _, rfl, IsAnswer.zero.head_ne⟩
    · exact ⟨_, _, _, rfl, IsAnswer.zero.head_ne⟩
  | sAdd key member =>
    refine head_ne_of_withWrite (handleSAdd_writes env key member) (fun i map => ?_) hrun
    simp only [Prog.pure_eq, Prog.modify_bind, Prog.get_bind, runCell_update, runCell_read]
    split
    · split
      · exact ⟨_, _, _, rfl, (IsAnswer.integer 0).head_ne⟩
      · exact ⟨_, _, _, rfl, (IsAnswer.integer 1).head_ne⟩
    · exact ⟨_, _, _, rfl, (IsAnswer.integer 0).head_ne⟩
  | sInter keyA keyB =>
    simp only [handle, handleSInter] at hrun
    rw [run_withTwoValues] at hrun
    obtain ⟨rfl, -⟩ := by simpa using hrun
    exact (IsAnswer.array _).head_ne
  | rPopLPush source destination =>
    simp only [handle] at hrun
    rw [handleRPopLPush_run] at hrun
    split at hrun
    · obtain ⟨rfl, -⟩ := by simpa using hrun
      exact (IsAnswer.bulk _).head_ne
    · obtain ⟨rfl, -⟩ := by simpa using hrun
      exact IsAnswer.nil.head_ne
  | _ => exact h.elim

/-- Exactly when a command is type-safe: its arm matches on what it finds, or no
key of it holds an unexpired value of another type. -/
theorem typeSafe_iff :
    TypeSafe env ctx db command ↔ (command.unchecked → ¬ Mistyped env ctx db command) := by
  constructor
  · exact fun hsafe hunchecked hmistyped => not_refuses_of_unchecked hunchecked (hsafe hmistyped)
  · intro hchecked hmistyped
    exact refuses_of_checked hmistyped fun hunchecked => hchecked hunchecked hmistyped

/-- A string under `k`. -/
def stringDb : Memory := onShard plainEnv [107] (·.insert [107] ⟨.string [118], none⟩) newDb

/-- `RPUSH k v` on a string has no reply at all. -/
theorem rPush_silent_on_string :
    ¬ ∀ (env : Env) (ctx : Ctx) (db : Memory) (command : Command), TypeSafe env ctx db command := by
  intro h
  have hunchecked : (Command.rPush [107] [118]).unchecked := trivial
  refine not_refuses_of_unchecked hunchecked (h plainEnv plainCtx stringDb (.rPush [107] [118]) ?_)
  exact ⟨.list, [107], ⟨.string [118], none⟩, rfl, List.mem_singleton_self _, rfl, rfl, by decide⟩

end Commands

end TitanKv
