import TitanKv.Lib.Files
import TitanKv.Lib.Runs
import TitanKv.Agreement
import TitanKv.Compaction

/-! # The server and its background tasks

Clients, the log writer, the compactor and the expiration sweeper as one step
function. A command is one step: it holds its guards from its first access to
its last, and all but `RPOPLPUSH` send their line before they drop them. The
writer appends through the handle it opened at start-up, the sweeper opens
`database.aof` by its name, the compactor renames a new file over it.

`time`, `visited` and `sent` are not in the program: the number of the step, the
step of the last visit of the compactor to each shard and the lines sent so far. -/

namespace TitanKv
open Utf8 Files

/-- `database.aof` and `database.temp.aof`. -/
inductive FileName where
  | aof
  | temp
  deriving DecidableEq

/-- A log line and the step its write was executed at. -/
structure Line where
  command : Command
  time : Nat

/-- A compacted text, if the file has one, and the lines appended to it. -/
structure File where
  base : Text
  lines : List Line

def linesLog (lines : List Line) : Text := lines.flatMap fun line => logLine line.command

def File.text (file : File) : Text := file.base ++ linesLog file.lines

def File.append (lines : List Line) (file : File) : File :=
  { file with lines := file.lines ++ lines }

/-- What the compactor read of a shard: the map, and the clock of its deadlines. -/
structure ShardRead where
  map : Shard
  now : Bytes → SystemTime

/-- The text built from the shards read so far. -/
def readsText (reads : List ShardRead) : Text := reads.flatMap fun r => shardText r.now r.map

inductive Compactor where
  | idle
  | reading (reads : List ShardRead)
  | renaming

/-- The sweeper between two shards, or between two lines it appends. -/
inductive Sweeper where
  | idle
  | sweeping (now : SystemTime) (swept : Nat) (allKeysToDel : List Bytes)
  | appending (file : Nat) (allKeysToDel : List Bytes)

/-- The removed keys the sweeper has not logged yet. -/
def Sweeper.pending : Sweeper → List Bytes
  | .idle => []
  | .sweeping _ _ keys => keys
  | .appending _ keys => keys

/-- The sweeper with these keys left to log. -/
def Sweeper.remaining (file : Nat) : List Bytes → Sweeper
  | [] => .idle
  | keys => .appending file keys

structure System where
  db : Memory
  unsent : List Line
  sent : List Line
  channel : List Line
  buffer : List Line
  fs : FileSystem FileName File
  handle : Nat
  compactor : Compactor
  sweeper : Sweeper
  time : Nat
  visited : Index → Nat

namespace System

/-- The writer has opened the log, the channel is empty and no task has started.
A temporary file may be left from an earlier run. -/
def start (db : Memory) (log : File) (temp : Option File) : System where
  db := db
  unsent := []
  sent := []
  channel := []
  buffer := []
  fs :=
    { dir := fun name => match name with
        | .aof => some 0
        | .temp => temp.map fun _ => 1
      content := fun i => if i = 0 then log else temp.getD ⟨[], []⟩
      next := 2 }
  handle := 0
  compactor := .idle
  sweeper := .idle
  time := 1
  visited := fun _ => 0

/-- `db.aof_tx.send(log)`. -/
def send (lines : List Line) (s : System) : System :=
  { s with channel := s.channel ++ lines, sent := s.sent ++ lines }

/-- `buffer.push_str(&log)`. -/
def collect (line : Line) (channel : List Line) (s : System) : System :=
  { s with channel := channel, buffer := s.buffer ++ [line] }

/-- `file.write_all(buffer.as_bytes())` and `buffer.clear()`. -/
def flush (s : System) : System :=
  { s with fs := s.fs.modify s.handle (File.append s.buffer), buffer := [] }

end System

/-- The arm that drops its guards before it sends. -/
def Command.sendsLate : Command → Bool
  | .rPopLPush _ _ => true
  | _ => false

inductive Event where
  | command (request : Request)
  | sendLate (n : Nat)
  | receive
  | tick
  | startCompaction
  | readShard (now : Bytes → SystemTime)
  | writeTemp (isOk : Bool)
  | rename (isOk : Bool)
  | startSweep (now : SystemTime)
  | sweepShard
  | openLog
  | appendDel

section Steps
variable (env : Env) (s : System)

def stepCommand (request : Request) : Option System :=
  ((request.handle env).run s.db).map fun r =>
    let lines := r.2.2.map fun command => ⟨command, s.time⟩
    if request.command.sendsLate then { s with db := r.2.1, unsent := s.unsent ++ lines }
    else System.send lines { s with db := r.2.1 }

def stepSendLate (n : Nat) : Option System :=
  s.unsent[n]?.map fun line => System.send [line] { s with unsent := s.unsent.eraseIdx n }

/-- The writer's threshold, `64 * 1024` bytes. -/
def threshold : Nat := 64 * 1024

def stepReceive : Option System :=
  match s.channel with
  | [] => none
  | line :: channel =>
    let s := s.collect line channel
    if threshold ≤ (encode (linesLog s.buffer)).length then some s.flush else some s

def stepTick : Option System :=
  match s.buffer with
  | [] => some s
  | _ => some s.flush

def stepStartCompaction : Option System :=
  match s.compactor with
  | .idle => some { s with compactor := .reading [] }
  | _ => none

/-- The read loop's next shard. -/
def stepReadShard (now : Bytes → SystemTime) : Option System :=
  match s.compactor with
  | .reading reads =>
    if h : reads.length < shardCount then
      let i : Index := ⟨reads.length, h⟩
      some { s with
        compactor := .reading (reads ++ [⟨s.db i, now⟩])
        visited := Function.update s.visited i s.time }
    else none
  | _ => none

/-- `fs::write("database.temp.aof", new_aof_content)` after the loop. -/
def stepWriteTemp (isOk : Bool) : Option System :=
  match s.compactor with
  | .reading reads =>
    if reads.length < shardCount then none
    else if isOk then
      some { s with
        fs := s.fs.replace .temp ⟨readsText reads, []⟩
        compactor := .renaming }
    else some { s with compactor := .idle }
  | _ => none

def stepRename (isOk : Bool) : Option System :=
  match s.compactor with
  | .renaming =>
    if isOk then some { s with fs := s.fs.rename .temp .aof, compactor := .idle }
    else some { s with compactor := .idle }
  | _ => none

def stepStartSweep (now : SystemTime) : Option System :=
  match s.sweeper with
  | .idle => some { s with sweeper := .sweeping now 0 [] }
  | _ => none

/-- The keys of a shard whose deadline has passed. -/
def expiredKeys (now : SystemTime) (map : Shard) : List Bytes :=
  map.keys.filter fun key => isExpired now (map.lookup key)

def removeKeys (keys : List Bytes) (map : Shard) : Shard :=
  keys.foldl (fun map key => map.erase key) map

def stepSweepShard : Option System :=
  match s.sweeper with
  | .sweeping now swept keys =>
    if h : swept < shardCount then
      let i : Index := ⟨swept, h⟩
      let expired := expiredKeys now (s.db i)
      some { s with
        db := Function.update s.db i (removeKeys expired (s.db i))
        sweeper := .sweeping now (swept + 1) (keys ++ expired) }
    else none
  | _ => none

/-- After the last shard: nothing to log, or the log opened by its name. -/
def stepOpenLog : Option System :=
  match s.sweeper with
  | .sweeping _ swept keys =>
    if swept < shardCount then none
    else match keys with
      | [] => some { s with sweeper := .idle }
      | _ =>
        let opened := s.fs.openFile .aof ⟨[], []⟩
        some { s with fs := opened.2, sweeper := .appending opened.1 keys }
  | _ => none

/-- `file.write_all` of one `DEL` line, past the channel and the buffer. -/
def stepAppendDel : Option System :=
  match s.sweeper with
  | .appending file (key :: keys) =>
    some { s with
      fs := s.fs.modify file (File.append [⟨.del key, s.time⟩])
      sweeper := .remaining file keys }
  | _ => none

def effect : Event → Option System
  | .command request => stepCommand env s request
  | .sendLate n => stepSendLate s n
  | .receive => stepReceive s
  | .tick => stepTick s
  | .startCompaction => stepStartCompaction s
  | .readShard now => stepReadShard s now
  | .writeTemp isOk => stepWriteTemp s isOk
  | .rename isOk => stepRename s isOk
  | .startSweep now => stepStartSweep s now
  | .sweepShard => stepSweepShard s
  | .openLog => stepOpenLog s
  | .appendDel => stepAppendDel s

def step (e : Event) : Option System :=
  (effect env s e).map fun s' => { s' with time := s'.time + 1 }

end Steps

/-! What a step of each kind can do. -/

section Inversion
variable {env : Env} {s s' : System}

theorem step_some {e : Event} (h : step env s e = some s') :
    ∃ t, effect env s e = some t ∧ s' = { t with time := t.time + 1 } := by
  obtain ⟨t, ht, rfl⟩ := Option.map_eq_some_iff.mp h
  exact ⟨t, ht, rfl⟩

theorem stepCommand_some {request : Request} (h : stepCommand env s request = some s') :
    ∃ a db logs, (request.handle env).run s.db = some (a, db, logs) ∧
      (request.command.sendsLate = true ∧
          s' = { s with
            db := db, unsent := s.unsent ++ logs.map fun command => ⟨command, s.time⟩ } ∨
        request.command.sendsLate = false ∧
          s' = System.send (logs.map fun command => ⟨command, s.time⟩) { s with db := db }) := by
  obtain ⟨⟨a, db, logs⟩, hrun, rfl⟩ := Option.map_eq_some_iff.mp h
  refine ⟨a, db, logs, hrun, ?_⟩
  cases hlate : request.command.sendsLate with
  | true => exact Or.inl ⟨rfl, by simp⟩
  | false => exact Or.inr ⟨rfl, by simp⟩

theorem stepSendLate_some {n : Nat} (h : stepSendLate s n = some s') :
    ∃ line, s' = System.send [line] { s with unsent := s.unsent.eraseIdx n } := by
  obtain ⟨line, -, rfl⟩ := Option.map_eq_some_iff.mp h
  exact ⟨line, rfl⟩

theorem stepReceive_some (h : stepReceive s = some s') :
    ∃ line channel, s.channel = line :: channel ∧
      (s' = s.collect line channel ∨
        threshold ≤ (encode (linesLog (s.buffer ++ [line]))).length ∧
          s' = (s.collect line channel).flush) := by
  unfold stepReceive at h
  split at h
  · cases h
  · rename_i line channel hchannel
    refine ⟨line, channel, hchannel, ?_⟩
    dsimp only at h
    split at h
    · rename_i hlen
      exact Or.inr ⟨hlen, (Option.some.inj h).symm⟩
    · exact Or.inl (Option.some.inj h).symm

theorem stepTick_some (h : stepTick s = some s') : s.buffer = [] ∧ s' = s ∨ s' = s.flush := by
  unfold stepTick at h
  split at h
  · rename_i hbuffer
    exact Or.inl ⟨hbuffer, (Option.some.inj h).symm⟩
  · exact Or.inr (Option.some.inj h).symm

theorem stepStartCompaction_some (h : stepStartCompaction s = some s') :
    s.compactor = .idle ∧ s' = { s with compactor := .reading [] } := by
  unfold stepStartCompaction at h
  split at h
  · exact ⟨‹_›, (Option.some.inj h).symm⟩
  · cases h

theorem stepReadShard_some {now : Bytes → SystemTime} (h : stepReadShard s now = some s') :
    ∃ reads, ∃ hlt : reads.length < shardCount, s.compactor = .reading reads ∧
      s' = { s with
        compactor := .reading (reads ++ [⟨s.db ⟨reads.length, hlt⟩, now⟩])
        visited := Function.update s.visited ⟨reads.length, hlt⟩ s.time } := by
  unfold stepReadShard at h
  split at h
  · rename_i reads hreading
    split at h
    · rename_i hlt
      exact ⟨reads, hlt, hreading, (Option.some.inj h).symm⟩
    · cases h
  · cases h

theorem stepWriteTemp_some {isOk : Bool} (h : stepWriteTemp s isOk = some s') :
    ∃ reads, s.compactor = .reading reads ∧
      (s' = { s with fs := s.fs.replace .temp ⟨readsText reads, []⟩, compactor := .renaming } ∨
        s' = { s with compactor := .idle }) := by
  unfold stepWriteTemp at h
  split at h
  · rename_i reads hreading
    refine ⟨reads, hreading, ?_⟩
    split at h
    · cases h
    · split at h
      · exact Or.inl (Option.some.inj h).symm
      · exact Or.inr (Option.some.inj h).symm
  · cases h

theorem stepRename_some {isOk : Bool} (h : stepRename s isOk = some s') :
    s.compactor = .renaming ∧
      (isOk = true ∧ s' = { s with fs := s.fs.rename .temp .aof, compactor := .idle } ∨
        isOk = false ∧ s' = { s with compactor := .idle }) := by
  unfold stepRename at h
  split at h
  · rename_i hrenaming
    refine ⟨hrenaming, ?_⟩
    cases isOk with
    | true => exact Or.inl ⟨rfl, (Option.some.inj h).symm⟩
    | false => exact Or.inr ⟨rfl, (Option.some.inj h).symm⟩
  · cases h

theorem stepStartSweep_some {now : SystemTime} (h : stepStartSweep s now = some s') :
    s.sweeper = .idle ∧ s' = { s with sweeper := .sweeping now 0 [] } := by
  unfold stepStartSweep at h
  split at h
  · exact ⟨‹_›, (Option.some.inj h).symm⟩
  · cases h

theorem stepSweepShard_some (h : stepSweepShard s = some s') :
    ∃ now swept keys, ∃ hlt : swept < shardCount, s.sweeper = .sweeping now swept keys ∧
      s' = { s with
        db := Function.update s.db ⟨swept, hlt⟩
          (removeKeys (expiredKeys now (s.db ⟨swept, hlt⟩)) (s.db ⟨swept, hlt⟩))
        sweeper := .sweeping now (swept + 1) (keys ++ expiredKeys now (s.db ⟨swept, hlt⟩)) } := by
  unfold stepSweepShard at h
  split at h
  · rename_i now swept keys hsweeping
    split at h
    · rename_i hlt
      exact ⟨now, swept, keys, hlt, hsweeping, (Option.some.inj h).symm⟩
    · cases h
  · cases h

theorem stepOpenLog_some (h : stepOpenLog s = some s') :
    ∃ now swept keys, s.sweeper = .sweeping now swept keys ∧
      (keys = [] ∧ s' = { s with sweeper := .idle } ∨
        s' = { s with
          fs := (s.fs.openFile .aof ⟨[], []⟩).2
          sweeper := .appending (s.fs.openFile .aof ⟨[], []⟩).1 keys }) := by
  unfold stepOpenLog at h
  split at h
  · rename_i now swept keys hsweeping
    refine ⟨now, swept, keys, hsweeping, ?_⟩
    split at h
    · cases h
    · split at h
      · exact Or.inl ⟨rfl, (Option.some.inj h).symm⟩
      · exact Or.inr (Option.some.inj h).symm
  · cases h

theorem stepAppendDel_some (h : stepAppendDel s = some s') :
    ∃ file key keys, s.sweeper = .appending file (key :: keys) ∧
      s' = { s with
        fs := s.fs.modify file (File.append [⟨.del key, s.time⟩])
        sweeper := .remaining file keys } := by
  unfold stepAppendDel at h
  split at h
  · rename_i file key keys happending
    exact ⟨file, key, keys, happending, (Option.some.inj h).symm⟩
  · cases h

/-- Only a completed compaction takes the name away from the writer's file. -/
theorem step_named {e : Event} (h : s.fs.dir .aof = some s.handle) (hne : e ≠ .rename true)
    (he : step env s e = some s') : s'.fs.dir .aof = some s'.handle := by
  obtain ⟨t, ht, rfl⟩ := step_some he
  cases e with
  | command request =>
    obtain ⟨_, _, _, -, ⟨-, rfl⟩ | ⟨-, rfl⟩⟩ := stepCommand_some ht <;> exact h
  | sendLate n => obtain ⟨_, rfl⟩ := stepSendLate_some ht; exact h
  | receive => obtain ⟨_, _, -, rfl | ⟨-, rfl⟩⟩ := stepReceive_some ht <;> exact h
  | tick => obtain ⟨-, rfl⟩ | rfl := stepTick_some ht <;> exact h
  | startCompaction => obtain ⟨-, rfl⟩ := stepStartCompaction_some ht; exact h
  | readShard now => obtain ⟨_, _, -, rfl⟩ := stepReadShard_some ht; exact h
  | writeTemp isOk =>
    obtain ⟨_, -, rfl | rfl⟩ := stepWriteTemp_some ht
    · exact (FileSystem.replace_dir_of_ne _ (by decide)).trans h
    · exact h
  | rename isOk =>
    obtain ⟨-, ⟨rfl, -⟩ | ⟨-, rfl⟩⟩ := stepRename_some ht
    · exact absurd rfl hne
    · exact h
  | startSweep now => obtain ⟨-, rfl⟩ := stepStartSweep_some ht; exact h
  | sweepShard => obtain ⟨_, _, _, _, -, rfl⟩ := stepSweepShard_some ht; exact h
  | openLog =>
    obtain ⟨_, _, _, -, ⟨-, rfl⟩ | rfl⟩ := stepOpenLog_some ht
    · exact h
    · exact (congrArg (fun opened => opened.2.dir .aof)
        (FileSystem.openFile_of_some ⟨[], []⟩ h)).trans h
  | appendDel => obtain ⟨_, _, _, -, rfl⟩ := stepAppendDel_some ht; exact h

end Inversion

end TitanKv
