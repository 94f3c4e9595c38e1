import TitanKv.Background

/-! # Compaction against the writer's open handle

The compactor renames its file over `database.aof` while the writer's handle
stays on the file it was opened on. A line that the snapshot does not cover is
kept in every run in which the writer writes such lines only to the file of that
name, and no rename replaces a file that holds one. It is then in the channel, in
the buffer or in that file at every moment. -/

namespace TitanKv
open Utf8 Files Runs

/-- A line of a write that came after the last visit to a shard it is about. -/
def Line.Required (env : Env) (visited : Index → Nat) (line : Line) : Prop :=
  ∃ key ∈ line.command.keyArgs, visited (calculateShardIndex env key) < line.time

/-- The line is in the file replay would open. -/
def OnDisk (fs : FileSystem FileName File) (line : Line) : Prop :=
  ∃ i, fs.dir .aof = some i ∧ line ∈ (fs.content i).lines

namespace System

/-- What the writer writes to its handle in a step. -/
def batch (s : System) : Event → List Line
  | .tick => s.buffer
  | .receive =>
    match s.channel with
    | [] => []
    | line :: _ =>
      if threshold ≤ (encode (linesLog (s.buffer ++ [line]))).length then s.buffer ++ [line] else []
  | _ => []

/-- No log line is under way and no compaction. -/
structure Settled (s : System) : Prop where
  channel : s.channel = []
  buffer : s.buffer = []
  compactor : s.compactor = .idle

end System

/-- A required line is written to the file of the name, and stays in it. -/
structure KeepsRequired (env : Env) (s : System) (e : Event) : Prop where
  written : ∀ line ∈ s.batch e, line.Required env s.visited → s.fs.dir .aof = some s.handle
  renamed : e = .rename true → ∀ line ∈ s.sent, line.Required env s.visited → ¬ OnDisk s.fs line

section Files
variable {fs : FileSystem FileName File} {line : Line}

theorem OnDisk.modify (h : OnDisk fs line) (i : Nat) (lines : List Line) :
    OnDisk (fs.modify i (File.append lines)) line := by
  obtain ⟨j, hdir, hline⟩ := h
  refine ⟨j, hdir, ?_⟩
  by_cases hj : j = i
  · subst hj
    rw [FileSystem.modify_content]
    exact List.mem_append_left _ hline
  · rwa [FileSystem.modify_content_of_ne _ hj]

theorem onDisk_of_mem {i : Nat} {lines : List Line} (hdir : fs.dir .aof = some i)
    (h : line ∈ lines) : OnDisk (fs.modify i (File.append lines)) line := by
  refine ⟨i, hdir, ?_⟩
  rw [FileSystem.modify_content]
  exact List.mem_append_right _ h

theorem OnDisk.openFile (h : OnDisk fs line) (initial : File) :
    OnDisk (fs.openFile .aof initial).2 line := by
  obtain ⟨i, hdir, hline⟩ := h
  rw [FileSystem.openFile_of_some initial hdir]
  exact ⟨i, hdir, hline⟩

/-- The temporary file is another one than the log. -/
theorem OnDisk.replace (h : OnDisk fs line) (hfs : fs.WellFormed) (file : File) :
    OnDisk (fs.replace .temp file) line := by
  obtain ⟨i, hdir, hline⟩ := h
  have hother : fs.dir .temp ≠ some i := fun htemp => by
    cases hfs.injective _ _ i hdir htemp
  refine ⟨i, ?_, ?_⟩
  · rwa [FileSystem.replace_dir_of_ne _ (by decide)]
  · rwa [FileSystem.replace_content_of_ne _ (hfs.allocated _ _ hdir) hother]

end Files

section Invariant
variable (env : Env)

/-- What every admitted step keeps: a required line is on its way or on disk. -/
structure Durable (s : System) : Prop where
  wellFormed : s.fs.WellFormed
  visited : ∀ i, s.visited i ≤ s.time
  kept : ∀ line ∈ s.sent, line.Required env s.visited →
    line ∈ s.channel ∨ line ∈ s.buffer ∨ OnDisk s.fs line

variable {env} {s s' : System}

theorem durable_start (db : Memory) (log : File) (temp : Option File) :
    Durable env (System.start db log temp) where
  wellFormed := by
    constructor
    · intro name i h
      cases name <;> cases temp <;> cases h <;> simp [System.start]
    · intro name other i h h'
      cases name <;> cases other <;> cases temp <;> cases h <;> first | rfl | cases h'
  visited _ := Nat.zero_le _
  kept _ h := absurd h List.not_mem_nil

/-- A visit to a shard makes fewer lines required. -/
theorem Line.Required.of_update {visited : Index → Nat} {line : Line} {i : Index} {time : Nat}
    (h : line.Required env (Function.update visited i time)) (hi : visited i ≤ time) :
    line.Required env visited := by
  obtain ⟨key, hkey, hlt⟩ := h
  refine ⟨key, hkey, ?_⟩
  by_cases hk : calculateShardIndex env key = i
  · rw [hk, Function.update_self] at hlt
    exact hk ▸ Nat.lt_of_le_of_lt hi hlt
  · rwa [Function.update_of_ne hk] at hlt

/-- The invariant is not about the database or the tasks' own state. -/
theorem Durable.frame (h : Durable env s) (db : Memory) (unsent : List Line)
    (compactor : Compactor) (sweeper : Sweeper) :
    Durable env { s with db := db, unsent := unsent, compactor := compactor, sweeper := sweeper } :=
  ⟨h.wellFormed, h.visited, h.kept⟩

theorem Durable.send (h : Durable env s) (lines : List Line) : Durable env (s.send lines) where
  wellFormed := h.wellFormed
  visited := h.visited
  kept line hline hreq := by
    rcases List.mem_append.mp hline with hline | hline
    · rcases h.kept line hline hreq with hc | hrest
      · exact Or.inl (List.mem_append_left _ hc)
      · exact Or.inr hrest
    · exact Or.inl (List.mem_append_right _ hline)

theorem Durable.collect {line : Line} {channel : List Line} (h : Durable env s)
    (hchannel : s.channel = line :: channel) : Durable env (s.collect line channel) where
  wellFormed := h.wellFormed
  visited := h.visited
  kept l hl hreq := by
    have hk := h.kept l hl hreq
    rw [hchannel, List.mem_cons] at hk
    rcases hk with (rfl | hc) | hb | hdisk
    · exact Or.inr (Or.inl (List.mem_append_right _ (List.mem_singleton_self l)))
    · exact Or.inl hc
    · exact Or.inr (Or.inl (List.mem_append_left _ hb))
    · exact Or.inr (Or.inr hdisk)

theorem Durable.flush (h : Durable env s)
    (hb : ∀ line ∈ s.buffer, line.Required env s.visited → s.fs.dir .aof = some s.handle) :
    Durable env s.flush where
  wellFormed := h.wellFormed.modify _
  visited := h.visited
  kept line hline hreq := by
    rcases h.kept line hline hreq with hc | hbuffer | hdisk
    · exact Or.inl hc
    · exact Or.inr (Or.inr (onDisk_of_mem (hb line hbuffer hreq) hbuffer))
    · exact Or.inr (Or.inr (hdisk.modify _ _))

/-- A change of the file system that keeps what is on disk. -/
theorem Durable.files (h : Durable env s) {fs : FileSystem FileName File} (hfs : fs.WellFormed)
    (hdisk : ∀ line ∈ s.sent, line.Required env s.visited → OnDisk s.fs line → OnDisk fs line) :
    Durable env { s with fs := fs } where
  wellFormed := hfs
  visited := h.visited
  kept line hline hreq :=
    (h.kept line hline hreq).imp_right (Or.imp_right (hdisk line hline hreq))

theorem Durable.visit (h : Durable env s) (i : Index) :
    Durable env { s with visited := Function.update s.visited i s.time } where
  wellFormed := h.wellFormed
  visited j := by
    by_cases hj : j = i
    · subst hj
      exact Nat.le_of_eq (Function.update_self _ _ _)
    · exact (Function.update_of_ne hj s.time s.visited).trans_le (h.visited j)
  kept line hline hreq := h.kept line hline (hreq.of_update (h.visited i))

theorem Durable.effect {e : Event} (h : Durable env s) (hok : KeepsRequired env s e)
    (he : effect env s e = some s') : Durable env s' := by
  cases e with
  | command request =>
    obtain ⟨a, db, logs, -, ⟨-, rfl⟩ | ⟨-, rfl⟩⟩ := stepCommand_some he
    · exact h.frame _ _ _ _
    · exact (h.frame db _ _ _).send _
  | sendLate n =>
    obtain ⟨line, rfl⟩ := stepSendLate_some he
    exact (h.frame _ (s.unsent.eraseIdx n) _ _).send _
  | receive =>
    obtain ⟨line, channel, hchannel, rfl | ⟨hlen, rfl⟩⟩ := stepReceive_some he
    · exact h.collect hchannel
    · refine (h.collect hchannel).flush fun l hl hreq => hok.written l ?_ hreq
      rw [System.batch, hchannel]
      dsimp only
      rw [if_pos hlen]
      exact hl
  | tick =>
    rcases stepTick_some he with ⟨-, rfl⟩ | rfl
    · exact h
    · exact h.flush hok.written
  | startCompaction =>
    obtain ⟨-, rfl⟩ := stepStartCompaction_some he
    exact h.frame _ _ _ _
  | readShard now =>
    obtain ⟨reads, hlt, -, rfl⟩ := stepReadShard_some he
    exact (h.visit _).frame _ _ _ _
  | writeTemp isOk =>
    obtain ⟨reads, -, rfl | rfl⟩ := stepWriteTemp_some he
    · exact (h.files (h.wellFormed.replace _) fun _ _ _ hdisk =>
        hdisk.replace h.wellFormed _).frame _ _ _ _
    · exact h.frame _ _ _ _
  | rename isOk =>
    obtain ⟨-, ⟨rfl, rfl⟩ | ⟨-, rfl⟩⟩ := stepRename_some he
    · exact (h.files h.wellFormed.rename fun line hline hreq hdisk =>
        absurd hdisk (hok.renamed rfl line hline hreq)).frame _ _ _ _
    · exact h.frame _ _ _ _
  | startSweep now =>
    obtain ⟨-, rfl⟩ := stepStartSweep_some he
    exact h.frame _ _ _ _
  | sweepShard =>
    obtain ⟨_, _, _, _, -, rfl⟩ := stepSweepShard_some he
    exact h.frame _ _ _ _
  | openLog =>
    obtain ⟨_, _, _, -, ⟨-, rfl⟩ | rfl⟩ := stepOpenLog_some he
    · exact h.frame _ _ _ _
    · exact (h.files (h.wellFormed.openFile _) fun _ _ _ hdisk => hdisk.openFile _).frame _ _ _ _
  | appendDel =>
    obtain ⟨file, key, keys, -, rfl⟩ := stepAppendDel_some he
    exact (h.files (h.wellFormed.modify _) fun _ _ _ hdisk => hdisk.modify _ _).frame _ _ _ _

theorem Durable.step {e : Event} (h : Durable env s) (hok : KeepsRequired env s e)
    (he : step env s e = some s') : Durable env s' := by
  obtain ⟨t, ht, rfl⟩ := step_some he
  have ht := h.effect hok ht
  exact ⟨ht.wellFormed, fun i => Nat.le_succ_of_le (ht.visited i), ht.kept⟩

/-- A run in which no compaction completes is admitted. -/
theorem keepsRequired_of_named {es : List Event} (h : s.fs.dir .aof = some s.handle)
    (hes : ∀ e ∈ es, e ≠ .rename true) : AllOk (TitanKv.step env) (KeepsRequired env) s es := by
  induction es generalizing s with
  | nil => trivial
  | cons e es ih =>
    have hne : e ≠ .rename true := hes e (by simp)
    exact ⟨⟨fun _ _ _ => h, fun he => absurd he hne⟩, fun s' hs =>
      ih (step_named h hne hs) fun e' he' => hes e' (List.mem_cons_of_mem _ he')⟩

/-- A settled state of an admitted run has every required line on disk. -/
theorem required_onDisk {db : Memory} {log : File} {temp : Option File}
    (hreach : Reachable (step env) (KeepsRequired env) (System.start db log temp) s)
    (hsettled : s.Settled) :
    ∀ line ∈ s.sent, line.Required env s.visited → OnDisk s.fs line := by
  intro line hline hreq
  have h : Durable env s :=
    hreach.inv (durable_start db log temp) fun _ _ _ h hok he => h.step hok he
  rcases h.kept line hline hreq with hc | hb | hdisk
  · rw [hsettled.channel] at hc
    exact absurd hc List.not_mem_nil
  · rw [hsettled.buffer] at hb
    exact absurd hb List.not_mem_nil
  · exact hdisk

end Invariant

section Instances

def emptySystem : System := System.start newDb ⟨[], []⟩ none

def readLoop : List Event := .startCompaction :: List.replicate shardCount (.readShard epochs)

/-- A `SET k v` after the loop, written by the writer, and a compaction that fails. -/
def setInTime : List Event :=
  readLoop ++ [.command ⟨plainCtx, .set [107] [118]⟩, .receive, .tick, .writeTemp false]

/-- The same write after the compaction. -/
def setTooLate : List Event :=
  readLoop ++ [.writeTemp true, .rename true, .command ⟨plainCtx, .set [107] [118]⟩,
    .receive, .tick]

theorem setInTime_runs : (run (step plainEnv) emptySystem setInTime).isSome := rfl

theorem setTooLate_runs : (run (step plainEnv) emptySystem setTooLate).isSome := rfl

theorem required_onDisk_setInTime :
    ∃ s, run (step plainEnv) emptySystem setInTime = some s ∧
      (∃ line ∈ s.sent, line.Required plainEnv s.visited) ∧
      ∀ line ∈ s.sent, line.Required plainEnv s.visited → OnDisk s.fs line := by
  refine ⟨_, (Option.some_get setInTime_runs).symm, ?_, ?_⟩
  · exact ⟨⟨.set [107] [118], 66⟩, List.mem_singleton_self _, [107], List.mem_singleton_self _,
      by decide +kernel⟩
  · refine required_onDisk (Reachable.init.run_ok setInTime (keepsRequired_of_named rfl ?_)
      (Option.some_get setInTime_runs).symm) ⟨rfl, rfl, rfl⟩
    intro e he
    rintro rfl
    simp [setInTime, readLoop] at he

/-- The write is in the file that has no name any more. -/
theorem required_line_lost : ¬ ∀ (env : Env) (db : Memory) (log : File) (temp : Option File)
    (s : System), Reachable (step env) anyStep (System.start db log temp) s → s.Settled →
    ∀ line ∈ s.sent, line.Required env s.visited → OnDisk s.fs line := by
  intro h
  obtain ⟨i, hdir, hline⟩ := h plainEnv newDb ⟨[], []⟩ none _
    (Reachable.init.run setTooLate (Option.some_get setTooLate_runs).symm) ⟨rfl, rfl, rfl⟩
    ⟨.set [107] [118], 68⟩ (List.mem_singleton_self _)
    ⟨[107], List.mem_singleton_self _, by decide +kernel⟩
  obtain rfl : 2 = i := Option.some.inj hdir
  exact List.not_mem_nil hline

end Instances

end TitanKv
