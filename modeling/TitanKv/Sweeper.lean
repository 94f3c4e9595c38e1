import TitanKv.Background

/-! # The sweeper's lines against the writer's buffer

Two producers write to one file. A client's line goes through the channel and
the writer's buffer; the sweeper appends its `DEL` lines to the file itself, and
after the sweep. Of every key that is not waiting for its `DEL`, the file and
the lines not flushed yet make what memory has. This lasts while each `DEL` is
appended at a moment at which the lines not flushed yet alone make what memory
has of its key. -/

namespace TitanKv
open Utf8 Local TwoPhase Files Runs

/-- A word of letters and digits. -/
def PlainWord (b : Bytes) : Prop := (Arg.bare b).Alphanumeric

/-- `SET`, `SETEX`, `GET` and `DEL` with plain words. -/
def Command.Plain : Command → Prop
  | .set key value => PlainWord key ∧ PlainWord value
  | .setEx key seconds value =>
    PlainWord key ∧ PlainWord value ∧ (-2 ^ 63 ≤ seconds ∧ seconds ≤ 2 ^ 63 - 1)
  | .get key | .del key => PlainWord key
  | _ => False

/-- The steps of these commands, the writer and the sweeper. -/
def Event.Sweeps : Event → Prop
  | .command request => request.command.Plain
  | .receive | .tick | .startSweep _ | .sweepShard | .openLog | .appendDel => True
  | _ => False

/-- The commands of the lines not in the file yet, in the order of the file. -/
def System.unflushed (s : System) : List Command := (s.buffer ++ s.channel).map Line.command

/-- A `DEL` is appended where the lines not flushed yet make of its key, from
none, what memory has. -/
structure DelInOrder (env : Env) (s : System) (e : Event) : Prop where
  kind : e.Sweeps
  order : e = .appendDel → ∀ file key keys, s.sweeper = .appending file (key :: keys) →
    Keyspace.applyAll s.unflushed Keyspace.empty key = view env s.db key

section Requests
variable {env : Env} {key : Bytes}

theorem del_plain (h : PlainWord key) : (Command.del key).PlainWords :=
  ⟨trivial, .del, _, rfl, List.forall_mem_singleton.mpr h⟩

theorem set_plain {value : Bytes} (hk : PlainWord key) (hv : PlainWord value) :
    (Command.set key value).PlainWords :=
  ⟨trivial, .set, _, rfl, List.forall_mem_cons.mpr ⟨hk, List.forall_mem_singleton.mpr hv⟩⟩

theorem setEx_plain {value : Bytes} {seconds : Int} (hk : PlainWord key) (hv : PlainWord value)
    (hs : -2 ^ 63 ≤ seconds ∧ seconds ≤ 2 ^ 63 - 1) :
    (Command.setEx key seconds value).PlainWords :=
  ⟨hs, .setEx, _, rfl, List.forall_mem_cons.mpr ⟨hk, List.forall_mem_cons.mpr
    ⟨trivial, List.forall_mem_singleton.mpr hv⟩⟩⟩

/-- The lines of an admitted request are plain and each about one key. -/
theorem plain_logs {request : Request} (h : request.command.Plain) {db db' : Memory} {a : Outcome}
    {logs : List Command} (hrun : (request.handle env).run db = some (a, db', logs)) :
    ∀ c ∈ logs, c.PlainWords ∧ c.SingleKey := by
  intro c hc
  obtain ⟨rfl, -⟩ := handle_logs hrun c hc
  obtain ⟨ctx, command⟩ := request
  cases command with
  | set key value => exact ⟨set_plain h.1 h.2, singleKey_of_eq rfl⟩
  | setEx key seconds value => exact ⟨setEx_plain h.1 h.2.1 h.2.2, singleKey_of_eq rfl⟩
  | get key => exact ⟨del_plain h, singleKey_of_eq rfl⟩
  | del key => exact ⟨del_plain h, singleKey_of_eq rfl⟩
  | _ => exact h.elim

/-- The keys of the shards after an admitted request. -/
theorem plain_keys {request : Request} (h : request.command.Plain) {db db' : Memory} {a : Outcome}
    {logs : List Command} (hrun : (request.handle env).run db = some (a, db', logs)) {i : Index}
    {k : Bytes} (hk : k ∈ db' i) : k ∈ db i ∨ PlainWord k ∧ calculateShardIndex env k = i := by
  obtain ⟨ctx, command⟩ := request
  have hwrites : ∀ {key : Bytes}, PlainWord key →
      WritesKey env key (handle env ctx command) (Logged key) →
      k ∈ db i ∨ PlainWord k ∧ calculateShardIndex env k = i := by
    intro key hkey hw
    rcases hw.keys hrun hk with hin | ⟨rfl, hi⟩
    · exact Or.inl hin
    · exact Or.inr ⟨hkey, hi⟩
  cases command with
  | set key value => exact hwrites h.1 (handleSet_writes env key value)
  | setEx key seconds value =>
    cases hd : ctx.now.addSecs (asU64 seconds) with
    | none =>
      have hpanic : (handleSetEx env ctx key seconds value).run db = some (a, db', logs) := hrun
      unfold handleSetEx at hpanic
      rw [hd] at hpanic
      obtain ⟨-, rfl, -⟩ := by simpa using hpanic
      exact Or.inl hk
    | some deadline => exact hwrites h.1 (handleSetEx_writes env ctx hd)
  | get key => exact hwrites h (handleGet_writes env ctx key)
  | del key => exact hwrites h (handleDel_writes env key)
  | _ => exact h.elim

theorem plain_view {request : Request} (h : request.command.Plain) {db db' : Memory} {a : Outcome}
    {logs : List Command} (hrun : (request.handle env).run db = some (a, db', logs)) :
    view env db' = Keyspace.applyAll logs (view env db) := by
  have htrim : request.command.isTrim = false := by
    obtain ⟨ctx, command⟩ := request
    cases command <;> first | rfl | exact h.elim
  obtain ⟨a', mem', logs', hrun', hview⟩ := request_agrees env htrim db
  rw [hrun] at hrun'
  obtain ⟨-, rfl, rfl⟩ := by simpa using hrun'
  exact hview

end Requests

section Sweep
variable {env : Env} {map : Shard} {keys : List Bytes} {k : Bytes}

theorem lookup_removeKeys (h : k ∉ keys) : (removeKeys keys map).lookup k = map.lookup k := by
  unfold removeKeys
  induction keys generalizing map with
  | nil => rfl
  | cons key keys ih =>
    obtain ⟨hne, hrest⟩ := not_or.mp (mt List.mem_cons.mpr h)
    rw [List.foldl_cons, ih hrest, AList.lookup_erase_ne hne]

theorem mem_of_mem_removeKeys (h : k ∈ removeKeys keys map) : k ∈ map := by
  unfold removeKeys at h
  induction keys generalizing map with
  | nil => exact h
  | cons key keys ih => exact (AList.mem_erase.mp (ih h)).2

/-- A swept shard differs at the expired keys only. -/
theorem view_sweep {db : Memory} {i : Index} (h : k ∉ keys) :
    view env (Function.update db i (removeKeys keys (db i))) k = view env db k := by
  unfold view Shard.items
  by_cases hi : calculateShardIndex env k = i
  · rw [hi, Function.update_self, lookup_removeKeys h]
  · rw [Function.update_of_ne hi]

theorem mem_of_mem_expiredKeys {now : SystemTime} (h : k ∈ expiredKeys now map) : k ∈ map :=
  AList.mem_keys.mpr (List.mem_filter.mp h).1

end Sweep

section Invariant
variable {env : Env} {log : Text} {start : Keyspace} {s s' : System}

/-- What every admitted step keeps, for a log that described `start` when the
tasks began. -/
structure Synced (env : Env) (log : Text) (start : Keyspace) (s : System) : Prop where
  named : s.fs.dir .aof = some s.handle
  opened : ∀ file keys, s.sweeper = .appending file keys → file = s.handle
  keys : ∀ i key, key ∈ s.db i → PlainWord key ∧ calculateShardIndex env key = i
  pending : ∀ key ∈ s.sweeper.pending, PlainWord key
  unflushed : ∀ c ∈ s.unflushed, c.PlainWords ∧ c.SingleKey
  written : ∃ written : List Command,
    (s.fs.content s.handle).text = log ++ written.flatMap logLine ∧
    (∀ c ∈ written, c.PlainWords) ∧
    ∀ key ∉ s.sweeper.pending,
      Keyspace.applyAll (written ++ s.unflushed) start key = view env s.db key

theorem File.append_text (file : File) (lines : List Line) :
    (file.append lines).text = file.text ++ (lines.map Line.command).flatMap logLine := by
  simp [File.text, File.append, linesLog, List.flatMap_map]

theorem Synced.command {request : Request} (h : Synced env log start s)
    (hplain : request.command.Plain) {a : Outcome} {db : Memory} {logs : List Command}
    (hrun : (request.handle env).run s.db = some (a, db, logs)) (time : Nat) :
    Synced env log start
      (System.send (logs.map fun command => ⟨command, time⟩) { s with db := db }) := by
  have hlogs := plain_logs hplain hrun
  have hunflushed :
      (System.send (logs.map fun command => ⟨command, time⟩) { s with db := db }).unflushed =
        s.unflushed ++ logs := by
    simp [System.unflushed, System.send, Function.comp_def]
  obtain ⟨written, htext, hwritten, hsync⟩ := h.written
  refine ⟨h.named, h.opened, fun i key hk => ?_, h.pending, ?_, written, htext, hwritten,
    fun key hkey => ?_⟩
  · rcases plain_keys hplain hrun hk with hin | hnew
    · exact h.keys i key hin
    · exact hnew
  · rw [hunflushed]
    exact List.forall_mem_append.mpr ⟨h.unflushed, hlogs⟩
  · rw [hunflushed, ← List.append_assoc, Keyspace.applyAll, applyAll_append]
    refine (applyAll_at (fun c hc => (hlogs c hc).2) (hsync key hkey)).trans ?_
    exact congrFun (plain_view hplain hrun).symm key

theorem Synced.collect {line : Line} {channel : List Line} (h : Synced env log start s)
    (hchannel : s.channel = line :: channel) : Synced env log start (s.collect line channel) := by
  have hunflushed : (s.collect line channel).unflushed = s.unflushed := by
    simp [System.unflushed, System.collect, hchannel]
  refine ⟨h.named, h.opened, h.keys, h.pending, ?_, ?_⟩
  · rw [hunflushed]
    exact h.unflushed
  · rw [hunflushed]
    exact h.written

theorem Synced.flush (h : Synced env log start s) : Synced env log start s.flush := by
  have hunflushed : s.unflushed = s.buffer.map Line.command ++ s.flush.unflushed := by
    simp [System.unflushed, System.flush]
  have hall := h.unflushed
  rw [hunflushed, List.forall_mem_append] at hall
  obtain ⟨written, htext, hwritten, hsync⟩ := h.written
  refine ⟨h.named, h.opened, h.keys, h.pending, hall.2, written ++ s.buffer.map Line.command,
    ?_, List.forall_mem_append.mpr ⟨hwritten, fun c hc => (hall.1 c hc).1⟩, fun key hkey => ?_⟩
  · show ((s.fs.modify s.handle (File.append s.buffer)).content s.handle).text = _
    rw [FileSystem.modify_content, File.append_text, htext, List.flatMap_append, List.append_assoc]
  · rw [List.append_assoc, ← hunflushed]
    exact hsync key hkey

theorem Synced.sweepShard {now : SystemTime} {swept : Nat} {keys : List Bytes} {i : Index}
    (h : Synced env log start s) (hsweeper : s.sweeper = .sweeping now swept keys) :
    Synced env log start { s with
      db := Function.update s.db i (removeKeys (expiredKeys now (s.db i)) (s.db i))
      sweeper := .sweeping now (swept + 1) (keys ++ expiredKeys now (s.db i)) } := by
  obtain ⟨written, htext, hwritten, hsync⟩ := h.written
  have hpending := h.pending
  rw [hsweeper] at hpending hsync
  refine ⟨h.named, fun _ _ heq => (by cases heq), fun j key hk => ?_, ?_, h.unflushed, written,
    htext, hwritten, fun key hkey => ?_⟩
  · change key ∈ Function.update s.db i _ j at hk
    by_cases hj : j = i
    · subst hj
      rw [Function.update_self] at hk
      exact h.keys j key (mem_of_mem_removeKeys hk)
    · rw [Function.update_of_ne hj] at hk
      exact h.keys j key hk
  · exact List.forall_mem_append.mpr ⟨hpending, fun key hkey =>
      (h.keys i key (mem_of_mem_expiredKeys hkey)).1⟩
  · obtain ⟨hold, hexpired⟩ := not_or.mp (mt List.mem_append.mpr hkey)
    exact (hsync key hold).trans (view_sweep hexpired).symm

theorem Synced.appendDel {key : Bytes} {keys : List Bytes} (h : Synced env log start s)
    (hsweeper : s.sweeper = .appending s.handle (key :: keys))
    (horder : Keyspace.applyAll s.unflushed Keyspace.empty key = view env s.db key) (time : Nat) :
    Synced env log start { s with
      fs := s.fs.modify s.handle (File.append [⟨.del key, time⟩])
      sweeper := .remaining s.handle keys } := by
  have hpending := h.pending
  obtain ⟨written, htext, hwritten, hsync⟩ := h.written
  rw [hsweeper] at hpending hsync
  obtain ⟨hkey, hkeys⟩ := List.forall_mem_cons.mp hpending
  have hremaining : (Sweeper.remaining s.handle keys).pending = keys := by cases keys <;> rfl
  refine ⟨h.named, fun file rest heq => ?_, h.keys, ?_, h.unflushed, written ++ [.del key], ?_,
    List.forall_mem_append.mpr ⟨hwritten, List.forall_mem_singleton.mpr (del_plain hkey)⟩, ?_⟩
  · cases keys with
    | nil => cases heq
    | cons _ _ => exact (Sweeper.appending.inj heq).1.symm
  · show ∀ k ∈ (Sweeper.remaining s.handle keys).pending, PlainWord k
    rwa [hremaining]
  · show ((s.fs.modify s.handle (File.append [⟨.del key, time⟩])).content s.handle).text = _
    rw [FileSystem.modify_content, File.append_text, htext, List.flatMap_append, List.append_assoc]
    rfl
  · intro k hk
    change k ∉ (Sweeper.remaining s.handle keys).pending at hk
    rw [hremaining] at hk
    have hsingle : ∀ c ∈ s.unflushed, c.SingleKey := fun c hc => (h.unflushed c hc).2
    show Keyspace.applyAll (written ++ [.del key] ++ s.unflushed) start k = view env s.db k
    rw [List.append_assoc, Keyspace.applyAll, applyAll_append, List.singleton_append, applyAll_cons]
    by_cases heq : k = key
    · subst heq
      exact (applyAll_at hsingle (onKey_self _ _ _)).trans horder
    · have hold := hsync k (mt List.mem_cons.mp (not_or.mpr ⟨heq, hk⟩))
      rw [Keyspace.applyAll, applyAll_append] at hold
      exact (applyAll_at hsingle (onKey_of_ne _ _ heq)).trans hold

theorem Synced.step {e : Event} (h : Synced env log start s) (hok : DelInOrder env s e)
    (he : step env s e = some s') : Synced env log start s' := by
  obtain ⟨t, ht, rfl⟩ := step_some he
  suffices h' : Synced env log start t from
    ⟨h'.named, h'.opened, h'.keys, h'.pending, h'.unflushed, h'.written⟩
  cases e with
  | command request =>
    obtain ⟨a, db, logs, hrun, ⟨hlate, -⟩ | ⟨-, rfl⟩⟩ := stepCommand_some ht
    · have hplain : request.command.Plain := hok.kind
      obtain ⟨ctx, command⟩ := request
      cases command <;> first | exact hplain.elim | cases hlate
    · exact h.command hok.kind hrun s.time
  | receive =>
    obtain ⟨line, channel, hchannel, rfl | ⟨-, rfl⟩⟩ := stepReceive_some ht
    · exact h.collect hchannel
    · exact (h.collect hchannel).flush
  | tick =>
    rcases stepTick_some ht with ⟨-, rfl⟩ | rfl
    · exact h
    · exact h.flush
  | startSweep now =>
    obtain ⟨hidle, rfl⟩ := stepStartSweep_some ht
    obtain ⟨written, htext, hwritten, hsync⟩ := h.written
    rw [hidle] at hsync
    exact ⟨h.named, fun _ _ heq => (by cases heq), h.keys, fun _ hk => absurd hk List.not_mem_nil,
      h.unflushed, written, htext, hwritten, hsync⟩
  | sweepShard =>
    obtain ⟨now, swept, keys, hlt, hsweeper, rfl⟩ := stepSweepShard_some ht
    exact h.sweepShard hsweeper
  | openLog =>
    obtain ⟨now, swept, keys, hsweeper, hcases⟩ := stepOpenLog_some ht
    have hpending := h.pending
    obtain ⟨written, htext, hwritten, hsync⟩ := h.written
    rw [hsweeper] at hpending hsync
    rcases hcases with ⟨rfl, rfl⟩ | rfl
    · exact ⟨h.named, fun _ _ heq => (by cases heq), h.keys, hpending, h.unflushed, written, htext,
        hwritten, hsync⟩
    · rw [FileSystem.openFile_of_some _ h.named]
      exact ⟨h.named, fun _ _ heq => (Sweeper.appending.inj heq).1.symm, h.keys, hpending,
        h.unflushed, written, htext, hwritten, hsync⟩
  | appendDel =>
    obtain ⟨file, key, keys, hsweeper, rfl⟩ := stepAppendDel_some ht
    obtain rfl := h.opened file _ hsweeper
    exact h.appendDel hsweeper (hok.order rfl _ key keys hsweeper) s.time
  | sendLate _ | startCompaction | readShard _ | writeTemp _ | rename _ => exact hok.kind.elim

/-- A text of whole lines. -/
def WholeLines (text : Text) : Prop := text = [] ∨ text.getLast? = some '\n'

theorem aofCommands_append {text : Text} (h : WholeLines text) (rest : Text) :
    aofCommands (encode (text ++ rest)) = aofCommands (encode text) ++
      aofCommands (encode rest) := by
  rcases h with rfl | h
  · rfl
  · obtain ⟨init, rfl⟩ := List.getLast?_eq_some_iff.mp h
    exact aofCommands_terminated init rest

theorem synced_start {db : Database env} {log : File} (temp : Option File)
    (hplain : ∀ i, ∀ key ∈ db.shards i, PlainWord key) :
    Synced env log.text (view env db.shards) (System.start db.shards log temp) where
  named := rfl
  opened _ _ h := by cases h
  keys i key hk := ⟨hplain i key hk, db.routed i key hk⟩
  pending _ h := absurd h List.not_mem_nil
  unflushed _ h := absurd h List.not_mem_nil
  written := ⟨[], by simp [System.start], by simp, fun _ _ => rfl⟩

/-- Where every `DEL` is appended in order, and nothing is under way, a replay of
the log gives what memory has. -/
theorem replay_of_sweeps {db : Database env} {log : File} {temp : Option File}
    (hwhole : WholeLines log.text)
    (hlog : view env db.shards = Keyspace.applyAll (aofCommands (encode log.text)) Keyspace.empty)
    (hplain : ∀ i, ∀ key ∈ db.shards i, PlainWord key)
    (hreach : Reachable (TitanKv.step env) (DelInOrder env) (System.start db.shards log temp) s)
    (hsweeper : s.sweeper = .idle) (hchannel : s.channel = []) (hbuffer : s.buffer = []) :
    ∃ i, s.fs.dir .aof = some i ∧ ∀ clock,
      FitsAll clock 0 (aofCommands (encode (s.fs.content i).text)) →
      ∃ R, replayAof env clock (encode (s.fs.content i).text) = some R ∧
        view env R = view env s.db := by
  have h : Synced env log.text (view env db.shards) s :=
    hreach.inv (synced_start temp hplain) fun _ _ _ h hok he => h.step hok he
  obtain ⟨written, htext, hwritten, hsync⟩ := h.written
  have hread : aofCommands (encode (s.fs.content s.handle).text) =
      aofCommands (encode log.text) ++ written.map Command.logged := by
    have hlines := aofCommands_log (codable_of_plain hwritten) []
    rw [List.append_nil] at hlines
    rw [htext, aofCommands_append hwhole, hlines]
    simp [aofCommands, lineCommands]
  refine ⟨s.handle, h.named, fun clock hfits => ?_⟩
  obtain ⟨R, hR, hview⟩ := replayAll_runs env newDb hfits
  refine ⟨R, hR, ?_⟩
  rw [hview, hread, Keyspace.applyAll, applyAll_append, view_newDb, ← Keyspace.applyAll, ← hlog,
    applyAll_logged]
  funext key
  have hkey := hsync key (by simp [hsweeper, Sweeper.pending])
  simpa [System.unflushed, hchannel, hbuffer] using hkey

end Invariant

section Instances

/-- One second after the epoch. -/
def oneSecond : SystemTime := ⟨10 ^ 9, by decide⟩

/-- `SETEX k 0 v`, which has expired a second later. -/
def setExpired : Event := .command ⟨plainCtx, .setEx [107] 0 [118]⟩

def sweepAll : List Event :=
  .startSweep oneSecond :: List.replicate shardCount .sweepShard ++ [.openLog]

/-- The line is in the file before the sweep. -/
def flushedFirst : List Event := [setExpired, .receive, .tick] ++ sweepAll

/-- The line is in the channel until the `DEL` is in the file. -/
def flushedLast : List Event := setExpired :: sweepAll ++ [.appendDel, .receive, .tick]

def freshStart : System := System.start newDb ⟨[], []⟩ none

theorem plainWord_k : PlainWord [107] := ⟨['k'], rfl, by simp, List.all_eq_true.mp rfl⟩

theorem plainWord_v : PlainWord [118] := ⟨['v'], rfl, by simp, List.all_eq_true.mp rfl⟩

theorem setExpired_sweeps : setExpired.Sweeps := ⟨plainWord_k, plainWord_v, by decide⟩

theorem sweepAll_sweeps {e : Event} (h : e ∈ sweepAll) : e.Sweeps ∧ e ≠ .appendDel := by
  simp only [sweepAll, List.cons_append, List.mem_cons, List.mem_append, List.mem_replicate,
    List.not_mem_nil, or_false] at h
  rcases h with rfl | ⟨-, rfl⟩ | rfl <;> exact ⟨trivial, by simp⟩

theorem flushedFirst_runs :
    (run (step plainEnv) freshStart (flushedFirst ++ [.appendDel])).isSome := by decide +kernel

theorem flushedFirst_opens : (run (step plainEnv) freshStart flushedFirst).isSome := by
  decide +kernel

theorem flushedFirst_inOrder :
    AllOk (step plainEnv) (DelInOrder plainEnv) freshStart (flushedFirst ++ [.appendDel]) := by
  refine AllOk.append.mpr ⟨.of_forall (fun e he s => ?_) _,
    fun s' hs => ⟨⟨trivial, ?_⟩, fun _ _ => trivial⟩⟩
  · have hkind : e.Sweeps ∧ e ≠ .appendDel := by
      rcases List.mem_append.mp he with he | he
      · simp only [List.mem_cons, List.not_mem_nil, or_false] at he
        rcases he with rfl | rfl | rfl
        · exact ⟨setExpired_sweeps, by simp [setExpired]⟩
        all_goals exact ⟨trivial, by simp⟩
      · exact sweepAll_sweeps he
    exact ⟨hkind.1, fun heq => absurd heq hkind.2⟩
  · intro _ file key keys hsweeper
    obtain rfl : (run (step plainEnv) freshStart flushedFirst).get flushedFirst_opens = s' :=
      Option.some.inj ((Option.some_get _).trans hs)
    obtain ⟨-, hkeys⟩ := Sweeper.appending.inj (hsweeper : Sweeper.appending 0 [[107]] = _)
    obtain rfl := (List.cons.inj hkeys).1
    rfl

theorem replay_of_sweeps_flushedFirst :
    ∃ s, run (step plainEnv) freshStart (flushedFirst ++ [.appendDel]) = some s ∧
      ∃ i, s.fs.dir .aof = some i ∧ ∀ clock,
        FitsAll clock 0 (aofCommands (encode (s.fs.content i).text)) →
        ∃ R, replayAof plainEnv clock (encode (s.fs.content i).text) = some R ∧
          view plainEnv R = view plainEnv s.db := by
  have hrun := (Option.some_get flushedFirst_runs).symm
  have hreach : Reachable (step plainEnv) (DelInOrder plainEnv)
      (System.start (emptyDatabase plainEnv).shards ⟨[], []⟩ none) _ :=
    Reachable.init.run_ok _ flushedFirst_inOrder hrun
  exact ⟨_, hrun,
    replay_of_sweeps (Or.inl rfl) rfl (fun _ key h => absurd h (AList.notMem_empty key))
    hreach rfl rfl rfl⟩

theorem flushedLast_runs : (run (step plainEnv) freshStart flushedLast).isSome := by decide +kernel

theorem flushedLast_sweeps : ∀ e ∈ flushedLast, e.Sweeps := by
  intro e he
  rcases List.mem_append.mp he with he | he
  · rcases List.mem_cons.mp he with rfl | he
    · exact setExpired_sweeps
    · exact (sweepAll_sweeps he).1
  · simp only [List.mem_cons, List.not_mem_nil, or_false] at he
    rcases he with rfl | rfl | rfl <;> trivial

/-- The expired key is back after a restart: its `DEL` is before its `SETEX`. -/
theorem del_overtakes : ¬ ∀ (env : Env) (db : Database env) (log : File) (temp : Option File)
    (s : System), WholeLines log.text →
    view env db.shards = Keyspace.applyAll (aofCommands (encode log.text)) Keyspace.empty →
    (∀ i, ∀ key ∈ db.shards i, PlainWord key) →
    Reachable (step env) (fun _ e => e.Sweeps) (System.start db.shards log temp) s →
    s.sweeper = .idle → s.channel = [] → s.buffer = [] →
    ∃ i, s.fs.dir .aof = some i ∧ ∀ clock,
      FitsAll clock 0 (aofCommands (encode (s.fs.content i).text)) →
      ∃ R, replayAof env clock (encode (s.fs.content i).text) = some R ∧
        view env R = view env s.db := by
  intro h
  obtain ⟨i, hdir, hreplay⟩ := h plainEnv (emptyDatabase plainEnv) ⟨[], []⟩ none _ (Or.inl rfl) rfl
    (fun _ key h => absurd h (AList.notMem_empty key))
    (Reachable.init.run_ok flushedLast (.of_forall (fun e he _ => flushedLast_sweeps e he) _)
      (Option.some_get flushedLast_runs).symm) rfl rfl rfl
  obtain rfl : 0 = i := Option.some.inj hdir
  have hread : aofCommands (encode ((((run (step plainEnv) freshStart flushedLast).get
      flushedLast_runs).fs.content 0).text)) = [.del [107], .setEx [107] 0 [118]] := by
        decide +kernel
  obtain ⟨R, hR, hview⟩ := hreplay (fun _ => SystemTime.unixEpoch) (by
    rw [hread]
    exact ⟨trivial, rfl, trivial⟩)
  rw [replayAof, hread] at hR
  have hback : view plainEnv R [107] = some ⟨.string [118], true⟩ := by
    rw [view_replayAll plainEnv hR]
    rfl
  rw [hview] at hback
  cases hback

end Instances

end TitanKv
