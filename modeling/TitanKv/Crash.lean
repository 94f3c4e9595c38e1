import TitanKv.Durability
import TitanKv.Restarts
import TitanKv.Sweeper

/-! # Crashes

A crash leaves some part of the log file and of the batch that is being written, and the
next life replays it. Over runs with any number of crashes, at any moment and with any
part of the file left that ends with a line, each life starts from what an earlier moment
had in memory, and a crash that leaves the file whole loses the lines not in it and
nothing else.

The runs are those in which memory and log go together: each line is one the codec takes,
a trim keeps its list, no command logs while a line of `RPOPLPUSH` is unsent, no
compaction is completed (the writer's lines would go to the file it replaced) and no sweep
removes a key. The last two examples show runs in which a sweep or a line sent late leaves
a log of what memory never had. -/

namespace TitanKv
open Utf8 Local TwoPhase Files Runs

section Lives

/-- What the lines of the log are, if its last one is whole. -/
def logOf (commands : List Command) : Text := commands.flatMap logLine

/-- The log with the batch that is being written: a crash leaves a prefix of it. -/
def System.writing (s : System) : Text := s.logText ++ linesLog s.buffer

inductive CrashEvent where
  | step (e : Event)
  | crash (file : Text) (clock : Nat → SystemTime)

/-- After a crash the next life replays what is left of the log. -/
def crashStep (env : Env) (s : System) : CrashEvent → Option System
  | .step e => step env s e
  | .crash file clock =>
    if file <+: s.writing then
      (replayAof env clock (encode file)).map fun db => System.start db ⟨file, []⟩ s.tempFile
    else none

/-- Trims that keep their lists, lines that the codec takes and that are sent in their
order, crashes that leave whole lines, and neither a completed compaction nor a sweep that
removes a key. -/
def Undisturbed (env : Env) (s : System) : CrashEvent → Prop
  | .step (.command request) => TrimKeeps env s.db request.command ∧
    ∀ a db logs, (request.handle env).run s.db = some (a, db, logs) →
      ∀ c ∈ logs, c.Codable ∧ s.unsent = []
  | .step .sweepShard => ∀ now swept keys, s.sweeper = .sweeping now swept keys →
    ∀ hlt : swept < shardCount, expiredKeys now (s.db ⟨swept, hlt⟩) = []
  | .step (.rename isOk) => isOk = false
  | .crash file _ => WholeLines file
  | _ => True

/-- The commands whose lines are not in the file, in the order they get there. -/
def System.awaiting (s : System) : List Command :=
  (s.buffer ++ s.channel ++ s.unsent).map Line.command

/-- Each number of the commands makes what some moment of the run had. -/
def Moments (env : Env) (es : List CrashEvent) (commands : List Command) : Prop :=
  ∀ m ≤ commands.length, ∃ fs t, fs <+: es ∧ run (crashStep env) System.fresh fs = some t ∧
    view env t.db = Keyspace.applyAll (commands.take m) Keyspace.empty

/-- What the run keeps: the file holds lines the codec takes, and with the ones that wait to
be written they make what memory has. -/
structure Journaled (env : Env) (es : List CrashEvent) (s : System) : Prop where
  named : s.fs.dir .aof = some s.handle
  wellFormed : s.fs.WellFormed
  idle : s.sweeper.pending = []
  late : s.unsent.length ≤ 1
  written : ∃ written : List Command, (s.fs.content s.handle).text = logOf written ∧
    (∀ c ∈ written ++ s.awaiting, c.Codable) ∧
    view env s.db = Keyspace.applyAll (written ++ s.awaiting) Keyspace.empty ∧
    Moments env es (written ++ s.awaiting)

end Lives

section Moments
variable {env : Env} {es fs : List CrashEvent} {s s' : System} {commands : List Command}

theorem Moments.mono (h : Moments env es commands) (hes : es <+: fs) : Moments env fs commands := by
  intro m hm
  obtain ⟨gs, t, hgs, hrun, hview⟩ := h m hm
  exact ⟨gs, t, hgs.trans hes, hrun, hview⟩

theorem Moments.take (h : Moments env es commands) (k : Nat) :
    Moments env es (commands.take k) := by
  intro m hm
  rw [List.length_take] at hm
  obtain ⟨gs, t, hgs, hrun, hview⟩ := h m (hm.trans (Nat.min_le_right _ _))
  refine ⟨gs, t, hgs, hrun, ?_⟩
  rw [List.take_take, Nat.min_eq_left (hm.trans (Nat.min_le_left _ _))]
  exact hview

/-- One command more, which the run's last moment has executed. -/
theorem Moments.concat {c : Command} (h : Moments env es commands)
    (hrun : run (crashStep env) System.fresh es = some s)
    (hview : view env s.db = Keyspace.applyAll (commands ++ [c]) Keyspace.empty) :
    Moments env es (commands ++ [c]) := by
  intro m hm
  rw [List.length_append, List.length_singleton] at hm
  rcases Nat.lt_succ_iff_lt_or_eq.mp (Nat.lt_succ_of_le hm) with hlt | rfl
  · rw [List.take_append_of_le_length (Nat.le_of_lt_succ hlt)]
    exact h m (Nat.le_of_lt_succ hlt)
  · refine ⟨es, s, List.prefix_refl es, hrun, ?_⟩
    rw [hview, List.take_of_length_le (by simp)]

theorem moments_nil (env : Env) (es : List CrashEvent) : Moments env es [] := by
  intro m _
  refine ⟨[], System.fresh, List.nil_prefix, rfl, ?_⟩
  rw [List.take_nil]
  rfl

/-- A step that moves the lines on, and neither loses one nor changes the memory. -/
theorem Journaled.transfer (h : Journaled env es s) {t : System} {e : CrashEvent}
    (lines : List Line)
    (hdir : t.fs.dir .aof = some t.handle) (hfs : t.fs.WellFormed) (hidle : t.sweeper.pending = [])
    (hlate : t.unsent.length ≤ 1)
    (hdb : view env t.db = view env s.db)
    (htext : (t.fs.content t.handle).text = (s.fs.content s.handle).text ++ linesLog lines)
    (hlines : s.awaiting = lines.map Line.command ++ t.awaiting) : Journaled env (es ++ [e]) t := by
  obtain ⟨written, hfile, hcodable, hview, hmoments⟩ := h.written
  rw [hlines, ← List.append_assoc] at hcodable hview hmoments
  refine ⟨hdir, hfs, hidle, hlate, written ++ lines.map Line.command, ?_, hcodable, hdb.trans hview,
    hmoments.mono ⟨[e], rfl⟩⟩
  rw [htext, hfile, logOf, logOf, List.flatMap_append, List.flatMap_map]
  rfl

/-- A step that leaves the log and its lines as they are. -/
theorem Journaled.keep (h : Journaled env es s) {t : System} {e : CrashEvent}
    (hdir : t.fs.dir .aof = some t.handle)
    (hfs : t.fs.WellFormed) (hidle : t.sweeper.pending = []) (hlate : t.unsent.length ≤ 1)
    (hdb : view env t.db = view env s.db)
    (htext : (t.fs.content t.handle).text = (s.fs.content s.handle).text)
    (hlines : t.awaiting = s.awaiting) : Journaled env (es ++ [e]) t :=
  h.transfer [] hdir hfs hidle hlate hdb (htext.trans (List.append_nil _).symm)
    (by rw [hlines]; rfl)

/-- A command that is executed, and its line. -/
theorem Journaled.executed (h : Journaled env es s) {t : System} {e : CrashEvent} {c : Command}
    (hrun : run (crashStep env) System.fresh (es ++ [e]) = some t) (hfs : t.fs = s.fs)
    (hhandle : t.handle = s.handle) (hsweeper : t.sweeper = s.sweeper) (hlate : t.unsent.length ≤ 1)
    (hcodable : c.Codable) (hview : view env t.db = Keyspace.apply c (view env s.db))
    (hlines : t.awaiting = s.awaiting ++ [c]) :
    Journaled env (es ++ [e]) t := by
  obtain ⟨written, hfile, hwritten, hold, hmoments⟩ := h.written
  have hnew : view env t.db = Keyspace.applyAll (written ++ t.awaiting) Keyspace.empty := by
    rw [hlines, ← List.append_assoc, Keyspace.applyAll, applyAll_append, ← Keyspace.applyAll,
      ← hold, hview]
    rfl
  refine ⟨?_, hfs ▸ h.wellFormed, hsweeper ▸ h.idle, hlate, written, ?_, ?_, hnew, ?_⟩
  · rw [hfs, hhandle]
    exact h.named
  · rw [hfs, hhandle]
    exact hfile
  · rw [hlines, ← List.append_assoc]
    exact List.forall_mem_append.mpr ⟨hwritten, List.forall_mem_singleton.mpr hcodable⟩
  · rw [hlines, ← List.append_assoc] at hnew ⊢
    exact (hmoments.mono ⟨[e], rfl⟩).concat hrun hnew

end Moments

section Steps
variable {env : Env} {es : List CrashEvent} {s s' : System}

theorem awaiting_collect {line : Line} {channel : List Line} (h : s.channel = line :: channel) :
    (s.collect line channel).awaiting = s.awaiting := by
  simp [System.awaiting, System.collect, h]

theorem Journaled.flush (h : Journaled env es s) {t : System} {e : CrashEvent} (hfs : t.fs = s.fs)
    (hhandle : t.handle = s.handle)
    (hsweeper : t.sweeper = s.sweeper) (hunsent : t.unsent = s.unsent) (hdb : t.db = s.db)
    (hlines : t.awaiting = s.awaiting) :
    Journaled env (es ++ [e]) t.flush := by
  refine h.transfer t.buffer ?_ ?_ ?_ ?_ ?_ ?_ ?_
  · show t.fs.dir .aof = some t.handle
    rw [hfs, hhandle]
    exact h.named
  · exact (hfs ▸ h.wellFormed).modify _
  · show t.sweeper.pending = []
    rw [hsweeper]
    exact h.idle
  · show t.unsent.length ≤ 1
    rw [hunsent]
    exact h.late
  · show view env t.db = _
    rw [hdb]
  · show ((t.fs.modify t.handle (File.append t.buffer)).content t.handle).text = _
    rw [FileSystem.modify_content, hfs, hhandle]
    simp [File.text, File.append, linesLog]
  · rw [← hlines]
    simp [System.awaiting, System.flush]

theorem Journaled.command {request : Request} (h : Journaled env es s)
    (hok : Undisturbed env s (.step (.command request)))
    (hrun : run (crashStep env) System.fresh (es ++ [.step (.command request)]) = some s')
    (he : step env s (.command request) = some s') :
    Journaled env (es ++ [.step (.command request)]) s' := by
  obtain ⟨t, ht, rfl⟩ := step_some he
  obtain ⟨a, db, logs, hexec, hcases⟩ := stepCommand_some ht
  obtain ⟨htrim, hlines⟩ := hok
  have hview : view env db = Keyspace.applyAll logs (view env s.db) :=
    ((step_logged_iff env request.ctx hexec).mpr htrim).symm
  rcases handle_logs_one hexec with rfl | ⟨rfl, hwrites⟩
  · rcases hcases with ⟨-, rfl⟩ | ⟨-, rfl⟩
    · exact h.keep h.named h.wellFormed h.idle (by simpa using h.late) hview rfl
        (by simp [System.awaiting])
    · exact h.keep h.named h.wellFormed h.idle h.late hview rfl
        (by simp [System.awaiting, System.send])
  · obtain ⟨hcodable, hunsent⟩ := hlines a db _ hexec _ List.mem_cons_self
    rcases hcases with ⟨-, rfl⟩ | ⟨-, rfl⟩
    · exact h.executed hrun rfl rfl rfl (by simp [hunsent]) hcodable hview
        (by simp [System.awaiting])
    · exact h.executed hrun rfl rfl rfl h.late hcodable hview
        (by simp [System.awaiting, System.send, hunsent])

/-- A text of whole lines that begins a log is the log of its first commands. -/
theorem exists_take_of_wholeLines {commands : List Command} {file : Text}
    (hc : ∀ c ∈ commands, c.Codable) (hpre : file <+: logOf commands) (hwhole : WholeLines file) :
    ∃ m ≤ commands.length, file = logOf (commands.take m) := by
  obtain ⟨m, q, rfl, hm, hq⟩ := prefix_log hc hpre
  have hnil : q = [] := by
    by_contra hnil
    obtain ⟨c, hcm, hbody⟩ := hq.resolve_left hnil
    have hlast : q.getLast? = some '\n' := by
      rcases hwhole with hwhole | hwhole
      · exact absurd (List.append_eq_nil_iff.mp hwhole).2 hnil
      · rwa [List.getLast?_append_of_ne_nil _ hnil] at hwhole
    exact (hc c hcm).body_newline (hbody.subset (List.mem_of_getLast? hlast))
  exact ⟨m, hm, by rw [hnil, List.append_nil]; rfl⟩

theorem Journaled.step {e : Event} (h : Journaled env es s) (hok : Undisturbed env s (.step e))
    (hrun : run (crashStep env) System.fresh (es ++ [.step e]) = some s')
    (he : step env s e = some s') :
    Journaled env (es ++ [.step e]) s' := by
  by_cases hcommand : ∃ request, e = .command request
  · obtain ⟨request, rfl⟩ := hcommand
    exact h.command hok hrun he
  obtain ⟨t, ht, rfl⟩ := step_some he
  suffices h' : Journaled env (es ++ [.step e]) t from ⟨h'.named, h'.wellFormed, h'.idle, h'.late,
    h'.written⟩
  cases e with
  | command request => exact absurd ⟨request, rfl⟩ hcommand
  | sendLate n =>
    obtain ⟨line, hline, rfl⟩ := Option.map_eq_some_iff.mp ht
    have hone : s.unsent = [line] ∧ n = 0 := by
      have hlt := (List.getElem?_eq_some_iff.mp hline).1
      have hlen := h.late
      obtain ⟨l, hl⟩ := List.length_eq_one_iff.mp (show s.unsent.length = 1 by omega)
      have hn : n = 0 := by omega
      rw [hl, hn] at hline
      obtain rfl := Option.some.inj hline
      exact ⟨hl, hn⟩
    obtain ⟨hunsent, rfl⟩ := hone
    exact h.keep h.named h.wellFormed h.idle (by simp [System.send, hunsent]) rfl rfl
      (by simp [System.awaiting, System.send, hunsent])
  | receive =>
    obtain ⟨line, channel, hchannel, rfl | ⟨-, rfl⟩⟩ := stepReceive_some ht
    · exact h.keep h.named h.wellFormed h.idle h.late rfl rfl (awaiting_collect hchannel)
    · exact h.flush rfl rfl rfl rfl rfl (awaiting_collect hchannel)
  | tick =>
    rcases stepTick_some ht with ⟨-, rfl⟩ | rfl
    · exact h.keep h.named h.wellFormed h.idle h.late rfl rfl rfl
    · exact h.flush rfl rfl rfl rfl rfl rfl
  | startCompaction =>
    obtain ⟨-, rfl⟩ := stepStartCompaction_some ht
    exact h.keep h.named h.wellFormed h.idle h.late rfl rfl rfl
  | readShard now =>
    obtain ⟨reads, hlt, -, rfl⟩ := stepReadShard_some ht
    exact h.keep h.named h.wellFormed h.idle h.late rfl rfl rfl
  | writeTemp isOk =>
    obtain ⟨reads, -, rfl | rfl⟩ := stepWriteTemp_some ht
    · have hother : s.fs.dir .temp ≠ some s.handle := fun htemp => by
        cases h.wellFormed.injective .temp .aof s.handle htemp h.named
      refine h.keep ((FileSystem.replace_dir_of_ne _ (by decide)).trans h.named)
        (h.wellFormed.replace _) h.idle h.late rfl ?_ rfl
      exact congrArg File.text
        (FileSystem.replace_content_of_ne _ (h.wellFormed.allocated _ _ h.named) hother)
    · exact h.keep h.named h.wellFormed h.idle h.late rfl rfl rfl
  | rename isOk =>
    obtain ⟨-, ⟨rfl, -⟩ | ⟨-, rfl⟩⟩ := stepRename_some ht
    · cases hok
    · exact h.keep h.named h.wellFormed h.idle h.late rfl rfl rfl
  | startSweep now =>
    obtain ⟨-, rfl⟩ := stepStartSweep_some ht
    exact h.keep h.named h.wellFormed rfl h.late rfl rfl rfl
  | sweepShard =>
    obtain ⟨now, swept, keys, hlt, hsweeper, rfl⟩ := stepSweepShard_some ht
    have hnone := hok now swept keys hsweeper hlt
    have hkeys : keys = [] := by
      have hidle := h.idle
      rw [hsweeper] at hidle
      exact hidle
    refine h.keep h.named h.wellFormed ?_ h.late ?_ rfl rfl
    · show keys ++ expiredKeys now (s.db ⟨swept, hlt⟩) = []
      rw [hkeys, hnone]
      rfl
    · rw [hnone]
      exact congrArg (view env) (Function.update_eq_self _ _)
  | openLog =>
    obtain ⟨now, swept, keys, hsweeper, ⟨-, rfl⟩ | rfl⟩ := stepOpenLog_some ht
    · exact h.keep h.named h.wellFormed rfl h.late rfl rfl rfl
    · have hkeys : keys = [] := by
        have hidle := h.idle
        rw [hsweeper] at hidle
        exact hidle
      rw [FileSystem.openFile_of_some _ h.named]
      exact h.keep h.named h.wellFormed hkeys h.late rfl rfl rfl
  | appendDel =>
    obtain ⟨file, key, keys, hsweeper, -⟩ := stepAppendDel_some ht
    have hidle := h.idle
    rw [hsweeper] at hidle
    cases hidle

theorem Journaled.logText (h : Journaled env es s) : s.logText = (s.fs.content s.handle).text := by
  unfold System.logText
  rw [h.named]

/-- What a crash does to a journaled state. -/
theorem Journaled.crash (h : Journaled env es s) {file : Text} {clock : Nat → SystemTime}
    (hwhole : WholeLines file) (he : crashStep env s (.crash file clock) = some s') :
    ∃ written m, (s.fs.content s.handle).text = logOf written ∧ m ≤ (written ++ s.awaiting).length ∧
      s'.fs.dir .aof = some s'.handle ∧ (s'.fs.content s'.handle).text =
        logOf ((written ++ s.awaiting).take m) ∧
      file = logOf ((written ++ s.awaiting).take m) ∧ s'.awaiting = [] ∧
      view env s'.db = Keyspace.applyAll ((written ++ s.awaiting).take m) Keyspace.empty ∧
      (∀ c ∈ written ++ s.awaiting, c.Codable) ∧
      view env s.db = Keyspace.applyAll (written ++ s.awaiting) Keyspace.empty ∧
        Moments env es (written ++ s.awaiting) := by
  obtain ⟨hpre, he⟩ := Option.ite_none_right_eq_some.mp he
  obtain ⟨db, hreplay, rfl⟩ := Option.map_eq_some_iff.mp he
  obtain ⟨written, hfile, hcodable, hview, hmoments⟩ := h.written
  have hwriting : s.writing <+: logOf (written ++ s.awaiting) := by
    refine ⟨logOf ((s.channel ++ s.unsent).map Line.command), ?_⟩
    rw [System.writing, h.logText, hfile]
    simp [logOf, System.awaiting, linesLog, List.flatMap_map]
  obtain ⟨m, hm, rfl⟩ := exists_take_of_wholeLines hcodable (hpre.trans hwriting) hwhole
  refine ⟨written, m, hfile, hm, rfl, ?_, rfl, rfl, ?_, hcodable, hview, hmoments⟩
  · show logOf _ ++ linesLog [] = _
    exact List.append_nil _
  · exact view_replayAof env clock (fun c hc => hcodable c (List.mem_of_mem_take hc)) hreplay

end Steps

section Recovery
variable {env : Env} {es : List CrashEvent} {s s' : System}

theorem wellFormed_start (db : Memory) (log : File) (temp : Option File) :
    (System.start db log temp).fs.WellFormed :=
  (show Durable plainEnv (System.start db log temp) from durable_start db log temp).wellFormed

theorem journaled_fresh (env : Env) : Journaled env [] System.fresh where
  named := rfl
  wellFormed := wellFormed_start newDb ⟨[], []⟩ none
  idle := rfl
  late := Nat.zero_le 1
  written :=
    ⟨[], rfl, by simp [System.fresh, System.start, System.awaiting], rfl, moments_nil env []⟩

theorem journaled_run (hrun : run (crashStep env) System.fresh es = some s)
    (hok : AllOk (crashStep env) (Undisturbed env) System.fresh es) : Journaled env es s := by
  induction es using List.reverseRecOn generalizing s with
  | nil =>
    obtain rfl := Option.some.inj hrun
    exact journaled_fresh env
  | append_singleton es e ih =>
    have hwhole := hrun
    rw [run_append] at hrun
    obtain ⟨t, ht, hlast⟩ := Option.bind_eq_some_iff.mp hrun
    rw [run_cons, Option.bind_eq_some_iff] at hlast
    obtain ⟨t', he, hend⟩ := hlast
    obtain rfl := Option.some.inj hend
    obtain ⟨hes, hnext⟩ := AllOk.append.mp hok
    have h := ih ht hes
    have hokLast := (hnext t ht).1
    cases e with
    | step e => exact h.step hokLast hwhole he
    | crash file clock =>
      obtain ⟨written, m, -, hm, hdir, htext, -, hawaiting, hview, hcodable, -, hmoments⟩ :=
        h.crash hokLast he
      obtain ⟨-, he'⟩ := Option.ite_none_right_eq_some.mp he
      obtain ⟨db, -, rfl⟩ := Option.map_eq_some_iff.mp he'
      refine ⟨hdir, wellFormed_start db ⟨file, []⟩ t.tempFile, rfl, Nat.zero_le 1, _, htext,
        ?_, ?_, ?_⟩
      · rw [hawaiting, List.append_nil]
        exact fun c hc => hcodable c (List.mem_of_mem_take hc)
      · rw [hawaiting, List.append_nil]
        exact hview
      · rw [hawaiting, List.append_nil]
        exact (hmoments.take m).mono ⟨[.crash file clock], rfl⟩

/-- Of two logs the one that begins the other has no more commands. -/
theorem length_le_of_logOf_prefix {commands : List Command} {k m : Nat}
    (hc : ∀ c ∈ commands, c.Codable) (hk : k ≤ commands.length)
    (h : logOf (commands.take k) <+: logOf (commands.take m)) : k ≤ m := by
  by_contra hlt
  have hsplit : commands.take k = commands.take m ++ (commands.take k).drop m := by
    conv_lhs => rw [← List.take_append_drop m (commands.take k), List.take_take,
      Nat.min_eq_left (Nat.le_of_not_le hlt)]
  obtain ⟨c, rest, hdrop⟩ := List.exists_cons_of_ne_nil (l := (commands.take k).drop m) (by
    rw [Ne, List.drop_eq_nil_iff, List.length_take, Nat.min_eq_left hk]
    omega)
  have hcodable : c.Codable :=
    hc c (List.mem_of_mem_take
      (List.mem_of_mem_drop (show c ∈ (commands.take k).drop m by
        rw [hdrop]; exact List.mem_cons_self)))
  obtain ⟨_, _, _, _, _, hline, _⟩ := hcodable.logLine_body
  have hlen := h.length_le
  rw [hsplit, hdrop, logOf, logOf, List.flatMap_append, List.flatMap_cons, hline] at hlen
  simp only [List.length_append, List.length_singleton] at hlen
  omega

/-- A crash, at any moment and after any number of others: the next life starts from what
an earlier moment had in memory, and if the log is left whole, nothing is lost but lines
that were not in it. -/
theorem crash_recovers {file : Text} {clock : Nat → SystemTime}
    (hrun : run (crashStep env) System.fresh es = some s)
    (hok : AllOk (crashStep env) (Undisturbed env) System.fresh es) (hwhole : WholeLines file)
    (hcrash : crashStep env s (.crash file clock) = some s') :
    (∃ fs t, fs <+: es ∧ run (crashStep env) System.fresh fs = some t ∧
      view env s'.db = view env t.db) ∧
      (s.logText <+: file → ∃ k,
        view env s.db = Keyspace.applyAll (s.awaiting.drop k) (view env s'.db)) := by
  have h := journaled_run hrun hok
  obtain ⟨written, m, htext, hm, -, -, rfl, -, hview, hcodable, hnow, hmoments⟩ :=
    h.crash hwhole hcrash
  constructor
  · obtain ⟨fs, t, hfs, ht, hview'⟩ := hmoments m hm
    exact ⟨fs, t, hfs, ht, hview.trans hview'.symm⟩
  · intro hpre
    rw [h.logText, htext] at hpre
    have hlogged : (written ++ s.awaiting).take written.length = written := by simp
    have hle : written.length ≤ m :=
      length_le_of_logOf_prefix hcodable (by simp) (by rw [hlogged]; exact hpre)
    refine ⟨m - written.length, ?_⟩
    have hdrop : (written ++ s.awaiting).drop m = s.awaiting.drop (m - written.length) := by
      rw [List.drop_append, List.drop_eq_nil_of_le hle, List.nil_append]
    rw [hview, hnow, ← hdrop, Keyspace.applyAll, ← applyAll_append, List.take_append_drop]

theorem undisturbed_command {request : Request} (htrim : TrimKeeps env s.db request.command)
    (hline : ¬ request.command.reads → request.command.entry.Codable ∧ s.unsent = []) :
    Undisturbed env s (.step (.command request)) := by
  refine ⟨htrim, fun a db logs hrun c hc => ?_⟩
  obtain ⟨rfl, hwrites⟩ := handle_logs hrun c hc
  exact hline hwrites

end Recovery

section Instances

/-- A push, a trim that keeps it, a move whose line is sent behind a `LLEN`, and a `SET`
that is in the channel. -/
def moveUnwritten : List CrashEvent :=
  [.step (.command ⟨plainCtx, .rPush [107] [97]⟩), .step (.command ⟨plainCtx, .lTrim [107] 0 (-1)⟩),
    .step .receive, .step .receive, .step .tick,
      .step (.command ⟨plainCtx, .rPopLPush [107] [100]⟩),
    .step (.command ⟨plainCtx, .llen [107]⟩), .step (.sendLate 0), .step .receive,
    .step (.command ⟨plainCtx, .set (lit "user:1") [118]⟩)]

def trimmedLines : Text := "RPUSH k \"a\"\nLTRIM k 0 -1\n".toList

theorem bare_word {t : Text} (hne : t ≠ []) (h : t.all isPlain = true) :
    (Arg.bare (encode t)).Readable :=
  bare_of_plain hne (List.all_eq_true.mp h)

theorem moveUnwritten_ok :
    AllOk (crashStep plainEnv) (Undisturbed plainEnv) System.fresh moveUnwritten := by
  have hk : (Arg.bare [107]).Readable := bare_word (t := ['k']) (by simp) rfl
  have hpush : (Command.rPush [107] [97]).Codable :=
    ⟨trivial, .rPush, _, rfl, List.forall_mem_cons.mpr ⟨hk, List.forall_mem_singleton.mpr
      ⟨['a'], by decide, by simp, by simp, by simp⟩⟩, by simp [Arg.EndsInReturn]⟩
  have htrim : (Command.lTrim [107] 0 (-1)).Codable :=
    ⟨⟨⟨by decide, by decide⟩, by decide, by decide⟩, .lTrim, _, rfl,
      List.forall_mem_cons.mpr ⟨hk, by simp [Arg.Readable]⟩, by simp [Arg.EndsInReturn]⟩
  have hreturn : ∀ c : Char, c ≠ '\r' → ¬ (Arg.bare (encode [c])).EndsInReturn := by
    rintro c hc ⟨t, ht⟩
    rw [decode?_encode, Option.some.injEq] at ht
    have hlast := congrArg List.getLast? ht
    rw [List.getLast?_concat] at hlast
    exact hc (Option.some.inj hlast)
  have hmove : (Command.rPopLPush [107] [100]).Codable :=
    ⟨trivial, .rPopLPush, _, rfl, List.forall_mem_cons.mpr ⟨hk, List.forall_mem_singleton.mpr
      (bare_word (t := ['d']) (by simp) rfl)⟩,
        fun arg h => Option.some.inj h ▸ hreturn 'd' (by decide)⟩
  have hset : (Command.set (lit "user:1") [118]).Codable :=
    ⟨trivial, .set, _, rfl,
      List.forall_mem_cons.mpr ⟨bare_word (t := "user:1".toList) (by decide) rfl,
      List.forall_mem_singleton.mpr (bare_word (t := ['v']) (by simp) rfl)⟩,
      fun arg h => Option.some.inj h ▸ hreturn 'v' (by decide)⟩
  refine ⟨undisturbed_command trivial fun _ => ⟨hpush, rfl⟩, fun s₁ h₁ => ?_⟩
  obtain rfl := Option.some.inj h₁
  refine ⟨undisturbed_command (fun list hlist => ?_) fun _ => ⟨htrim, rfl⟩, fun s₂ h₂ => ?_⟩
  · obtain rfl : [[97]] = list := DataType.list.inj (Option.some.inj hlist)
    exact (keepsAll_short (by decide) (by decide)).mpr (by decide)
  obtain rfl := Option.some.inj h₂
  refine ⟨trivial, fun s₃ h₃ => ⟨trivial, fun s₄ h₄ => ⟨trivial, fun s₅ h₅ => ?_⟩⟩⟩
  obtain rfl := Option.some.inj h₃
  obtain rfl := Option.some.inj h₄
  obtain rfl := Option.some.inj h₅
  refine ⟨undisturbed_command trivial fun _ => ⟨hmove, rfl⟩, fun s₆ h₆ => ?_⟩
  refine ⟨undisturbed_command trivial fun h => absurd trivial h, fun s₇ h₇ => ?_⟩
  refine ⟨trivial, fun s₈ h₈ => ⟨trivial, fun s₉ h₉ => ?_⟩⟩
  obtain rfl := Option.some.inj h₆
  obtain rfl := Option.some.inj h₇
  obtain rfl := Option.some.inj h₈
  obtain rfl := Option.some.inj h₉
  exact ⟨undisturbed_command trivial fun _ => ⟨hset, rfl⟩, fun _ _ => trivial⟩

theorem crash_recovers_move : ∃ s s', run (crashStep plainEnv) System.fresh moveUnwritten = some s ∧
    crashStep plainEnv s (.crash trimmedLines fun _ => SystemTime.unixEpoch) = some s' ∧
    (∃ fs t, fs <+: moveUnwritten ∧ run (crashStep plainEnv) System.fresh fs = some t ∧
      view plainEnv s'.db = view plainEnv t.db) ∧
    (s.logText <+: trimmedLines →
      ∃ k, view plainEnv s.db = Keyspace.applyAll (s.awaiting.drop k) (view plainEnv s'.db)) := by
  have hsome : (run (crashStep plainEnv) System.fresh
      (moveUnwritten ++ [.crash trimmedLines fun _ => SystemTime.unixEpoch])).isSome := by
        decide +kernel
  obtain ⟨s', hrun⟩ := Option.isSome_iff_exists.mp hsome
  rw [run_append] at hrun
  obtain ⟨s, hfirst, hlast⟩ := Option.bind_eq_some_iff.mp hrun
  rw [run_cons, Option.bind_eq_some_iff] at hlast
  obtain ⟨t, hcrash, hend⟩ := hlast
  obtain rfl := Option.some.inj hend
  exact ⟨s, t, hfirst, hcrash, crash_recovers hfirst moveUnwritten_ok (Or.inr (by decide)) hcrash⟩

def hasKey (key : Bytes) (db : Memory) : Bool :=
  (db (calculateShardIndex plainEnv key)).keys.contains key

/-- After these steps and a crash the next life passes a test that no step passed. -/
def NeverBefore (steps : List Event) (file : Text) (test : Memory → Bool) : Prop :=
  (∀ n ∈ List.range (steps.length + 1),
    (run (step plainEnv) System.fresh (steps.take n)).all fun s => !test s.db) ∧
  (run (crashStep plainEnv) System.fresh
    (steps.map .step ++ [.crash file fun _ => SystemTime.unixEpoch])).any fun s => test s.db

instance (steps : List Event) (file : Text) (test : Memory → Bool) :
    Decidable (NeverBefore steps file test) := inferInstanceAs (Decidable (_ ∧ _))

/-- A sweep has removed `k` when `x` is set, and its `DEL` is not in the file yet. -/
example : NeverBefore
    ([setExpired, .receive, .tick, .startSweep oneSecond] ++
      List.replicate shardCount .sweepShard ++
      [.command ⟨plainCtx, .set [120] [118]⟩, .receive, .tick])
    "SETEX k 0 v\nSET x v\n".toList (fun db => hasKey [107] db && hasKey [120] db) := by
  decide +kernel

/-- An element is in `d` when `x` is set, and the line of its move is not sent yet. -/
example : NeverBefore
    [.command ⟨plainCtx, .rPush [107] [97]⟩, .receive, .command ⟨plainCtx, .rPopLPush [107] [100]⟩,
      .command ⟨plainCtx, .set [120] [118]⟩, .receive, .tick]
    "RPUSH k \"a\"\nSET x v\n".toList (fun db => hasKey [120] db && !hasKey [100] db) := by
  decide +kernel

end Instances

end TitanKv
