import TitanKv.Codec

/-! # Logs of whole lines, and a log cut short

A log whose lines the codec takes is read back line by line, and its lines are
replayed as their commands. A crash in the middle of a batch leaves a byte prefix
of it: some of its lines, and perhaps a torn one. A torn line stays in the file,
and the next line is appended to it: no line that is appended then comes back as
the command it was, if its key is new. -/

namespace TitanKv
open Utf8 Local TwoPhase

section Codable

/-- A write command whose line the codec takes. -/
def Command.Codable (c : Command) : Prop :=
  c.Typed ∧ ∃ verb args, c.writes = some (verb, args) ∧ (∀ arg ∈ args, arg.Readable) ∧
    ∀ arg ∈ args.getLast?, ¬ arg.EndsInReturn

/-- The lines of a log, without their newlines. -/
def logBody (c : Command) : Text := (logLine c).dropLast

/-- The file that holds the lines of the first commands. -/
def logFile (commands : List Command) : Bytes := encode (commands.flatMap logLine)

namespace Command.Codable
variable {c : Command} (h : c.Codable)
include h

/-- What the module uses of a line. -/
theorem logLine_body : ∃ verb init last, c.writes = some (verb, init ++ [last]) ∧
    logBody c = lineText verb (init ++ [last]) ∧ logLine c = logBody c ++ ['\n'] ∧
    (∀ arg ∈ init ++ [last], arg.Readable) ∧ ¬ last.EndsInReturn := by
  obtain ⟨-, verb, args, hw, hargs, hlast⟩ := h
  obtain ⟨init, last, rfl, -⟩ := writes_shape hw
  have hline := logLine_eq hw
  have hbody : logBody c = lineText verb (init ++ [last]) := by
    rw [logBody, hline, List.dropLast_concat]
  exact ⟨verb, init, last, hw, hbody, by rw [hbody, hline], hargs, hlast last (by simp)⟩

theorem body_newline : '\n' ∉ logBody c := by
  obtain ⟨verb, init, last, -, hbody, -, hargs, -⟩ := h.logLine_body
  rw [hbody]
  exact newline_notMem_lineText fun arg ha => (hargs arg ha).newline

/-- The line reads back as the command. -/
theorem read (rest : Text) :
    aofCommands (encode (logLine c ++ rest)) = c.logged :: aofCommands (encode rest) := by
  obtain ⟨verb, init, last, hw, hbody, hline, hargs, hlast⟩ := h.logLine_body
  rw [hline, hbody, List.append_assoc, List.singleton_append, aofCommands_lineText verb hargs hlast,
    parseCommand_writes hw h.1]

end Command.Codable

variable {commands : List Command}

theorem flatMap_logLine (h : ∀ c ∈ commands, c.Codable) :
    commands.flatMap logLine = (commands.map logBody).flatMap (· ++ ['\n']) := by
  rw [List.flatMap_map]
  exact List.flatMap_congr fun c hc => (h c hc).logLine_body.elim fun _ ⟨_, _, _, _, hline, _⟩ =>
    hline

theorem aofCommands_log (h : ∀ c ∈ commands, c.Codable) (rest : Text) :
    aofCommands (encode (commands.flatMap logLine ++ rest)) =
      commands.map Command.logged ++ aofCommands (encode rest) := by
  induction commands with
  | nil => rfl
  | cons c commands ih =>
    rw [List.flatMap_cons, List.append_assoc, (h c (by simp)).read,
      ih fun c' hc' => h c' (List.mem_cons_of_mem _ hc')]
    rfl

/-- A text that begins a log is the lines of some first commands and a part of the next. -/
theorem prefix_log (h : ∀ c ∈ commands, c.Codable) {text : Text}
    (hp : text <+: commands.flatMap logLine) :
    ∃ m q, text = (commands.take m).flatMap logLine ++ q ∧ m ≤ commands.length ∧
      (q = [] ∨ ∃ c ∈ commands, q <+: logBody c) := by
  rw [flatMap_logLine h] at hp
  obtain ⟨m, q, rfl, hm, hq⟩ := Lines.prefix_lines hp
  refine ⟨m, q, ?_, by simpa using hm, hq.imp_right ?_⟩
  · rw [flatMap_logLine fun c hcm => h c (List.mem_of_mem_take hcm), List.map_take]
  · rintro ⟨l, hl, hpre⟩
    obtain ⟨c, hcm, rfl⟩ := List.mem_map.mp hl
    exact ⟨c, hcm, hpre⟩

end Codable

section PlainWords

def Arg.Alphanumeric : Arg → Prop
  | .bare b => ∃ t, b = encode t ∧ t ≠ [] ∧ ∀ c ∈ t, c.isAlphanum
  | .quoted b => ∃ t, b = encode t ∧ t ≠ [] ∧ ∀ c ∈ t, c.isAlphanum
  | .number _ => True

/-- A write command whose byte arguments are alphanumeric words. -/
def Command.PlainWords (c : Command) : Prop :=
  c.Typed ∧ ∃ verb args, c.writes = some (verb, args) ∧ ∀ arg ∈ args, arg.Alphanumeric

variable {arg : Arg}

theorem Arg.Alphanumeric.readable (h : arg.Alphanumeric) : arg.Readable := by
  cases arg with
  | bare b =>
    obtain ⟨t, rfl, hne, ht⟩ := h
    exact bare_of_plain hne fun c hc => isPlain_of_alphanum (ht c hc)
  | quoted b =>
    obtain ⟨t, rfl, hne, ht⟩ := h
    have hplain : ∀ c ∈ t, isPlain c := fun c hc => isPlain_of_alphanum (ht c hc)
    exact ⟨t, decode?_encode t, hne, notMem_of_plain hplain rfl, notMem_of_plain hplain rfl⟩
  | number z => trivial

theorem Arg.Alphanumeric.not_endsInReturn (h : arg.Alphanumeric) : ¬ arg.EndsInReturn := by
  cases arg with
  | bare b =>
    obtain ⟨t, rfl, -, ht⟩ := h
    rintro ⟨s, hs⟩
    rw [decode?_encode] at hs
    obtain rfl := Option.some.inj hs
    exact alphanum_ne (ht '\r' (by simp)) (by decide) rfl
  | quoted b => exact id
  | number z => exact id

namespace Command.PlainWords
variable {c : Command} (h : c.PlainWords)
include h

theorem codable : c.Codable := by
  obtain ⟨htyped, verb, args, hw, hargs⟩ := h
  exact ⟨htyped, verb, args, hw, fun arg ha => (hargs arg ha).readable, fun arg ha =>
    (hargs arg (List.mem_of_mem_getLast? ha)).not_endsInReturn⟩

/-- What the module uses of a plain command's line. -/
theorem logLine_body : ∃ verb init last, c.writes = some (verb, init ++ [last]) ∧
    logBody c = lineText verb (init ++ [last]) ∧ logLine c = logBody c ++ ['\n'] ∧
    ∀ arg ∈ init ++ [last], arg.Alphanumeric := by
  obtain ⟨verb, init, last, hw, hbody, hline, -⟩ := h.codable.logLine_body
  obtain ⟨-, verb', args, hw', hargs⟩ := h
  obtain ⟨rfl, rfl⟩ := Prod.mk.inj (Option.some.inj (hw'.symm.trans hw))
  exact ⟨verb', init, last, hw, hbody, hline, hargs⟩

end Command.PlainWords

variable {commands : List Command}

theorem codable_of_plain (h : ∀ c ∈ commands, c.PlainWords) : ∀ c ∈ commands, c.Codable :=
  fun c hc => (h c hc).codable

end PlainWords

section Meaning
variable (env : Env) {clock : Nat → SystemTime} {commands : List Command}

theorem apply_logged (c : Command) : Keyspace.apply c.logged = Keyspace.apply c := by
  cases c <;> rfl

theorem applyAll_logged (ks : Keyspace) :
    Keyspace.applyAll (commands.map Command.logged) ks = Keyspace.applyAll commands ks := by
  induction commands generalizing ks with
  | nil => rfl
  | cons c commands ih =>
    rw [List.map_cons, Keyspace.applyAll, applyAll_cons, applyAll_cons, apply_logged]
    exact ih _

theorem fitsAll_logged (n : Nat) :
    FitsAll clock n (commands.map Command.logged) ↔ FitsAll clock n commands := by
  induction commands generalizing n with
  | nil => rfl
  | cons c commands ih =>
    have hfits : Fits (clock n) c.logged ↔ Fits (clock n) c := by cases c <;> rfl
    simp [FitsAll, hfits, ih]

/-- Replay of commands whose deadlines fit ends in the keyspace they make. -/
theorem replayAll_runs {n : Nat} (db : Memory) (h : FitsAll clock n commands) :
    ∃ db', replayAll env clock n commands db = some db' ∧
      view env db' = Keyspace.applyAll commands (view env db) := by
  obtain ⟨db', hdb⟩ := Option.isSome_iff_exists.mp ((replayAll_isSome env n db).mpr h)
  exact ⟨db', hdb, view_replayAll env hdb⟩

end Meaning

section Joined

variable {n : Nat} {cur g : Text}

end Joined

section Cuts
variable (env : Env) (clock : Nat → SystemTime) {commands : List Command} {file : Bytes}

section Shape
variable (hc : ∀ c ∈ commands, c.PlainWords)
include hc

end Shape

theorem replayAof_logFile (hc : ∀ c ∈ commands, c.Codable) :
    replayAof env clock (logFile commands) =
      replayAll env clock 0 (commands.map Command.logged) newDb := by
  have hread : aofCommands (logFile commands) = commands.map Command.logged := by
    simpa [logFile, aofCommands, lineCommands] using aofCommands_log hc []
  rw [replayAof, hread]

/-- What a replay of whole lines makes is what their commands make. -/
theorem view_replayAof {db : Memory} (hc : ∀ c ∈ commands, c.Codable)
    (h : replayAof env clock (logFile commands) = some db) :
    view env db = Keyspace.applyAll commands Keyspace.empty := by
  rw [replayAof_logFile env clock hc] at h
  rw [view_replayAll env h, applyAll_logged, view_newDb]

/-- Whole lines are replayed exactly if the deadlines of their commands fit. -/
theorem replayAof_isSome_iff (hc : ∀ c ∈ commands, c.Codable) :
    (∃ db, replayAof env clock (logFile commands) = some db) ↔ FitsAll clock 0 commands := by
  rw [← Option.isSome_iff_exists, replayAof_logFile env clock hc, replayAll_isSome, fitsAll_logged]

/-- Whole lines are replayed as their commands. -/
theorem replayAof_runs (hc : ∀ c ∈ commands, c.Codable) (hfit : FitsAll clock 0 commands) :
    ∃ db, replayAof env clock (logFile commands) = some db ∧
      view env db = Keyspace.applyAll commands Keyspace.empty := by
  obtain ⟨db, hdb⟩ := (replayAof_isSome_iff env clock hc).mpr hfit
  exact ⟨db, hdb, view_replayAof env clock hc hdb⟩

variable {env clock}

end Cuts

end TitanKv
