import TitanKv.Agreement
import TitanKv.Torn

/-! # Data that comes back as commands

The log is text without escapes, so what a client stores can come back from it as
a command line. `Contained` says when the line of a command, and the lines that
newlines in its data make, create no key outside a given set. The replay of a run
of such lines creates, changes and deletes the keys of the run only. -/

namespace TitanKv
open Utf8 Local TwoPhase

section Creates

/-- The keys a command may create. -/
def Command.creates : Command → List Bytes
  | .set key _ | .setEx key _ _ | .incr key | .lPush key _ | .rPush key _ | .hSet key _ _
  | .sAdd key _ => [key]
  | .rPopLPush _ destination => [destination]
  | _ => []

variable {commands : List Command} {ks : Keyspace} {key : Bytes}

/-- A command that may not create an absent key leaves it absent. -/
theorem apply_absent {c : Command} (h : key ∉ c.creates) (hnone : ks key = none) :
    Keyspace.apply c ks key = none := by
  have hlist : ∀ {k : Bytes} {f : List Bytes → List Bytes},
      onKey (Item.onList f) k ks key = none := by
    intro k f
    by_cases hk : key = k
    · subst hk
      rw [onKey_self, hnone]
      rfl
    · rw [onKey_of_ne _ _ hk, hnone]
  cases c with
  | del k =>
    by_cases hk : key = k
    · subst hk
      exact onKey_self _ _ _
    · exact (onKey_of_ne _ _ hk).trans hnone
  | lPop k => exact hlist
  | rPop k => exact hlist
  | lRem k count value => exact hlist
  | rPopLPush source destination =>
    have hd : key ≠ destination := by simpa [Command.creates] using h
    show Keyspace.move source destination ks key = none
    unfold Keyspace.move
    cases Item.last? (ks source) with
    | none => exact hnone
    | some val => exact (onKey_of_ne _ _ hd).trans hlist
  | set k value | setEx k seconds value | incr k | lPush k value | rPush k value
  | hSet k field value | sAdd k member =>
    have hk : key ≠ k := by simpa [Command.creates] using h
    exact (onKey_of_ne _ _ hk).trans hnone
  | _ => exact hnone

theorem applyAll_absent (h : ∀ c ∈ commands, key ∉ c.creates) (hnone : ks key = none) :
    Keyspace.applyAll commands ks key = none := by
  induction commands generalizing ks with
  | nil => exact hnone
  | cons c commands ih =>
    exact ih (fun c' hc' => h c' (List.mem_cons_of_mem _ hc')) (apply_absent (h c (by simp)) hnone)

/-- The commands that create take their key first, and a move takes its two keys. -/
theorem creates_parseArgs {v : Option Verb} {rest : List Bytes}
    (h : key ∈ (parseArgs v rest).creates) :
    (v ∈ [some .set, some .setEx, some .incr, some .lPush, some .rPush, some .hSet, some .sAdd] ∧
      rest.head? = some key) ∨ (v = some .rPopLPush ∧ ∃ source, rest = [source, key]) := by
  have hparsed := parsedFrom_parseArgs v rest
  generalize parseArgs v rest = c at h hparsed
  cases c with
  | set | incr | lPush | rPush | hSet | sAdd =>
    obtain rfl := List.mem_singleton.mp h
    obtain ⟨rfl, rfl⟩ := hparsed
    exact Or.inl ⟨by simp, rfl⟩
  | setEx =>
    obtain rfl := List.mem_singleton.mp h
    obtain ⟨rfl, _, rfl, -⟩ := hparsed
    exact Or.inl ⟨by simp, rfl⟩
  | rPopLPush source =>
    obtain rfl := List.mem_singleton.mp h
    obtain ⟨rfl, rfl⟩ := hparsed
    exact Or.inr ⟨rfl, source, rfl⟩
  | _ => exact absurd h List.not_mem_nil

end Creates

section Pieces
variable {p u : Text}

theorem lineContent_extends (hr : p.getLast? ≠ some '\r') (u : Text) :
    ∃ u', lineContent (p ++ u ++ ['\n']) = p ++ u' := by
  rw [lineContent_terminated, stripLast]
  by_cases hu : u = []
  · subst hu
    exact ⟨[], by simp [hr]⟩
  · split
    · exact ⟨u.dropLast, by simp [List.dropLast_append_of_ne_nil hu]⟩
    · exact ⟨u, rfl⟩

/-- The first line of a text that starts with part of a line. -/
theorem first_line (hn : '\n' ∉ p) (hr : p.getLast? ≠ some '\r') (u : Text) :
    ∃ u' first rest, Lines.split '\n' (p ++ u ++ ['\n']) = first :: rest ∧
      lineContent first = p ++ u' := by
  obtain ⟨line, rest, hsplit⟩ := Lines.split_first u
  obtain ⟨u', hcontent⟩ := lineContent_extends hr line
  refine ⟨u', p ++ line ++ ['\n'], rest, ?_, hcontent⟩
  rw [List.append_assoc, Lines.split_prefix hn hsplit, List.append_assoc]

end Pieces

section LogLines
variable {keys : List Bytes} {c : Command} {verb : Verb} {args : List Arg}

/-- The key that ends the line of a command that may create it. -/
def Command.lastKey : Command → Option Bytes
  | .incr key | .rPopLPush _ key => some key
  | _ => none

/-- Where the lines of a command create no key but the given: its keys are words if
it may create one, and what follows a newline in its data creates none. -/
structure Contained (keys : List Bytes) (c : Command) : Prop where
  words : c.creates ≠ [] → ∀ key ∈ c.keyArgs, Arg.Bare key
  last : ∀ key ∈ c.lastKey, ¬ (Arg.bare key).EndsInReturn
  continued : ∀ piece ∈ (Lines.split '\n' (logLine c)).tail, ∀ key ∈ (lineCommand piece).creates,
    key ∈ keys

theorem newline_notMem_name (verb : Verb) : '\n' ∉ verb.name.toList :=
  notMem_of_plain (fun _ => isPlain_of_mem_name) rfl

theorem parse_name (verb : Verb) (t : Text) :
    parseCommand (tokenize (verb.name.toList ++ ' ' :: t)) =
      parseArgs (some verb) (tokenizeFrom [] false t) := by
  rw [tokenize_name, parseCommand, uppercase_name, Verb.of?_lit]

/-- The first line starts with the command's word. -/
theorem first_line_harmless (hw : c.writes = some (verb, args)) (hc : c.creates = []) :
    ∃ first rest, Lines.split '\n' (logLine c) = first :: rest ∧ (lineCommand first).creates =
      [] := by
  obtain ⟨u, hu⟩ : ∃ u, argsText args = ' ' :: u := by
    cases c <;> cases hw <;> exact ⟨_, rfl⟩
  have hn : '\n' ∉ verb.name.toList ++ [' '] := by simp [newline_notMem_name verb]
  obtain ⟨u', first, rest, hsplit, hcontent⟩ := first_line hn (by simp) u
  refine ⟨first, rest, ?_, ?_⟩
  · rw [logLine_eq hw, lineText, hu, ← hsplit]
    simp
  · rw [lineCommand, hcontent, List.append_assoc, List.singleton_append, parse_name]
    refine List.eq_nil_iff_forall_not_mem.mpr fun k hk => ?_
    rcases creates_parseArgs hk with ⟨hv, -⟩ | ⟨hv, -⟩
    · cases c <;> cases hw <;> simp [Command.creates] at hv hc
    · cases c <;> cases hw <;> simp [Command.creates] at hv hc

/-- The first line starts with the command's word and key. -/
theorem first_line_keyed {key : Bytes} {arg : Arg} {others : List Arg}
    (hw : c.writes = some (verb, .bare key :: arg :: others)) (hv : verb ≠ .rPopLPush)
    (hkey : Arg.Bare key) :
    ∃ first rest, Lines.split '\n' (logLine c) = first :: rest ∧
      ∀ k ∈ (lineCommand first).creates, k = key := by
  have hread : (Arg.bare key).Readable := hkey
  have hn : '\n' ∉ verb.name.toList ++ ' ' :: bytesToStr key ++ [' '] := by
    simp [newline_notMem_name verb, show '\n' ∉ bytesToStr key from hread.newline]
  have hr : (verb.name.toList ++ ' ' :: bytesToStr key ++ [' ']).getLast? ≠ some '\r' := by
    rw [List.getLast?_concat]
    decide
  obtain ⟨u', first, rest, hsplit, hcontent⟩ := first_line hn hr (arg.written ++ argsText others)
  refine ⟨first, rest, ?_, fun k hk => ?_⟩
  · rw [logLine_eq hw, ← hsplit]
    simp [lineText, argsText, Arg.written]
  · have hplain : tokenizeFrom [] false (bytesToStr key ++ ' ' :: u') =
        key :: tokenizeFrom [] false u' := by
      rw [tokenizeFrom_plain hread.sound, tokenizeFrom_space, List.nil_append,
        show flush (bytesToStr key) = [key] from hread.flush]
      rfl
    rw [lineCommand, hcontent, List.append_assoc, List.append_assoc, List.cons_append,
      List.singleton_append, parse_name, hplain] at hk
    rcases creates_parseArgs hk with ⟨-, hhead⟩ | ⟨hmove, -⟩
    · exact (Option.some.inj hhead).symm
    · exact absurd (Option.some.inj hmove) hv

/-- A readable line is one line, and reads as its command. -/
theorem first_line_readable {init : List Arg} {last : Arg}
    (hw : c.writes = some (verb, init ++ [last]))
    (ht : c.Typed) (hread : ∀ arg ∈ init ++ [last], arg.Readable) (hlast : ¬ last.EndsInReturn) :
    ∃ first rest, Lines.split '\n' (logLine c) = first :: rest ∧ lineCommand first = c.logged := by
  have hn : '\n' ∉ lineText verb (init ++ [last]) :=
    newline_notMem_lineText fun arg ha => (hread arg ha).newline
  refine ⟨_, _, by rw [logLine_eq hw]; exact Lines.split_line hn [], ?_⟩
  rw [lineCommand, lineContent_of_last (getLast?_lineText (hread last (by simp)) hlast),
    tokenize_readable hread, parseCommand_writes hw ht]

/-- The command's own line creates its own keys at most. -/
theorem Contained.first_line (h : Contained keys c) (hw : c.writes = some (verb, args)) :
    ∃ first rest, Lines.split '\n' (logLine c) = first :: rest ∧
      ∀ key ∈ (lineCommand first).creates, key ∈ c.keyArgs := by
  by_cases hc : c.creates = []
  · obtain ⟨first, rest, hsplit, hnil⟩ := first_line_harmless hw hc
    exact ⟨first, rest, hsplit, by simp [hnil]⟩
  · have hword := h.words hc
    have hkeyed : ∀ {verb : Verb} {key : Bytes} {arg : Arg} {others : List Arg},
        c.writes = some (verb, .bare key :: arg :: others) → c.keyArgs = [key] → verb ≠ .rPopLPush →
        ∃ first rest, Lines.split '\n' (logLine c) = first :: rest ∧
          ∀ k ∈ (lineCommand first).creates, k ∈ c.keyArgs := by
      intro verb key arg others hw hkeys hv
      obtain ⟨first, rest, hsplit, hfirst⟩ := first_line_keyed hw hv (hword key (by simp [hkeys]))
      exact ⟨first, rest, hsplit, fun k hk => by simp [hkeys, hfirst k hk]⟩
    cases c with
    | set key value | setEx key seconds value | lPush key value | rPush key value
    | hSet key field value | sAdd key member => exact hkeyed rfl rfl (by decide)
    | incr key =>
      obtain ⟨first, rest, hsplit, hfirst⟩ := first_line_readable
        (show (Command.incr key).writes = some (.incr, [] ++ [.bare key]) from rfl) trivial
        (List.forall_mem_singleton.mpr (hword key List.mem_cons_self)) (h.last key rfl)
      exact ⟨first, rest, hsplit,
        by simp [hfirst, Command.logged, Command.creates, Command.keyArgs]⟩
    | rPopLPush source destination =>
      have hread : ∀ arg ∈ [Arg.bare source] ++ [.bare destination], arg.Readable :=
        List.forall_mem_cons.mpr ⟨hword source (by simp [Command.keyArgs]),
          List.forall_mem_singleton.mpr (hword destination (by simp [Command.keyArgs]))⟩
      have hw : (Command.rPopLPush source destination).writes =
          some (.rPopLPush, [.bare source] ++ [.bare destination]) := rfl
      obtain ⟨first, rest, hsplit, hfirst⟩ :=
        first_line_readable hw trivial hread (h.last destination rfl)
      exact ⟨first, rest, hsplit,
        by simp [hfirst, Command.logged, Command.creates, Command.keyArgs]⟩
    | _ => exact absurd rfl hc

/-- Reading a contained line gives commands that create given keys only. -/
theorem Contained.creates (h : Contained keys c) (hw : c.writes = some (verb, args))
    (hkeys : ∀ key ∈ c.keyArgs, key ∈ keys) :
    ∀ c' ∈ aofCommands (encode (logLine c)), ∀ key ∈ c'.creates, key ∈ keys := by
  obtain ⟨first, rest, hsplit, hfirst⟩ := h.first_line hw
  have hrest := h.continued
  rw [hsplit] at hrest
  rw [aofCommands_encode, hsplit]
  intro c' hc'
  rcases List.mem_cons.mp hc' with rfl | hc'
  · exact fun key hkey => hkeys key (hfirst key hkey)
  · obtain ⟨piece, hpiece, rfl⟩ := List.mem_map.mp hc'
    exact hrest piece hpiece

end LogLines

section Runs
variable (env : Env) (clock : Nat → SystemTime) {requests : List Request} {db db' : Memory}
  {logs : List Command} {keys : List Bytes}

/-- The keys that occur in a run's commands. -/
def runKeys (requests : List Request) : List Bytes :=
  requests.flatMap fun request => request.command.keyArgs

/-- At every stage of the file's replay, only the given keys exist. -/
def Isolated (keys : List Bytes) (file : Bytes) : Prop :=
  ∀ n db', replayAll env clock 0 ((aofCommands file).take n) newDb = some db' →
    ∀ key, key ∉ keys → view env db' key = none

theorem writes_entry {command : Command} (h : ¬ command.reads) :
    ∃ verb args, command.entry.writes = some (verb, args) := by
  cases command <;> first | exact ⟨_, _, rfl⟩ | exact absurd trivial h

theorem keyArgs_entry_mem {request : Request} (hr : request ∈ requests) {key : Bytes}
    (h : key ∈ request.command.entry.keyArgs) : key ∈ runKeys requests :=
  List.mem_flatMap.mpr ⟨request, hr, by rwa [keyArgs_entry] at h⟩

theorem mem_aofCommands_logFile {c' : Command}
    (hw : ∀ c ∈ logs, ∃ verb args, c.writes = some (verb, args))
    (h : c' ∈ aofCommands (logFile logs)) :
    ∃ c ∈ logs, c' ∈ aofCommands (encode (logLine c)) := by
  induction logs with
  | nil => cases h
  | cons c logs ih =>
    obtain ⟨verb, args, hc⟩ := hw c (by simp)
    rw [logFile, List.flatMap_cons, logLine_eq hc, aofCommands_terminated, ← logLine_eq hc] at h
    rcases List.mem_append.mp h with h | h
    · exact ⟨c, by simp, h⟩
    · obtain ⟨c₁, hc₁, h₁⟩ := ih (fun c₁ hc₁ => hw c₁ (List.mem_cons_of_mem _ hc₁)) h
      exact ⟨c₁, List.mem_cons_of_mem _ hc₁, h₁⟩

/-- Replaying the log of a run whose lines are all contained touches the run's keys
and no others. -/
theorem replay_isolated (hrun : execute env requests newDb = some (db, logs))
    (h : ∀ c ∈ logs, Contained (runKeys requests) c) :
    Isolated env clock (runKeys requests) (logFile logs) := by
  intro n db' hreplay key hkey
  have hwrites : ∀ c ∈ logs, ∃ verb args, c.writes = some (verb, args) := fun c hc => by
    obtain ⟨request, -, rfl, hw⟩ := execute_logs hrun c hc
    exact writes_entry hw
  rw [view_replayAll env hreplay, view_newDb]
  refine applyAll_absent (fun c' hc' hcreates => ?_) rfl
  obtain ⟨c, hc, hread⟩ := mem_aofCommands_logFile hwrites (List.mem_of_mem_take hc')
  obtain ⟨verb, args, hw⟩ := hwrites c hc
  have hkeys : ∀ k ∈ c.keyArgs, k ∈ runKeys requests := fun k hk => by
    obtain ⟨request, hr, rfl, -⟩ := execute_logs hrun c hc
    exact keyArgs_entry_mem hr hk
  exact hkey ((h c hc).creates hw hkeys c' hread key hcreates)

/-- `SET k` with a value of two lines, the second no command. -/
def twoLines : List Request := [⟨plainCtx, .set [107] (lit "v\ny")⟩]

theorem twoLines_contained : Contained (runKeys twoLines) (.set [107] (lit "v\ny")) where
  words _ key hkey := by
    obtain rfl := List.mem_singleton.mp hkey
    exact ⟨['k'], rfl, by simp⟩
  last key hkey := by cases hkey
  continued piece hpiece := by
    have htail : (Lines.split '\n' (logLine (.set [107] (lit "v\ny")))).tail = [['y', '\n']] := by
      decide
    rw [htail] at hpiece
    obtain rfl := List.mem_singleton.mp hpiece
    have hread : lineCommand ['y', '\n'] = .unknown := by decide
    simp [hread, Command.creates]

theorem replay_isolated_twoLines :
    ∃ db logs, execute plainEnv twoLines newDb = some (db, logs) ∧
      Isolated plainEnv (fun _ => SystemTime.unixEpoch) (runKeys twoLines) (logFile logs) :=
  ⟨_, _, rfl, replay_isolated plainEnv _ rfl (List.forall_mem_singleton.mpr twoLines_contained)⟩

/-- `SET k` with a value whose second line is `SET x y`. -/
def injecting : List Request := [⟨plainCtx, .set [107] (lit "v\nSET x y")⟩]

/-- The value of one key brings another key back. -/
theorem not_isolated_injecting : ¬ ∀ db logs, execute plainEnv injecting newDb = some (db, logs) →
    Isolated plainEnv (fun _ => SystemTime.unixEpoch) (runKeys injecting) (logFile logs) := by
  intro h
  have hrun : ∃ db, execute plainEnv injecting newDb = some (db, [.set [107] (lit "v\nSET x y")]) :=
    ⟨_, rfl⟩
  obtain ⟨db, hrun⟩ := hrun
  have hread : (aofCommands (logFile [.set [107] (lit "v\nSET x y")])).take 2 =
      [.set [107] [118], .set [120] [121]] := by decide
  have hisolated := h db _ hrun 2
  rw [hread] at hisolated
  have hnone := hisolated _ rfl [120] (by decide)
  cases hnone

end Runs

end TitanKv
