import TitanKv.Isolation
import TitanKv.Sweeper

/-! # Booting from the log

Replay computes the deadlines of the log anew, from the clock of the start. It
finishes exactly if each of them can be represented: a deadline that just fitted
when its command was executed does not fit at a later start. -/

namespace TitanKv
open Utf8

section Fits
variable {clock : Nat → SystemTime} {commands : List Command}

/-- The additions of the `SETEX` lines do not overflow at their readings. -/
def DeadlinesFit (clock : Nat → SystemTime) (commands : List Command) : Prop :=
  ∀ n key seconds value, commands[n]? = some (.setEx key seconds value) →
    (clock n).nanos / 10 ^ 9 + asU64 seconds < 2 ^ 63

theorem fits_setEx {now : SystemTime} {key value : Bytes} {seconds : Int} :
    Fits now (.setEx key seconds value) ↔ now.nanos / 10 ^ 9 + asU64 seconds < 2 ^ 63 := by
  show (now.addSecs (asU64 seconds)).isSome ↔ _
  unfold SystemTime.addSecs
  split
  · rename_i hfits
    exact iff_of_true rfl hfits
  · rename_i hover
    exact iff_of_false (by simp) hover

theorem fitsAll_iff (n : Nat) : FitsAll clock n commands ↔ ∀ i key seconds value,
    commands[i]? = some (.setEx key seconds value) →
      (clock (n + i)).nanos / 10 ^ 9 + asU64 seconds < 2 ^ 63 := by
  induction commands generalizing n with
  | nil => simp [FitsAll]
  | cons c commands ih =>
    rw [FitsAll, ih]
    constructor
    · intro h i key seconds value hi
      cases i with
      | zero =>
        obtain rfl := Option.some.inj hi
        exact fits_setEx.mp h.1
      | succ i =>
        rw [← Nat.add_assoc, Nat.add_right_comm]
        exact h.2 i key seconds value hi
    · intro h
      refine ⟨?_, fun i key seconds value hi => ?_⟩
      · cases c with
        | setEx key seconds value => exact fits_setEx.mpr (h 0 key seconds value rfl)
        | _ => trivial
      · rw [Nat.add_right_comm, Nat.add_assoc]
        exact h (i + 1) key seconds value hi

/-- Replay of a file panics at a deadline that cannot be represented, and nowhere else. -/
theorem replayAof_isSome (env : Env) (file : Bytes) :
    (replayAof env clock file).isSome ↔ DeadlinesFit clock (aofCommands file) := by
  rw [replayAof, replayAll_isSome, fitsAll_iff]
  simp [DeadlinesFit]

end Fits

section Texts
variable {env : Env} {requests : List Request} {db db' : Memory} {logs : List Command}

/-- The commands of a logged line as they are read back: one, unless data in it
ends the line. -/
def readBack (c : Command) : List Command := aofCommands (encode (logLine c))

/-- The log of a run is read line by line. -/
theorem aofCommands_logFile (hrun : execute env requests db = some (db', logs)) :
    aofCommands (logFile logs) = logs.flatMap readBack := by
  have hwrites : ∀ c ∈ logs, ∃ verb args, c.writes = some (verb, args) := by
    intro c hc
    obtain ⟨request, -, rfl, hw⟩ := execute_logs hrun c hc
    exact writes_entry hw
  clear hrun
  induction logs with
  | nil => rfl
  | cons c logs ih =>
    obtain ⟨verb, args, hc⟩ := hwrites c List.mem_cons_self
    rw [logFile, List.flatMap_cons, List.flatMap_cons, logLine_eq hc, aofCommands_terminated,
      ← logLine_eq hc]
    congr 1
    exact ih fun c' hc' => hwrites c' (List.mem_cons_of_mem _ hc')

/-- The commands of the lines the compactor writes for an entry, as they are read back. -/
def readBackEntry (now : Bytes → SystemTime) (e : Σ _ : Bytes, Entry) : List Command :=
  aofCommands (encode (entryText (now e.1) e.1 e.2))

theorem linesText_terminated {lines : List (Verb × List Arg)} (h : lines ≠ []) :
    ∃ body, linesText lines = body ++ ['\n'] := by
  obtain ⟨init, last, rfl⟩ := List.eq_nil_or_concat lines |>.resolve_left h
  refine ⟨linesText init ++ lineText last.1 last.2, ?_⟩
  simp [linesText]

/-- The compacted text is read entry by entry. -/
theorem aofCommands_compactText (now : Bytes → SystemTime) (db : Memory) :
    aofCommands (encode (compactText now db)) = (allEntries db).flatMap (readBackEntry now) := by
  have hentries : compactText now db = (allEntries db).flatMap fun e =>
      entryText (now e.1) e.1 e.2 := by
    simp only [compactText, shardText, allEntries, List.flatMap_assoc]
  rw [hentries]
  induction allEntries db with
  | nil => rfl
  | cons e es ih =>
    rw [List.flatMap_cons, List.flatMap_cons, readBackEntry, ← ih]
    by_cases hlines : entryLines (now e.1) e.1 e.2 = []
    · rw [entryText_eq, hlines]
      rfl
    · obtain ⟨body, hbody⟩ := linesText_terminated hlines
      rw [entryText_eq, hbody, aofCommands_terminated]

/-- Exactly when a server boots from the log of a run and from the compacted text
of its final state: the additions of the `SETEX` lines of each do not overflow at
the clock of the start. -/
theorem boots_iff (env : Env) (now : Bytes → SystemTime) (clock : Nat → SystemTime)
    (hrun : execute env requests newDb = some (db, logs)) :
    ((replayAof env clock (logFile logs)).isSome ∧
        (replayAof env clock (encode (compactText now db))).isSome) ↔
      DeadlinesFit clock (logs.flatMap readBack) ∧
        DeadlinesFit clock ((allEntries db).flatMap (readBackEntry now)) := by
  rw [replayAof_isSome, replayAof_isSome, aofCommands_logFile hrun, aofCommands_compactText]

end Texts

section Overflow

/-- A key of the longest life. -/
def longest : List Request := [⟨plainCtx, .setEx [107] (2 ^ 63 - 1) [118]⟩]

theorem boots_iff_longest : ∃ db logs, execute plainEnv longest newDb = some (db, logs) ∧
    (((replayAof plainEnv epochs (logFile logs)).isSome ∧
        (replayAof plainEnv epochs (encode (compactText epochs db))).isSome) ↔
      DeadlinesFit epochs (logs.flatMap readBack) ∧
        DeadlinesFit epochs ((allEntries db).flatMap (readBackEntry epochs))) := by
  obtain ⟨db, logs, hrun⟩ : ∃ db logs, execute plainEnv longest newDb = some (db, logs) :=
    ⟨_, _, rfl⟩
  exact ⟨db, logs, hrun, boots_iff plainEnv epochs epochs hrun⟩

/-- Accepted at the epoch, the longest life panics a start one second later. -/
theorem boot_panics : ¬ ∀ (env : Env) (requests : List Request) (db : Memory) (logs : List Command)
    (now : Bytes → SystemTime) (clock : Nat → SystemTime),
    execute env requests newDb = some (db, logs) →
    (∀ request ∈ requests, Fits request.ctx.now request.command) →
    requests.Pairwise (fun r r' => r.ctx.now ≤ r'.ctx.now) →
    (∀ request ∈ requests, ∀ n, request.ctx.now ≤ clock n) → (∀ m n, m ≤ n → clock m ≤ clock n) →
    (replayAof env clock (logFile logs)).isSome ∧
      (replayAof env clock (encode (compactText now db))).isSome := by
  intro h
  obtain ⟨db, hrun⟩ : ∃ db, execute plainEnv longest newDb =
      some (db, [.setEx [107] (2 ^ 63 - 1) [118]]) := ⟨_, rfl⟩
  have hboot := (h plainEnv longest db _ epochs (fun _ => oneSecond) hrun
    (List.forall_mem_singleton.mpr rfl) (List.pairwise_singleton _ _)
    (List.forall_mem_singleton.mpr fun _ => by decide) fun _ _ _ => Int.le_refl _).1
  have hfits := (replayAof_isSome plainEnv _).mp hboot
  have hread : aofCommands (logFile [.setEx [107] (2 ^ 63 - 1) [118]]) =
      [.setEx [107] (2 ^ 63 - 1) [118]] := by decide
  rw [hread] at hfits
  exact absurd (hfits 0 _ _ _ rfl) (by decide)

end Overflow

end TitanKv
