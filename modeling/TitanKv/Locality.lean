import Mathlib.Logic.Relation
import TitanKv.Sharding
import TitanKv.Torn

/-! # Commands without a common key

A command that names keys reads and writes the entries of those keys only, on
every path of its arm. Commands without a common key commute, and so do their
lines in a log. -/

namespace TitanKv
open Utf8 Local TwoPhase

section Live
variable (env : Env) (ctx ctx' : Ctx) {command command' : Command} {db db₁ db₂ : Memory}
  {a a' : Outcome}
  {logs logs' : List Command}

/-- The entry of a key in a shard. -/
abbrev entryOf (map : Shard) (key : Bytes) : Option Entry := map.lookup key

theorem not_isWhole_of_keyArgs (h : command.keyArgs ≠ []) : ¬ command.isWhole := by
  intro hwhole
  cases command with
  | dbSize | keys _ | info | scan _ _ => exact h rfl
  | _ => exact hwhole

/-- The footprint of a command is the keys it names. -/
theorem handle_footprint (h : command.keyArgs ≠ []) :
    Footprint (calculateShardIndex env) entryOf {key | key ∈ command.keyArgs}
      (handle env ctx command) :=
  ⟨handle env.flat ctx command, fun _ hR => matches_handle ctx (not_isWhole_of_keyArgs h) hR⟩

/-- A map with given entries at given keys. -/
theorem exists_entries (keys : List Bytes) (f : Bytes → Option Entry) :
    ∃ map : Shard, ∀ key ∈ keys, f key = entryOf map key := by
  induction keys with
  | nil => exact ⟨∅, fun key hkey => absurd hkey List.not_mem_nil⟩
  | cons k keys ih =>
    obtain ⟨map, hmap⟩ := ih
    cases hk : f k with
    | none =>
      refine ⟨map.erase k, fun key hkey => ?_⟩
      by_cases heq : key = k
      · rw [heq, hk, entryOf, AList.lookup_erase]
      · rw [hmap key (List.mem_of_ne_of_mem heq hkey), entryOf, entryOf, AList.lookup_erase_ne heq]
    | some entry =>
      refine ⟨map.insert k entry, fun key hkey => ?_⟩
      by_cases heq : key = k
      · rw [heq, hk, entryOf, AList.lookup_insert]
      · rw [hmap key (List.mem_of_ne_of_mem heq hkey), entryOf, entryOf, AList.lookup_insert_ne heq]

/-- Two commands without a common key, in the other order: the same replies and
log lines, and the same entries in every shard. -/
theorem handle_commute (h : command.keyArgs ≠ []) (h' : command'.keyArgs ≠ [])
    (hdisj : ∀ key ∈ command.keyArgs, key ∉ command'.keyArgs)
    (hrun : (handle env ctx command).run db = some (a, db₁, logs))
    (hrun' : (handle env ctx' command').run db₁ = some (a', db₂, logs')) :
    ∃ db₃ db₄, (handle env ctx' command').run db = some (a', db₃, logs') ∧
      (handle env ctx command).run db₃ = some (a, db₄, logs) ∧
      ∀ i key, (db₂ i).lookup key = (db₄ i).lookup key := by
  obtain ⟨flat, hflat⟩ := exists_entries (command.keyArgs ++ command'.keyArgs)
    fun key => entryOf (db (calculateShardIndex env key)) key
  exact (handle_footprint env ctx h).commute (handle_footprint env ctx' h') hdisj
    ⟨flat, fun key hkey => hflat key (List.mem_append.mpr hkey)⟩ hrun hrun'

end Live

section Lines
variable {A B : List Bytes} {body text : Text}

/-- Replay reads on after the lines, or has stopped in them. -/
theorem lineCommands_append (A : List Bytes) :
    (∀ B, lineCommands (A ++ B) = lineCommands A ++ lineCommands B) ∨
      ∀ B, lineCommands (A ++ B) = lineCommands A := by
  induction A with
  | nil => exact Or.inl fun _ => rfl
  | cons piece A ih =>
    cases hd : decode? piece with
    | none =>
      refine Or.inr fun B => ?_
      simp [lineCommands, hd]
    | some text =>
      rcases ih with ih | ih
      · refine Or.inl fun B => ?_
        simp [lineCommands, hd, ih]
      · refine Or.inr fun B => ?_
        simp [lineCommands, hd, ih]

/-- A line of text, terminated, at the start of a file. -/
theorem split_textLine (h : '\n' ∉ body) (rest : Bytes) :
    Lines.split 10 (encode (body ++ ['\n']) ++ rest) =
      encode (body ++ ['\n']) :: Lines.split 10 rest := by
  have hbody : (10 : UInt8) ∉ encode body :=
    fun hm => h (ascii_mem_encode (a := '\n') (by decide) hm)
  have hnl : encode (body ++ ['\n']) = encode body ++ [10] := by
    rw [encode_append]
    rfl
  rw [hnl, List.append_assoc, List.singleton_append, Lines.split_line hbody]

/-- The commands of the lines of a file; one line more is one command more. -/
theorem lineCommands_textLine (h : '\n' ∉ body) (rest : Bytes) :
    lineCommands (Lines.split 10 (encode (body ++ ['\n']) ++ rest)) =
      lineCommand (body ++ ['\n']) :: lineCommands (Lines.split 10 rest) := by
  rw [split_textLine h, lineCommands, decode?_encode]

/-- Two files that differ in two adjacent lines, of commands without a common key,
which are swapped. What is around them is arbitrary. -/
inductive SwapsLines : Bytes → Bytes → Prop
  | swap {before after : Bytes} {body body' : Text}
      (hbefore : before = [] ∨ before.getLast? = some 10)
      (hbody : '\n' ∉ body) (hbody' : '\n' ∉ body')
      (hdisj : ∀ key ∈ (lineCommand (body ++ ['\n'])).keyArgs,
        key ∉ (lineCommand (body' ++ ['\n'])).keyArgs) :
      SwapsLines (before ++ (encode (body ++ ['\n']) ++ (encode (body' ++ ['\n']) ++ after)))
        (before ++ (encode (body' ++ ['\n']) ++ (encode (body ++ ['\n']) ++ after)))

/-- The commands of the two files: the same, or two neighbours swapped. -/
theorem SwapsLines.aofCommands {file file' : Bytes} (h : SwapsLines file file') :
    aofCommands file = aofCommands file' ∨ ∃ xs c c' ys, (∀ key ∈ c.keyArgs, key ∉ c'.keyArgs) ∧
      aofCommands file = xs ++ c :: c' :: ys ∧ aofCommands file' = xs ++ c' :: c :: ys := by
  cases h with
  | @swap before after body body' hbefore hbody hbody' hdisj =>
    have hsplit : ∀ rest, Lines.split 10 (before ++ rest) =
        Lines.split 10 before ++ Lines.split 10 rest := by
      intro rest
      rcases hbefore with rfl | hlast
      · rfl
      · obtain ⟨init, rfl⟩ := List.getLast?_eq_some_iff.mp hlast
        rw [List.append_assoc, List.singleton_append, Lines.split_append_terminated]
    unfold TitanKv.aofCommands
    rw [hsplit, hsplit]
    rcases lineCommands_append (Lines.split 10 before) with happend | hstop
    · rw [happend, happend, lineCommands_textLine hbody, lineCommands_textLine hbody',
        lineCommands_textLine hbody', lineCommands_textLine hbody]
      exact Or.inr ⟨_, _, _, _, hdisj, rfl, rfl⟩
    · exact Or.inl (by rw [hstop, hstop])

end Lines

section Replay
variable (env : Env) {file file' : Bytes} {xs ys : List Command} {c c' : Command}

theorem applyAll_swap (h : ∀ key ∈ c.keyArgs, key ∉ c'.keyArgs) (ks : Keyspace) :
    Keyspace.applyAll (xs ++ c :: c' :: ys) ks = Keyspace.applyAll (xs ++ c' :: c :: ys) ks := by
  simp only [Keyspace.applyAll, applyAll_append, applyAll_cons]
  rw [Keyspace.apply_commute h]

/-- The deadlines of a list of commands fit at one reading if each does. -/
theorem fitsAll_const {now : SystemTime} {commands : List Command} {n : Nat} :
    FitsAll (fun _ => now) n commands ↔ ∀ c ∈ commands, Fits now c := by
  induction commands generalizing n with
  | nil => simp [FitsAll]
  | cons c commands ih => simp [FitsAll, ih]

theorem SwapsLines.same_keyspace (h : SwapsLines file file') :
    Keyspace.applyAll (TitanKv.aofCommands file) Keyspace.empty =
      Keyspace.applyAll (TitanKv.aofCommands file') Keyspace.empty := by
  rcases h.aofCommands with heq | ⟨xs, c, c', ys, hdisj, heq, heq'⟩
  · rw [heq]
  · rw [heq, heq']
    exact applyAll_swap hdisj _

theorem SwapsLines.mem_iff (h : SwapsLines file file') (c : Command) :
    c ∈ TitanKv.aofCommands file ↔ c ∈ TitanKv.aofCommands file' := by
  rcases h.aofCommands with heq | ⟨xs, c₁, c₂, ys, -, heq, heq'⟩
  · rw [heq]
  · rw [heq, heq', (List.Perm.append_left xs (List.Perm.swap c₂ c₁ ys)).mem_iff]

/-- Files that differ by swaps replay to one keyspace, at any clocks; at one clock
reading, one finishes exactly if the other does. -/
theorem replay_swapped (h : Relation.ReflTransGen SwapsLines file file') :
    (∀ clock clock' db db', replayAof env clock file = some db →
      replayAof env clock' file' = some db' →
      view env db = view env db') ∧
    ∀ now, (replayAof env (fun _ => now) file).isSome ↔
      (replayAof env (fun _ => now) file').isSome := by
  have hsame : Keyspace.applyAll (TitanKv.aofCommands file) Keyspace.empty =
      Keyspace.applyAll (TitanKv.aofCommands file') Keyspace.empty ∧
      ∀ c, c ∈ TitanKv.aofCommands file ↔ c ∈ TitanKv.aofCommands file' := by
    induction h with
    | refl => exact ⟨rfl, fun _ => Iff.rfl⟩
    | tail _ hswap ih =>
      exact ⟨ih.1.trans hswap.same_keyspace, fun c => (ih.2 c).trans (hswap.mem_iff c)⟩
  obtain ⟨hkeyspace, hmem⟩ := hsame
  constructor
  · intro clock clock' db db' hreplay hreplay'
    rw [view_replayAll env hreplay, view_replayAll env hreplay', view_newDb, hkeyspace]
  · intro now
    simp only [replayAof, replayAll_isSome, fitsAll_const, hmem]

/-- Commands on disjoint keys commute: live, and as lines of a log. -/
theorem disjoint_commands_commute :
    (∀ (ctx ctx' : Ctx) (command command' : Command) (db db₁ db₂ : Memory) (a a' : Outcome)
        (logs logs' : List Command), command.keyArgs ≠ [] → command'.keyArgs ≠ [] →
      (∀ key ∈ command.keyArgs, key ∉ command'.keyArgs) →
      (handle env ctx command).run db = some (a, db₁, logs) →
      (handle env ctx' command').run db₁ = some (a', db₂, logs') →
      ∃ db₃ db₄, (handle env ctx' command').run db = some (a', db₃, logs') ∧
        (handle env ctx command).run db₃ = some (a, db₄, logs) ∧
        ∀ i key, (db₂ i).lookup key = (db₄ i).lookup key) ∧
    ∀ file file', Relation.ReflTransGen SwapsLines file file' →
      (∀ clock clock' db db', replayAof env clock file = some db →
        replayAof env clock' file' = some db' →
        view env db = view env db') ∧
      ∀ now, (replayAof env (fun _ => now) file).isSome ↔
        (replayAof env (fun _ => now) file').isSome :=
  ⟨fun ctx ctx' _ _ _ _ _ _ _ _ _ h h' hdisj hrun hrun' =>
    handle_commute env ctx ctx' h h' hdisj hrun hrun', fun _ _ h => replay_swapped env h⟩

/-- The lines of a push and an increment. -/
theorem swapsLines_push : SwapsLines (lit "LPUSH a x\nINCR b\n") (lit "INCR b\nLPUSH a x\n") := by
  have hpush : lit "LPUSH a x\nINCR b\n" =
      [] ++ (encode ("LPUSH a x".toList ++ ['\n']) ++
        (encode ("INCR b".toList ++ ['\n']) ++ [])) := by decide
  have hincr : lit "INCR b\nLPUSH a x\n" =
      [] ++ (encode ("INCR b".toList ++ ['\n']) ++
        (encode ("LPUSH a x".toList ++ ['\n']) ++ [])) := by decide
  rw [hpush, hincr]
  exact .swap (Or.inl rfl) (by decide) (by decide) (by decide)

theorem disjoint_commands_commute_push :
    (∃ db₂ db₃ db₄ : Memory, (handle plainEnv plainCtx (.incr [98])).run newDb =
        some (.reply (integerReply 1), db₃, [.incr [98]]) ∧
      (handle plainEnv plainCtx (.lPush [97] [120])).run db₃ =
        some (.reply (integerReply 1), db₄, [.lPush [97] [120]]) ∧
      ∀ i key, (db₂ i).lookup key = (db₄ i).lookup key) ∧
    ∀ now, (replayAof plainEnv (fun _ => now) (lit "LPUSH a x\nINCR b\n")).isSome ↔
      (replayAof plainEnv (fun _ => now) (lit "INCR b\nLPUSH a x\n")).isSome :=
  ⟨⟨_, (disjoint_commands_commute plainEnv).1 plainCtx plainCtx (.lPush [97] [120]) (.incr [98])
      newDb _ _ _ _ _ _ (by decide) (by decide) (by decide) rfl rfl⟩,
    ((disjoint_commands_commute plainEnv).2 _ _ (.single swapsLines_push)).2⟩

end Replay

end TitanKv
