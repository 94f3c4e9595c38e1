import TitanKv.Deadlines
import TitanKv.Sweeper
import TitanKv.SweepTiming

/-! # What a pass of the sweeper leaves behind

A pass reads the clock once and goes from shard to shard while clients write. A shard
that it has visited holds nothing that had expired at that reading, and so none does at
the end: only `SETEX` makes a deadline, and only one that read the clock before it had
its shard can make it too early. -/

namespace TitanKv
open TwoPhase Runs

section Edits
variable {env : Env} {ctx : Ctx} {command : Command} {map map' map'' : Shard} {key : Bytes}

/-- What an arm does to a map in one update, `SETEX` apart. -/
inductive Edited : Shard → Shard → Prop
  | change {map : Shard} (key : Bytes) (value : DataType) : Edited map (map.setValue key value)
  | add {map : Shard} (key : Bytes) (value : DataType) :
      Edited map (map.orInsertWith key ⟨value, none⟩)
  | put {map : Shard} (key : Bytes) (value : DataType) : Edited map (map.insert key ⟨value, none⟩)
  | take {map : Shard} (key : Bytes) : Edited map (map.erase key)

theorem edited_remove {i : Index} {α : Type} {f : Option Entry → Arm α}
    (h : ∀ removed, Updates Edited (f removed)) :
    Updates Edited (remove i key >>= f) :=
  fun _ => ⟨fun _ => .take key, h _⟩

theorem edited_growing {value : DataType} {f : Index → Shard → Arm Bytes}
    (h : ∀ i map, Updates Edited (f i map)) :
    Updates Edited (withWrite env key fun i =>
      Prog.modify i (·.orInsertWith key ⟨value, none⟩) >>= fun _ => Prog.get i >>= f i) :=
  updates_withWrite fun i => updates_modify (fun _ => .add key value) (updates_get (h i))

theorem edited_moveUnder (guard : MultiGuard) (source destination : Bytes) :
    Updates Edited (moveUnder guard source destination) := by
  refine Updates.bind (updates_get fun map => ?_) fun popped => ?_
  · split
    · split
      · exact updates_modify (fun _ => .change source _) trivial
      · trivial
    · trivial
  · cases popped with
    | none => exact updates_release trivial
    | some val =>
      refine Updates.bind (updates_modify (fun _ => .add destination _) (updates_get fun map => ?_))
        fun _ => updates_release trivial
      split
      · exact ⟨fun _ => .change destination _, trivial⟩
      · trivial

/-- The arms of the commands that write, but for `SETEX`. -/
theorem handle_edited (hset : ∀ key seconds value, command ≠ .setEx key seconds value)
    (hwrites : ¬ command.reads) :
    Updates Edited (handle env ctx command) := by
  cases command with
  | set key value => exact updates_withWrite fun i => updates_modify (fun _ => .put key _) trivial
  | setEx key seconds value => exact absurd rfl (hset key seconds value)
  | get key =>
    refine updates_withWrite fun i => updates_get fun map => ?_
    split
    · exact edited_remove fun removed => by cases removed <;> trivial
    · refine updates_get fun map => ?_
      split <;> trivial
  | del key =>
    exact updates_withWrite fun i => edited_remove fun removed => by cases removed <;> trivial
  | incr key =>
    refine updates_withWrite fun i => updates_get fun map => ?_
    split
    · trivial
    · exact updates_modify (fun _ => .put key _) trivial
  | lPush key value | rPush key value =>
    refine edited_growing fun i map => ?_
    split
    · exact updates_modify (fun _ => .change key _) trivial
    · trivial
  | lPop key =>
    refine updates_withWrite fun i => updates_get fun map => ?_
    split
    · exact updates_modify (fun _ => .change key _) trivial
    all_goals trivial
  | rPop key =>
    refine updates_withWrite fun i => updates_get fun map => ?_
    split
    · split
      · exact updates_modify (fun _ => .change key _) trivial
      · trivial
    all_goals trivial
  | lTrim key start stop =>
    refine updates_withWrite fun i => updates_get fun map => ?_
    split
    · dsimp only
      split
      · exact edited_remove fun _ => trivial
      · split
        · exact updates_modify (fun _ => .change key _) trivial
        · refine updates_modify (fun _ => .change key _)
            (updates_modify (fun _ => .change key _) ?_)
          split
          · exact edited_remove fun _ => trivial
          · trivial
    all_goals trivial
  | hSet key field value =>
    refine edited_growing fun i map => ?_
    split
    · exact updates_modify (fun _ => .change key _) trivial
    · trivial
  | sAdd key member =>
    refine edited_growing fun i map => ?_
    split
    · split
      · trivial
      · exact updates_modify (fun _ => .change key _) trivial
    · trivial
  | lRem key count value =>
    refine updates_withWrite fun i => updates_get fun map => ?_
    split
    · split
      · exact updates_modify (fun _ => .change key _) trivial
      · trivial
    · trivial
  | rPopLPush source destination =>
    show Updates Edited (handleRPopLPush env source destination)
    unfold handleRPopLPush writeMultiShards
    dsimp only
    split
    · exact edited_moveUnder _ source destination
    · split <;> exact edited_moveUnder _ source destination
  | _ => exact absurd trivial hwrites

/-- Each deadline in the map was there before. -/
def OldDeadlines (map map' : Shard) : Prop :=
  ∀ key deadline, deadlineOf map' key = some (some deadline) →
    deadlineOf map key = some (some deadline)

theorem OldDeadlines.trans (h : OldDeadlines map map') (h' : OldDeadlines map' map'') :
    OldDeadlines map map'' :=
  fun key deadline hd => h key deadline (h' key deadline hd)

theorem Edited.oldDeadlines (h : Edited map map') : OldDeadlines map map' := by
  intro k deadline hd
  cases h with
  | change key value => exact (deadlineOf_setValue k).symm.trans hd
  | take key => exact addsNoKeys_erase k _ hd
  | add key value =>
    unfold Shard.orInsertWith at hd
    split at hd
    · exact hd
    · by_cases hk : k = key
      · subst hk
        rw [deadlineOf, AList.lookup_insert] at hd
        cases hd
      · rwa [deadlineOf, AList.lookup_insert_ne hk] at hd
  | put key value =>
    by_cases hk : k = key
    · subst hk
      rw [deadlineOf, AList.lookup_insert] at hd
      cases hd
    · rwa [deadlineOf, AList.lookup_insert_ne hk] at hd

/-- A deadline after a command was there before it, or it is that of a `SETEX`. -/
theorem deadline_origin {db db' : Memory} {a : Outcome} {logs : List Command} {i : Index}
    {deadline : SystemTime}
    (hrun : (handle env ctx command).run db = some (a, db', logs))
    (h : deadlineOf (db' i) key = some (some deadline)) :
    deadlineOf (db i) key = some (some deadline) ∨
      ∃ seconds value, command = .setEx key seconds value ∧ i = calculateShardIndex env key ∧
        ctx.now.addSecs (asU64 seconds) = some deadline := by
  by_cases hset : ∃ k seconds value, command = .setEx k seconds value
  · obtain ⟨k, seconds, value, rfl⟩ := hset
    cases hd : ctx.now.addSecs (asU64 seconds) with
    | none =>
      rw [handle, handleSetEx, hd] at hrun
      obtain ⟨-, rfl, -⟩ := by simpa using hrun
      exact Or.inl h
    | some due =>
      rw [handleSetEx_run env db k value hd, Option.some.injEq, Prod.mk.injEq, Prod.mk.injEq]
        at hrun
      obtain ⟨-, rfl, -⟩ := hrun
      by_cases hat : i = calculateShardIndex env k
      · subst hat
        rw [onShard, Function.update_self] at h
        by_cases hk : key = k
        · subst hk
          rw [deadlineOf, AList.lookup_insert] at h
          obtain rfl := Option.some.inj (Option.some.inj h)
          exact Or.inr ⟨seconds, value, rfl, rfl, hd⟩
        · rw [deadlineOf, AList.lookup_insert_ne hk] at h
          exact Or.inl h
      · rw [onShard, Function.update_of_ne hat] at h
        exact Or.inl h
  · push Not at hset
    by_cases hreads : command.reads
    · obtain ⟨rfl, -⟩ := run_of_reads env ctx hreads hrun
      exact Or.inl h
    · have hold : Updates OldDeadlines (handle env ctx command) :=
        (handle_edited hset hreads).mono fun _ _ => Edited.oldDeadlines
      have hkept : OldDeadlines (db i) (db' i) :=
        Updates.run (R := OldDeadlines) (fun _ _ _ hd => hd) (fun _ _ _ => OldDeadlines.trans)
          hold hrun i
      exact Or.inl (hkept key deadline h)

end Edits

section Pass
variable {env : Env} {s s' : System} {e : Event}

/-- A shard that the pass under way has visited holds nothing that had expired when it
read the clock. -/
def VisitedClean (s : System) : Prop :=
  ∀ now swept keys, s.sweeper = .sweeping now swept keys → ∀ (i : Index) (key : Bytes),
    i.val < swept →
    isExpired now ((s.db i).lookup key) = false

/-- A `SETEX` into a shard visited already sets no deadline before the pass's reading. -/
def Timely (env : Env) (s : System) (e : Event) : Prop :=
  ∀ now swept keys, s.sweeper = .sweeping now swept keys → ∀ ctx key seconds value deadline,
    e = .command ⟨ctx, .setEx key seconds value⟩ → ctx.now.addSecs (asU64 seconds) = some deadline →
    (calculateShardIndex env key).val < swept → now ≤ deadline

theorem isExpired_false_iff {now : SystemTime} {map : Shard} {key : Bytes} :
    isExpired now (map.lookup key) = false ↔ ∀ deadline, deadlineOf map key = some (some deadline) →
      now ≤ deadline := by
  rw [← Bool.not_eq_true, isExpired_iff]
  constructor
  · intro h deadline hd
    obtain ⟨entry, hl, hexpires⟩ := Option.map_eq_some_iff.mp hd
    by_contra hlate
    exact h ⟨entry, deadline, hl, hexpires, Int.not_le.mp hlate⟩
  · rintro h ⟨entry, deadline, hl, hexpires, hlt⟩
    exact Int.not_lt.mpr (h deadline (by rw [deadlineOf, hl, Option.map_some, hexpires])) hlt

/-- Where a pass under way stood before the step. -/
theorem step_swept (he : step env s e = some s') {now : SystemTime} {swept : Nat}
    {keys : List Bytes} (h : s'.sweeper = .sweeping now swept keys) :
    swept = 0 ∨ (s.sweeper = .sweeping now swept keys ∧ e ≠ .sweepShard) ∨
      ∃ n before, ∃ hlt : n < shardCount, swept = n + 1 ∧ s.sweeper = .sweeping now n before ∧
        s'.db = visitShard now ⟨n, hlt⟩ s.db := by
  obtain ⟨t, ht, rfl⟩ := step_some he
  cases e with
  | command request =>
    obtain ⟨_, _, _, -, ⟨-, rfl⟩ | ⟨-, rfl⟩⟩ :=
      stepCommand_some ht <;> exact Or.inr (Or.inl ⟨h, nofun⟩)
  | sendLate n => obtain ⟨_, rfl⟩ := stepSendLate_some ht; exact Or.inr (Or.inl ⟨h, nofun⟩)
  | receive =>
    obtain ⟨_, _, -, rfl | ⟨-, rfl⟩⟩ := stepReceive_some ht <;> exact Or.inr (Or.inl ⟨h, nofun⟩)
  | tick => obtain ⟨-, rfl⟩ | rfl := stepTick_some ht <;> exact Or.inr (Or.inl ⟨h, nofun⟩)
  | startCompaction =>
    obtain ⟨-, rfl⟩ := stepStartCompaction_some ht; exact Or.inr (Or.inl ⟨h, nofun⟩)
  | readShard now =>
    obtain ⟨_, _, -, rfl⟩ := stepReadShard_some ht; exact Or.inr (Or.inl ⟨h, nofun⟩)
  | writeTemp isOk =>
    obtain ⟨_, -, rfl | rfl⟩ := stepWriteTemp_some ht <;> exact Or.inr (Or.inl ⟨h, nofun⟩)
  | rename isOk =>
    obtain ⟨-, ⟨-, rfl⟩ | ⟨-, rfl⟩⟩ := stepRename_some ht <;> exact Or.inr (Or.inl ⟨h, nofun⟩)
  | startSweep started =>
    obtain ⟨-, rfl⟩ := stepStartSweep_some ht
    obtain ⟨-, rfl, -⟩ := Sweeper.sweeping.inj h
    exact Or.inl rfl
  | sweepShard =>
    obtain ⟨_, n, before, hlt, hsweeper, rfl⟩ := stepSweepShard_some ht
    obtain ⟨rfl, rfl, -⟩ := Sweeper.sweeping.inj h
    exact Or.inr (Or.inr ⟨n, before, hlt, rfl, hsweeper, rfl⟩)
  | openLog => obtain ⟨_, _, _, -, ⟨-, rfl⟩ | rfl⟩ := stepOpenLog_some ht <;> cases h
  | appendDel =>
    obtain ⟨_, _, rest, -, rfl⟩ := stepAppendDel_some ht
    cases rest <;> cases h

/-- A command leaves the sweeper where it is. -/
theorem sweeper_command {request : Request} (he : step env s (.command request) = some s') :
    s'.sweeper = s.sweeper := by
  obtain ⟨t, ht, rfl⟩ := step_some he
  obtain ⟨_, _, _, -, ⟨-, rfl⟩ | ⟨-, rfl⟩⟩ := stepCommand_some ht <;> rfl

theorem visitedClean_iff (h : VisitedClean s) (he : step env s e = some s') :
    VisitedClean s' ↔ Timely env s e := by
  constructor
  · rintro hclean now swept keys hsweeper ctx key seconds value deadline rfl hd hvisited
    obtain ⟨a, logs, hrun⟩ := step_command_db he
    rw [Request.handle, handleSetEx_run env s.db key value hd, Option.some.injEq, Prod.mk.injEq,
      Prod.mk.injEq] at hrun
    refine isExpired_false_iff.mp
      (hclean now swept keys ((sweeper_command he).trans hsweeper) _ key hvisited) deadline ?_
    rw [← hrun.2.1, onShard, Function.update_self, deadlineOf, AList.lookup_insert]
    rfl
  · intro htimely now swept keys hsweeper i key hvisited
    rcases step_swept he hsweeper with rfl | ⟨hbefore, hne⟩ | ⟨n, before, hlt, rfl, hbefore, hdb⟩
    · exact absurd hvisited (Nat.not_lt_zero _)
    · obtain ⟨⟨ctx, command⟩, a, logs, rfl, hrun⟩ | ⟨_, _, _, _, hsweep, -⟩ | hdb := step_db he
      · refine isExpired_false_iff.mpr fun deadline hd => ?_
        rcases deadline_origin hrun hd with hold | ⟨seconds, value, rfl, rfl, hset⟩
        · exact isExpired_false_iff.mp (h now swept keys hbefore i key hvisited) deadline hold
        · exact htimely now swept keys hbefore ctx key seconds value deadline rfl hset hvisited
      · exact absurd hsweep hne
      · rw [hdb]
        exact h now swept keys hbefore i key hvisited
    · rw [hdb, lookup_visitShard]
      split
      · rfl
      · rename_i hkept
        by_cases hi : i = ⟨n, hlt⟩
        · exact Bool.eq_false_of_not_eq_true fun hexpired => hkept ⟨hi, hexpired⟩
        · have hlt' : i.val < n := by
            have hne : i.val ≠ n := fun heq => hi (Fin.ext heq)
            omega
          exact h now n before hbefore i key hlt'

/-- What a pass has visited stays clean in a run exactly if each `SETEX` of the run is
timely; so at its end no entry is left that had expired at its start. -/
theorem pass_clean_iff {db : Memory} {log : File} {temp : Option File} {es : List Event}
    (hrun : run (step env) (.start db log temp) es = some s) :
    (∀ fs, fs <+: es → ∀ t, run (step env) (.start db log temp) fs = some t → VisitedClean t) ↔
      AllOk (step env) (Timely env) (.start db log temp) es := by
  refine allOk_iff (fun _ _ _ (_ : True) _ => trivial) (fun _ _ _ _ h he => visitedClean_iff h he)
    trivial ?_ hrun
  intro now swept keys hsweeper
  cases hsweeper

/-- An entry that expires at once, and a second later a pass that has visited its shard. -/
def passBegun : List Event := [setExpired, .startSweep oneSecond, .sweepShard]

def passGoesOn (seconds : Int) : List Event :=
  .command ⟨plainCtx, .setEx [107] seconds [118]⟩ :: List.replicate 63 .sweepShard

/-- A key is set again behind the pass, by a client whose clock reads the epoch still: to
live for five seconds, or not at all. -/
theorem pass_clean_iff_setBehind :
    (∃ s, run (step plainEnv) (.start newDb ⟨[], []⟩ none) (passBegun ++ passGoesOn 5) = some s ∧
      VisitedClean s) ∧
    ∃ s, run (step plainEnv) (.start newDb ⟨[], []⟩ none) (passBegun ++ passGoesOn 0) = some s ∧
      ¬ ∀ fs, fs <+: passBegun ++ passGoesOn 0 →
        ∀ t, run (step plainEnv) (.start newDb ⟨[], []⟩ none) fs = some t → VisitedClean t := by
  have hsome : ∀ seconds ∈ ([5, 0] : List Int), (run (step plainEnv) (.start newDb ⟨[], []⟩ none)
      (passBegun ++ passGoesOn seconds)).isSome := by decide +kernel
  obtain ⟨u, keys, hu, hsweeper⟩ : ∃ u keys,
    run (step plainEnv) (.start newDb ⟨[], []⟩ none) passBegun = some u ∧
      u.sweeper = .sweeping oneSecond 1 keys := ⟨_, _, rfl, rfl⟩
  have hbegun : AllOk (step plainEnv) (Timely plainEnv) (.start newDb ⟨[], []⟩ none) passBegun := by
    refine ⟨?_, fun t _ => .of_forall (fun e he u => ?_) t⟩
    · intro now swept keys h
      cases h
    · rintro now swept keys - ctx key seconds value deadline rfl
      simp at he
  constructor
  · obtain ⟨s, hrun⟩ := Option.isSome_iff_exists.mp (hsome 5 (by simp))
    refine ⟨s, hrun,
      (pass_clean_iff hrun).mpr (AllOk.append.mpr ⟨hbegun, fun t ht => ⟨?_, fun t _ => ?_⟩⟩) _
      List.prefix_rfl s hrun⟩
    · obtain rfl := Option.some.inj (hu.symm.trans ht)
      intro now swept keys h ctx key seconds value deadline he hd _
      obtain ⟨rfl, -, -⟩ := by simpa [hsweeper] using h
      cases he
      obtain rfl := Option.some.inj hd
      decide
    · refine .of_forall (fun e he u => ?_) t
      rintro now swept keys - ctx key seconds value deadline rfl
      simp at he
  · obtain ⟨s, hrun⟩ := Option.isSome_iff_exists.mp (hsome 0 (by simp))
    refine ⟨s, hrun, fun hclean => ?_⟩
    have hok := (AllOk.append.mp ((pass_clean_iff hrun).mp hclean)).2 u hu
    have hle :=
      hok.1 oneSecond 1 keys hsweeper plainCtx [107] 0 [118] SystemTime.unixEpoch rfl rfl
        (by decide)
    exact absurd hle (by decide)

end Pass

end TitanKv
