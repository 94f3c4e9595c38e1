import TitanKv.Lib.Scan
import TitanKv.Durability
import TitanKv.Locks

/-! # The compactor's shard-by-shard snapshot

The compactor reads one shard at a time while commands and the sweeper change
others. Its text is the text of the database at one moment of the loop in every
run in which no step changes a shard still to be read, unless all shards read
before are then as they were read. -/

namespace TitanKv
open Utf8 Runs

/-- The reads of the loop under way. -/
def System.reads (s : System) : Option (List ShardRead) :=
  match s.compactor with
  | .reading reads => some reads
  | _ => none

def System.scan (s : System) : Option (List Shard) :=
  s.reads.map fun reads => reads.map ShardRead.map

/-- What the loop reads of a database that stands still. -/
def readAll (clock : Index → Bytes → SystemTime) (db : Memory) : List ShardRead :=
  List.ofFn fun i => ⟨db i, clock i⟩

/-- Its text is the compacted text, each deadline at the clock of its shard. -/
theorem readsText_readAll {env : Env} (clock : Index → Bytes → SystemTime) (db : Database env) :
    readsText (readAll clock db.shards) =
      compactText (fun key => clock (calculateShardIndex env key) key) db.shards := by
  simp only [readsText, readAll, compactText, List.ofFn_eq_map, List.flatMap_map]
  refine List.flatMap_congr fun i _ => List.flatMap_congr fun e he => ?_
  have hi : calculateShardIndex env e.1 = i := db.routed i e.1 (List.mem_map_of_mem he)
  simp only [hi]

section Loop
variable {env : Env} {s s' : System}

theorem step_advances {e : Event} (h : step env s e = some s') :
    Scan.Advances s.db s'.db s.scan s'.scan := by
  obtain ⟨t, ht, rfl⟩ := step_some h
  cases e with
  | readShard now =>
    obtain ⟨reads, hlt, hreading, rfl⟩ := stepReadShard_some ht
    have hscan : s.scan = some (reads.map ShardRead.map) := by
      simp [System.scan, System.reads, hreading]
    have hvisit : Scan.Advances s.db s.db s.scan (some (reads.map ShardRead.map ++
        [s.db ⟨(reads.map ShardRead.map).length, by simpa using hlt⟩])) := .visit _ hscan rfl
    simpa [System.scan, System.reads] using hvisit
  | startCompaction => obtain ⟨-, rfl⟩ := stepStartCompaction_some ht; exact .start
  | writeTemp isOk => obtain ⟨_, -, rfl | rfl⟩ := stepWriteTemp_some ht <;> exact .stop
  | rename isOk => obtain ⟨-, ⟨-, rfl⟩ | ⟨-, rfl⟩⟩ := stepRename_some ht <;> exact .stop
  | command request =>
    obtain ⟨_, _, _, -, ⟨-, rfl⟩ | ⟨-, rfl⟩⟩ := stepCommand_some ht <;> exact .keep
  | sendLate n => obtain ⟨_, rfl⟩ := stepSendLate_some ht; exact .keep
  | receive => obtain ⟨_, _, -, rfl | ⟨-, rfl⟩⟩ := stepReceive_some ht <;> exact .keep
  | tick => obtain ⟨-, rfl⟩ | rfl := stepTick_some ht <;> exact .keep
  | startSweep now => obtain ⟨-, rfl⟩ := stepStartSweep_some ht; exact .keep
  | sweepShard => obtain ⟨_, _, _, _, -, rfl⟩ := stepSweepShard_some ht; exact .keep
  | openLog => obtain ⟨_, _, _, -, ⟨-, rfl⟩ | rfl⟩ := stepOpenLog_some ht <;> exact .keep
  | appendDel => obtain ⟨_, _, _, -, rfl⟩ := stepAppendDel_some ht; exact .keep

/-- No step divides the reads of the loop. -/
def Undivided (env : Env) (s : System) (e : Event) : Prop :=
  Scan.Keeps System.db System.scan (step env) s e

/-- A complete list of reads with these maps. -/
theorem eq_readAll {reads : List ShardRead} {db : Memory}
    (h : reads.map ShardRead.map = List.ofFn db) : ∃ clock, reads = readAll clock db := by
  have hlen : reads.length = shardCount := by simpa using congrArg List.length h
  refine ⟨fun i => (reads.get (i.cast hlen.symm)).now,
    List.ext_getElem (by simp [readAll, hlen]) ?_⟩
  intro i hi _
  have hmap := congrArg (fun maps => maps[i]?) h
  have hmap : reads[i].map = db ⟨i, hlen ▸ hi⟩ := by simpa [hi, hlen ▸ hi] using hmap
  simp [readAll, ← hmap]

/-- The compacted text of an admitted run of the loop is the text of the database
at one moment of the run. -/
theorem snapshot_of_moment {s₀ : System} {es : List Event} {reads : List ShardRead}
    (hstart : s₀.compactor = .reading []) (hok : AllOk (step env) (Undivided env) s₀ es)
    (hrun : run (step env) s₀ es = some s) (hend : s.compactor = .reading reads)
    (hall : reads.length = shardCount) :
    ∃ es' t clock, es' <+: es ∧ run (step env) s₀ es' = some t ∧ reads = readAll clock t.db := by
  have hscan : s.scan = some (reads.map ShardRead.map) := by simp [System.scan, System.reads, hend]
  obtain ⟨es', t, hpre, hrun', hmem⟩ := Scan.moment_of_run System.db System.scan
    (fun _ _ _ => step_advances) (by simp [System.scan, System.reads, hstart]) hok hrun hscan
  have hmaps : reads.map ShardRead.map = List.ofFn (Scan.combined (reads.map ShardRead.map) s.db) :=
    Scan.reads_of_combined (by simpa using hall)
  rw [hmem] at hmaps
  obtain ⟨clock, hreads⟩ := eq_readAll hmaps
  exact ⟨es', t, clock, hpre, hrun', hreads⟩

end Loop

section Instances

theorem step_readShard {env : Env} {s s' : System} {now : Bytes → SystemTime}
    (h : step env s (.readShard now) = some s') :
    s'.db = s.db ∧ ∃ reads r, s.compactor = .reading reads ∧
      s'.compactor = .reading (reads ++ [r]) := by
  obtain ⟨t, ht, rfl⟩ := step_some h
  obtain ⟨reads, _, hreading, rfl⟩ := stepReadShard_some ht
  exact ⟨rfl, reads, _, hreading, rfl⟩

theorem undivided_readShard {env : Env} (s : System) (now : Bytes → SystemTime) :
    Undivided env s (.readShard now) := fun _ _ h _ =>
  Or.inl fun i _ => congrFun (step_readShard h).1 i

theorem run_readShard_db {env : Env} {s s' : System} {es : List Event}
    (hes : ∀ e ∈ es, e = .readShard epochs) (h : run (step env) s es = some s') : s'.db = s.db := by
  induction es generalizing s with
  | nil => obtain rfl := Option.some.inj h; rfl
  | cons e es ih =>
    obtain ⟨t, ht, hrest⟩ := Option.bind_eq_some_iff.mp h
    obtain rfl := hes e (by simp)
    exact (ih (fun e' he' => hes e' (List.mem_cons_of_mem _ he')) hrest).trans (step_readShard ht).1

/-- The loop has started on an empty database. -/
def quietLoop : System := { emptySystem with compactor := .reading [] }

/-- A `SET k v` after the first shard, which is the shard of `k`, was read. -/
def setBehind : List Event :=
  .readShard epochs :: .command ⟨plainCtx, .set [107] [118]⟩ ::
    List.replicate 63 (.readShard epochs)

theorem setBehind_runs : (run (step plainEnv) quietLoop setBehind).isSome := rfl

theorem setBehind_undivided : AllOk (step plainEnv) (Undivided plainEnv) quietLoop setBehind := by
  refine ⟨undivided_readShard _ _,
    fun s₁ h₁ => ⟨fun s₂ r h₂ hr => Or.inl fun i hi => ?_, fun s₂ _ => ?_⟩⟩
  · obtain ⟨-, reads, r₁, hreading, hread⟩ := step_readShard h₁
    obtain rfl : [] = reads := by simpa [quietLoop] using hreading
    obtain rfl : [r₁.map] = r := by simpa [System.scan, System.reads, hread] using hr
    have hdb : s₂.db = Function.update s₁.db (calculateShardIndex plainEnv [107]) _ :=
      congrArg System.db (Option.some.inj h₂).symm
    rw [hdb]
    refine Function.update_of_ne (fun h0 => ?_) _ _
    rw [h0] at hi
    exact Nat.not_succ_le_zero 0 hi
  · exact .of_forall (fun e he s => List.eq_of_mem_replicate he ▸ undivided_readShard s _) s₂

theorem snapshot_of_moment_setBehind :
    ∃ s reads es' t clock, run (step plainEnv) quietLoop setBehind = some s ∧
      s.compactor = .reading reads ∧ es' <+: setBehind ∧ run (step plainEnv) quietLoop es' =
        some t ∧
      reads = readAll clock t.db := by
  have hrun := (Option.some_get setBehind_runs).symm
  obtain ⟨es', t, clock, h⟩ := snapshot_of_moment rfl setBehind_undivided hrun rfl rfl
  exact ⟨_, _, es', t, clock, hrun, rfl, h⟩

/-- A list of one element under `b`, and the loop has started. -/
def queueLoop : List Event := [.command ⟨plainCtx, .rPush [98] [120]⟩, .startCompaction]

theorem queueLoop_runs : (run (step firstByteEnv) emptySystem queueLoop).isSome := rfl

/-- `RPOPLPUSH b a` after the shard of `a` was read and before the shard of `b` is. -/
def movedBehind : List Event :=
  List.replicate 34 (.readShard epochs) ++
    .command ⟨plainCtx, .rPopLPush [98] [97]⟩ :: List.replicate 30 (.readShard epochs)

def queueState : System := (run (step firstByteEnv) emptySystem queueLoop).get queueLoop_runs

theorem movedBehind_runs : (run (step firstByteEnv) queueState movedBehind).isSome := rfl

/-- A list that is not empty has lines in the text. -/
theorem list_of_readsText {clock : Index → Bytes → SystemTime} {db : Memory} {i : Index}
    {key : Bytes} {vals : List Bytes} (h : readsText (readAll clock db) = [])
    (hl : (db i).lookup key = some ⟨.list vals, none⟩) : vals = [] := by
  rw [readsText, List.flatMap_eq_nil_iff] at h
  have hshard := h ⟨db i, clock i⟩ (List.mem_ofFn.mpr ⟨i, rfl⟩)
  rw [shardText, List.flatMap_eq_nil_iff] at hshard
  have hentry := hshard _ (AList.mem_lookup_iff.mp hl)
  refine List.eq_nil_iff_forall_not_mem.mpr ?_
  simpa [entryText, formatLine, List.flatMap_eq_nil_iff] using hentry

/-- At every moment of the run the element is in one of the two lists. -/
theorem element_held {es : List Event} {t : System} (hpre : es <+: movedBehind)
    (hrun : run (step firstByteEnv) queueState es = some t) :
    (t.db (calculateShardIndex firstByteEnv [98])).lookup [98] = some ⟨.list [[120]], none⟩ ∨
      (t.db (calculateShardIndex firstByteEnv [97])).lookup [97] = some ⟨.list [[120]], none⟩ := by
  have hread : ∀ {m : Nat} {es : List Event}, es <+: List.replicate m (.readShard epochs) →
      ∀ e ∈ es, e = .readShard epochs := fun hes e he => List.eq_of_mem_replicate (hes.subset he)
  rcases Lines.prefix_append_cases hpre with hes | ⟨g, rfl, hg⟩
  · rw [run_readShard_db (hread hes) hrun]
    exact Or.inl rfl
  · rw [run_append, Option.bind_eq_some_iff] at hrun
    obtain ⟨s₁, h₁, hrun⟩ := hrun
    have hdb₁ := run_readShard_db (hread List.prefix_rfl) h₁
    rcases List.prefix_cons_iff.mp hg with rfl | ⟨es, rfl, hes⟩
    · obtain rfl := Option.some.inj hrun
      rw [hdb₁]
      exact Or.inl rfl
    · obtain ⟨s₂, h₂, hrest⟩ := Option.bind_eq_some_iff.mp hrun
      rw [run_readShard_db (hread hes) hrest]
      obtain ⟨u, hu, rfl⟩ := step_some h₂
      obtain ⟨a, db, logs, hmove, ⟨-, rfl⟩ | ⟨hlate, -⟩⟩ := stepCommand_some hu
      · right
        have hlookup :
            ((Request.handle firstByteEnv ⟨plainCtx, .rPopLPush [98] [97]⟩).run queueState.db).map
            (fun r => (r.2.1 (calculateShardIndex firstByteEnv [97])).lookup [97]) =
              some (some ⟨.list [[120]], none⟩) := rfl
        rw [← hdb₁, hmove] at hlookup
        exact Option.some.inj hlookup
      · cases hlate

theorem moved_element_lost : ¬ ∀ (env : Env) (s₀ s : System) (es : List Event)
    (reads : List ShardRead), Reachable (step env) anyStep emptySystem s₀ →
    s₀.compactor = .reading [] → run (step env) s₀ es = some s → s.compactor = .reading reads →
    reads.length = shardCount → ∃ es' t clock, es' <+: es ∧ run (step env) s₀ es' = some t ∧
      readsText reads = readsText (readAll clock t.db) := by
  intro h
  obtain ⟨es', t, clock, hpre, hrun, htext⟩ := h firstByteEnv queueState _ movedBehind _
    (Reachable.init.run queueLoop (Option.some_get queueLoop_runs).symm) rfl
    (Option.some_get movedBehind_runs).symm rfl rfl
  have hempty : readsText (readAll clock t.db) = [] := htext.symm.trans rfl
  rcases element_held hpre hrun with hheld | hheld
  · cases list_of_readsText hempty hheld
  · cases list_of_readsText hempty hheld

end Instances

end TitanKv
