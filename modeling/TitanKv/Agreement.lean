import TitanKv.Dispatch

/-! # Live execution and replay agree

`execute` runs requests one at a time through the dispatcher and collects the
logged commands. Replaying them from the empty database rebuilds the keyspace
the run left: the same keys, the same values, and deadlines on the same keys. -/

namespace TitanKv
open Local TwoPhase

/-- A command with the clock reading and client table it runs with. -/
structure Request where
  ctx : Ctx
  command : Command

/-- The replay has no arm for `LTRIM`. -/
def Command.isTrim : Command → Bool
  | .lTrim _ _ _ => true
  | _ => false

def Request.handle (env : Env) (request : Request) : Handler :=
  TitanKv.handle env request.ctx request.command

/-- Requests one at a time: the database they leave and the commands they log. -/
def execute (env : Env) : List Request → Memory → Option (Memory × List Command)
  | [], db => some (db, [])
  | request :: requests, db => ((request.handle env).run db).bind fun r =>
      (execute env requests r.2.1).map fun q => (q.1, r.2.2 ++ q.2)

section Lines
variable {env : Env} {ctx : Ctx} {key : Bytes} {i : Index} {α : Type} {n : Nat}

theorem sendsAtMost_get {f : Shard → Arm α} (h : ∀ map, SendsAtMost n (f map)) :
    SendsAtMost n (Prog.get i >>= f) :=
  fun map => h map

theorem sendsAtMost_modify {g : Shard → Shard} {f : Unit → Arm α} (h : SendsAtMost n (f ())) :
    SendsAtMost n (Prog.modify i g >>= f) := h

theorem sendsAtMost_remove {f : Option Entry → Arm α} (h : ∀ removed, SendsAtMost n (f removed)) :
    SendsAtMost n (remove i key >>= f) := fun _ => h _

theorem sendsAtMost_withWrite {arm : Index → Arm Bytes} (h : ∀ i, SendsAtMost n (arm i)) :
    SendsAtMost n (withWrite env key arm) := by
  have hdone : ∀ reply : Bytes, SendsAtMost 0
      (Prog.drop (calculateShardIndex env key) >>= fun _ => pure (Outcome.reply reply) : Handler) :=
        fun _ => trivial
  have hbind := SendsAtMost.bind (h (calculateShardIndex env key)) hdone
  rw [Nat.zero_add] at hbind
  exact hbind

theorem sendsAtMost_release {guard : MultiGuard} {f : Unit → Arm α} (h : SendsAtMost n (f ())) :
    SendsAtMost n (guard.release >>= f) := by
  cases guard with
  | single i => exact h
  | double i j => exact h

theorem sendsAtMost_writeMultiShards {keyA keyB : Bytes} {f : MultiGuard → Arm α}
    (h : ∀ guard, SendsAtMost n (f guard)) :
    SendsAtMost n (writeMultiShards env keyA keyB >>= f) := by
  unfold writeMultiShards
  dsimp only
  split
  · exact h _
  · split
    · exact h _
    · exact h _

theorem sendsAtMost_rPopLPush (source destination : Bytes) :
    SendsAtMost 1 (handleRPopLPush env source destination) := by
  refine sendsAtMost_writeMultiShards fun guard => ?_
  refine SendsAtMost.bind (m := 0) (n := 1) (sendsAtMost_get fun map => ?_) fun popped => ?_
  · split
    · split <;> trivial
    · trivial
  · cases popped with
    | none => exact sendsAtMost_release trivial
    | some val =>
      refine SendsAtMost.bind (m := 0) (n := 1) (sendsAtMost_modify (sendsAtMost_get fun map => ?_))
        fun _ => sendsAtMost_release trivial
      split <;> trivial

theorem sendsAtMost_lTrim (key : Bytes) (start stop : Int) :
    SendsAtMost 1 (handleLTrim env key start stop) := by
  refine sendsAtMost_withWrite fun i => sendsAtMost_get fun map => ?_
  split
  · dsimp only
    split
    · exact sendsAtMost_remove fun _ => trivial
    · split
      · trivial
      · show SendsAtMost _ (ite _ _ _)
        split
        · exact sendsAtMost_remove fun _ => trivial
        · trivial
  all_goals trivial

/-- An arm that may write sends at most one line. -/
theorem sendsAtMost_handle {command : Command} (h : ¬ command.reads) :
    SendsAtMost 1 (handle env ctx command) := by
  cases command with
  | set key value => exact sendsAtMost_withWrite fun i => trivial
  | setEx key seconds value =>
    show SendsAtMost 1 (handleSetEx env ctx key seconds value)
    unfold handleSetEx
    split
    · trivial
    · exact sendsAtMost_withWrite fun i => trivial
  | get key =>
    refine sendsAtMost_withWrite fun i => sendsAtMost_get fun map => ?_
    split
    · exact sendsAtMost_remove fun removed => by cases removed <;> trivial
    · refine sendsAtMost_get fun map => ?_
      split <;> trivial
  | del key =>
    exact sendsAtMost_withWrite fun i => sendsAtMost_remove fun removed =>
      by cases removed <;> trivial
  | incr key =>
    refine sendsAtMost_withWrite fun i => sendsAtMost_get fun map => ?_
    split <;> trivial
  | lPush key value | rPush key value | hSet key field value =>
    refine sendsAtMost_withWrite fun i => sendsAtMost_modify (sendsAtMost_get fun map => ?_)
    split <;> trivial
  | sAdd key member =>
    refine sendsAtMost_withWrite fun i => sendsAtMost_modify (sendsAtMost_get fun map => ?_)
    split
    · split <;> trivial
    · trivial
  | lPop key =>
    refine sendsAtMost_withWrite fun i => sendsAtMost_get fun map => ?_
    split <;> trivial
  | rPop key =>
    refine sendsAtMost_withWrite fun i => sendsAtMost_get fun map => ?_
    split
    · split <;> trivial
    all_goals trivial
  | lRem key count value =>
    refine sendsAtMost_withWrite fun i => sendsAtMost_get fun map => ?_
    split
    · split <;> trivial
    · trivial
  | lTrim key start stop => exact sendsAtMost_lTrim key start stop
  | rPopLPush source destination => exact sendsAtMost_rPopLPush source destination
  | _ => exact absurd trivial h

/-- A command logs its entry, once at most. -/
theorem handle_logs_one {command : Command} {mem mem' : Memory} {a : Outcome} {logs : List Command}
    (hrun : (handle env ctx command).run mem = some (a, mem', logs)) :
    logs = [] ∨ logs = [command.entry] ∧ ¬ command.reads := by
  by_cases hr : command.reads
  · exact Or.inl (run_of_reads env ctx hr hrun).2
  · have hlen := (sendsAtMost_handle hr).run hrun
    match logs, hlen with
    | [], _ => exact Or.inl rfl
    | [c], _ =>
      obtain ⟨rfl, -⟩ := handle_logs hrun c List.mem_cons_self
      exact Or.inr ⟨rfl, hr⟩

end Lines

variable (env : Env)

section Execute
variable {env : Env} {request : Request} {requests : List Request} {db db' : Memory}
  {logs : List Command}

theorem execute_cons (h : execute env (request :: requests) db = some (db', logs)) :
    ∃ a db₁ logs₁ logs₂, (request.handle env).run db = some (a, db₁, logs₁) ∧
      execute env requests db₁ = some (db', logs₂) ∧ logs = logs₁ ++ logs₂ := by
  obtain ⟨⟨a, db₁, logs₁⟩, hhead, hrest⟩ := Option.bind_eq_some_iff.mp h
  obtain ⟨⟨db₂, logs₂⟩, htail, heq⟩ := Option.map_eq_some_iff.mp hrest
  obtain ⟨rfl, rfl⟩ := Prod.mk.inj heq
  exact ⟨a, db₁, logs₁, logs₂, hhead, htail, rfl⟩

/-- What a run logs are entries of its commands. -/
theorem execute_logs (hrun : execute env requests db = some (db', logs)) :
    ∀ c ∈ logs, ∃ request ∈ requests, c = request.command.entry ∧ ¬ request.command.reads := by
  induction requests generalizing db logs with
  | nil =>
    obtain ⟨-, rfl⟩ := Prod.mk.inj (Option.some.inj hrun)
    simp
  | cons request requests ih =>
    obtain ⟨a, db₁, logs₁, logs₂, hhead, htail, rfl⟩ := execute_cons hrun
    intro c hc
    rcases List.mem_append.mp hc with hc | hc
    · exact ⟨request, by simp, handle_logs hhead c hc⟩
    · obtain ⟨request', hmem, hentry⟩ := ih htail c hc
      exact ⟨request', List.mem_cons_of_mem _ hmem, hentry⟩

end Execute

theorem request_agrees {request : Request} (h : request.command.isTrim = false) :
    Agrees env (request.handle env) :=
  handle_agrees env request.ctx fun key start stop heq => by
    rw [heq] at h
    cases h

/-- A run ends, and what it logs is what it does to the keyspace. -/
theorem execute_agrees {requests : List Request}
    (h : ∀ request ∈ requests, request.command.isTrim = false) (db : Memory) :
    ∃ db' logs, execute env requests db = some (db', logs) ∧
      view env db' = Keyspace.applyAll logs (view env db) := by
  induction requests generalizing db with
  | nil => exact ⟨db, [], rfl, rfl⟩
  | cons request requests ih =>
    obtain ⟨a, db₁, logs₁, hrun, hview⟩ := request_agrees env (h request (by simp)) db
    obtain ⟨db', logs, hexec, hrest⟩ := ih (fun r hr => h r (List.mem_cons_of_mem _ hr)) db₁
    refine ⟨db', logs₁ ++ logs, ?_, ?_⟩
    · simp [execute, hrun, hexec]
    · rw [hrest, hview]
      exact (applyAll_append _ _ _ _).symm

/-- Replaying the log of a run from the empty database gives the run's keyspace. -/
theorem replay_of_execute (requests : List Request) (clock : Nat → SystemTime)
    (h : ∀ request ∈ requests, request.command.isTrim = false) :
    ∃ db logs, execute env requests newDb = some (db, logs) ∧
      (FitsAll clock 0 logs →
        ∃ db', replayAll env clock 0 logs newDb = some db' ∧ view env db' = view env db) := by
  obtain ⟨db, logs, hexec, hview⟩ := execute_agrees env h newDb
  refine ⟨db, logs, hexec, fun hfits => ?_⟩
  obtain ⟨db', hreplay⟩ := Option.isSome_iff_exists.mp
    ((replayAll_isSome env 0 newDb).mpr hfits)
  refine ⟨db', hreplay, ?_⟩
  rw [view_replayAll env hreplay, hview]

def plainCtx : Ctx := ⟨SystemTime.unixEpoch, []⟩

theorem replay_of_execute_queue :
    let requests : List Request :=
  [⟨plainCtx, .rPush [112] [120]⟩, ⟨plainCtx, .rPopLPush [112] [112]⟩,
      ⟨plainCtx, .setEx [107] 5 [118]⟩, ⟨plainCtx, .incr [112]⟩, ⟨plainCtx, .dbSize⟩]
    let logs : List Command := [.rPush [112] [120], .rPopLPush [112] [112], .setEx [107] 5 [118]]
    ∃ db db', execute plainEnv requests newDb = some (db, logs) ∧
      replayAll plainEnv (fun _ => SystemTime.unixEpoch) 0 logs newDb = some db' ∧
      view plainEnv db' = view plainEnv db := by
  intro requests logs
  obtain ⟨db, logs', hexec, hreplay⟩ :=
    replay_of_execute plainEnv requests (fun _ => SystemTime.unixEpoch)
      (by simp [requests, Command.isTrim])
  obtain rfl : logs' = logs := by
    have hlogs : (execute plainEnv requests newDb).map Prod.snd = some logs := rfl
    rw [hexec] at hlogs
    exact Option.some.inj hlogs
  obtain ⟨db', hrun, hview⟩ := hreplay ⟨trivial, trivial, rfl, trivial⟩
  exact ⟨db, db', hexec, hrun, hview⟩

end TitanKv
