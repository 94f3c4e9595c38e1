import TitanKv.Compaction
import TitanKv.Lib.FifoSerial
import TitanKv.Locks
import TitanKv.Replies
import TitanKv.SweepTiming

/-! # Waiting for shards and for the log

The shards' locks are fair: a reader waits behind a writer that came before it. The
log's channel is bounded, and the handlers, `RPOPLPUSH` apart, send their lines with
their guards held. Here whatever takes a guard runs under both: the commands, all of
them, the sweeper's passes and the compactor's. If the commands that take two guards do
so upwards in one order of the shards, everybody comes to an end, and every line is taken
from the channel. Requests that name keys then have the answers they would have had one
at a time, and where no line is sent late the log rebuilds what they leave. `MGET` and
`SINTER` take their guards in the order of their arguments: two of them can close a ring
that never opens. -/

namespace TitanKv
open Utf8 TwoPhase Runs Fifo

section Passes
variable (now : SystemTime) (clock : Bytes → SystemTime)

/-- The sweeper's loop over the shards, with the keys it has to log. -/
def sweepOver : List Index → List Bytes → Arm (List Bytes)
  | [], allKeysToDel => pure allKeysToDel
  | i :: is, allKeysToDel => do
    Prog.acquire i .write
    let map ← Prog.get i
    let shardKeysToDel := expiredKeys now map
    Prog.modify i (removeKeys shardKeysToDel)
    Prog.drop i
    sweepOver is (allKeysToDel ++ shardKeysToDel)

def expirationSweep : Arm (List Bytes) := sweepOver now (List.finRange shardCount) []

/-- The compactor's loop, which reads the clock at each key. -/
def aofCompaction : Arm Text :=
  overShards (fun newAofContent map => newAofContent ++ shardText clock map)
    (List.finRange shardCount) []

theorem run_sweepOver (is : List Index) (keys : List Bytes) (db : Memory) : ∃ expired,
    (sweepOver now is keys).run db =
      some (expired, is.foldl (fun db i => visitShard now i db) db, []) := by
  induction is generalizing keys db with
  | nil => exact ⟨keys, rfl⟩
  | cons i is ih => exact ih (keys ++ expiredKeys now (db i)) (visitShard now i db)

/-- A sweep alone visits each shard. -/
theorem run_expirationSweep (db : Memory) : ∃ expired, (expirationSweep now).run db =
    some (expired, (List.finRange shardCount).foldl (fun db i => visitShard now i db) db, []) :=
  run_sweepOver now _ _ db

theorem run_aofCompaction (db : Memory) :
    (aofCompaction clock).run db = some (compactText clock db, db, []) := by
  have hfold : ∀ (is : List Index) (content : Text),
      is.foldl (fun content i => content ++ shardText clock (db i)) content =
        content ++ is.flatMap fun i => shardText clock (db i) := by
    intro is
    induction is with
    | nil => simp
    | cons i is ih => simp [ih]
  rw [aofCompaction, run_overShards, hfold]
  rfl

end Passes

section Jobs
variable {env : Env} {ctx : Ctx} {order : Index → Nat} {command : Command} {key : Bytes} {α : Type}

/-- What takes guards: a client's command, a pass of the sweeper or of the compactor. -/
inductive Job where
  | request (request : Request)
  | sweep (now : SystemTime)
  | compact (clock : Bytes → SystemTime)

/-- What a job leaves to its caller. -/
inductive Product where
  | outcome (outcome : Outcome)
  | allKeysToDel (keys : List Bytes)
  | newAofContent (content : Text)

def Job.prog (env : Env) : Job → Arm Product
  | .request call => call.handle env >>= fun outcome => pure (.outcome outcome)
  | .sweep now => expirationSweep now >>= fun keys => pure (.allKeysToDel keys)
  | .compact clock => aofCompaction clock >>= fun content => pure (.newAofContent content)

/-- The guards of a command go up in the order. -/
def Rises (env : Env) (order : Index → Nat) (command : Command) : Prop :=
  (lockPlan env command).Pairwise fun l l' => order l.1 < order l'.1

theorem climbs_withEntry (respond : Option Entry → Bytes) :
    Climbs order [] (withEntry env key respond) :=
  Climbs.first fun _ => Climbs.unlock rfl

theorem climbs_looksUp {k : Bytes} (h : command.looksUp = some k) :
    Climbs order [] (handle env ctx command) := by
  obtain ⟨respond, hr⟩ := handle_looksUp ctx h
  rw [hr]
  exact climbs_withEntry respond

theorem climbs_withWrite {arm : Index → Arm Bytes} (h : ∀ i, NoLocks (arm i)) :
    Climbs order [] (withWrite env key arm) :=
  Climbs.first ((h _).climbs fun _ => Climbs.unlock rfl)

theorem climbs_overShards {β : Type} (f : β → Shard → β) (is : List Index) (acc : β) :
    Climbs order [] (overShards f is acc : Arm β) := by
  induction is generalizing acc with
  | nil => rfl
  | cons i is ih => exact Climbs.first fun map => Climbs.unlock (ih (f acc map))

theorem climbs_scanShard (cursor : Nat) :
    Climbs order [] (scanShard cursor : Arm (List Bytes)) := by
  unfold scanShard
  split
  · exact Climbs.first fun _ => Climbs.unlock rfl
  · rfl

theorem climbs_sweepOver (now : SystemTime) (is : List Index) (keys : List Bytes) :
    Climbs order [] (sweepOver now is keys) := by
  induction is generalizing keys with
  | nil => rfl
  | cons i is ih => exact Climbs.first fun map => Climbs.unlock (ih (keys ++ expiredKeys now map))

theorem noLocks_get {i : Index} {f : Shard → Arm α} (h : ∀ map, NoLocks (f map)) :
    NoLocks (Prog.get i >>= f) := h

theorem noLocks_modify {i : Index} {g : Shard → Shard} {f : Unit → Arm α} (h : NoLocks (f ())) :
    NoLocks (Prog.modify i g >>= f) := h

theorem noLocks_remove {i : Index} {f : Option Entry → Arm α} (h : ∀ removed, NoLocks (f removed)) :
    NoLocks (remove i key >>= f) := fun _ => h _

section Guards
variable {guard : MultiGuard} {held : List (Index × Mode)} {i j : Index} {m : Mode}

/-- Releasing the guard releases the locks. -/
def MultiGuard.Covers (guard : MultiGuard) (held : List (Index × Mode)) : Prop :=
  ∀ (order : Index → Nat) (k : Handler), Climbs order [] k →
    Climbs order held (guard.release >>= fun _ => k)

theorem covers_single : (MultiGuard.single i).Covers [(i, m)] := fun _ _ hk => Climbs.unlock hk

theorem covers_double (h : ∀ l ∈ held, l.1 = i ∨ l.1 = j) :
    (MultiGuard.double i j).Covers held := by
  intro order k hk
  have hnone : release i (release j held) = [] := by
    refine List.filter_eq_nil_iff.mpr fun l hl => ?_
    obtain ⟨hmem, hj⟩ := List.mem_filter.mp hl
    simpa using (h l hmem).resolve_right (by simpa using hj)
  show Climbs order (release i (release j held)) k
  rwa [hnone]

theorem climbs_moveUnder (h : guard.Covers held) (source destination : Bytes) :
    Climbs order held (moveUnder guard source destination) := by
  have hpop : NoLocks (popSource guard.maps.1 source) := by
    refine noLocks_get fun map => ?_
    split
    · split <;> trivial
    · trivial
  have hpush : ∀ val, NoLocks (pushDestination guard.maps.2 destination val) := by
    refine fun val => noLocks_modify (noLocks_get fun map => ?_)
    split <;> trivial
  refine hpop.climbs fun popped => ?_
  cases popped with
  | some val => exact (hpush val).climbs fun _ => h order _ rfl
  | none => exact h order _ rfl

theorem climbs_rPopLPush {source destination : Bytes}
    (h : Rises env order (.rPopLPush source destination)) :
    Climbs order [] (handleRPopLPush env source destination) := by
  unfold handleRPopLPush writeMultiShards
  unfold Rises lockPlan at h
  dsimp only at h ⊢
  split
  · exact Climbs.first (climbs_moveUnder covers_single source destination)
  · rename_i hne
    rw [if_neg hne] at h
    split
    · rename_i hlt
      rw [if_pos hlt] at h
      have hup := List.rel_of_pairwise_cons h List.mem_cons_self
      exact Climbs.first ⟨List.forall_mem_singleton.mpr hup,
        climbs_moveUnder (covers_double (by simp)) source destination⟩
    · rename_i hlt
      rw [if_neg hlt] at h
      have hup := List.rel_of_pairwise_cons h List.mem_cons_self
      exact Climbs.first ⟨List.forall_mem_singleton.mpr hup,
        climbs_moveUnder (covers_double (by simp)) source destination⟩

theorem climbs_withTwoValues {keyA keyB : Bytes} (h : Rises env order (.mGet keyA keyB))
    (respond : Option DataType → Option DataType → Bytes) :
    Climbs order [] (withTwoValues env keyA keyB respond) := by
  unfold withTwoValues readMultiShards
  unfold Rises lockPlan at h
  dsimp only at h ⊢
  split
  · exact Climbs.first fun _ _ => covers_single order _ rfl
  · rename_i hne
    rw [if_neg hne] at h
    have hup := List.rel_of_pairwise_cons h List.mem_cons_self
    split <;>
      exact Climbs.first ⟨List.forall_mem_singleton.mpr hup,
        fun _ _ => covers_double (by simp) order _ rfl⟩

end Guards

/-- The key whose shard a command that writes and ends holds to its end. -/
def Command.holds : Command → Option Bytes
  | .set key _ | .setEx key _ _ | .get key | .del key | .incr key | .lPush key _ | .lPop key
  | .rPush key _ | .rPop key | .hSet key _ _ | .sAdd key _ | .lRem key _ _ => some key
  | _ => none

/-- Such a command computes and logs under one write guard, or fails before it. -/
theorem handle_holds (env : Env) (ctx : Ctx) (h : command.holds = some key) :
    (∃ outcome, handle env ctx command = pure outcome) ∨
    ∃ arm, handle env ctx command = withWrite env key arm ∧ ∀ i, NoLocks (arm i) := by
  cases command with
  | set _ value =>
    obtain rfl := Option.some.inj h
    exact Or.inr ⟨_, rfl, fun i => trivial⟩
  | setEx _ seconds value =>
    obtain rfl := Option.some.inj h
    show (∃ outcome, handleSetEx env ctx _ seconds value = pure outcome) ∨
      ∃ arm, handleSetEx env ctx _ seconds value = withWrite env _ arm ∧ ∀ i, NoLocks (arm i)
    unfold handleSetEx
    split
    · exact Or.inl ⟨_, rfl⟩
    · exact Or.inr ⟨_, rfl, fun i => trivial⟩
  | get _ =>
    obtain rfl := Option.some.inj h
    refine Or.inr ⟨_, rfl, fun i => noLocks_get fun map => ?_⟩
    split
    · exact noLocks_remove fun removed => by cases removed <;> trivial
    · refine noLocks_get fun map => ?_
      split <;> trivial
  | del _ =>
    obtain rfl := Option.some.inj h
    exact Or.inr ⟨_, rfl, fun i => noLocks_remove fun removed => by cases removed <;> trivial⟩
  | incr _ | lPop _ =>
    obtain rfl := Option.some.inj h
    refine Or.inr ⟨_, rfl, fun i => noLocks_get fun map => ?_⟩
    split <;> trivial
  | lPush _ _ | rPush _ _ | hSet _ _ _ =>
    obtain rfl := Option.some.inj h
    refine Or.inr ⟨_, rfl, fun i => noLocks_modify (noLocks_get fun map => ?_)⟩
    split <;> trivial
  | sAdd _ _ =>
    obtain rfl := Option.some.inj h
    refine Or.inr ⟨_, rfl, fun i => noLocks_modify (noLocks_get fun map => ?_)⟩
    split
    · split <;> trivial
    · trivial
  | rPop _ =>
    obtain rfl := Option.some.inj h
    refine Or.inr ⟨_, rfl, fun i => noLocks_get fun map => ?_⟩
    split
    · split <;> trivial
    all_goals trivial
  | lRem _ _ _ =>
    obtain rfl := Option.some.inj h
    refine Or.inr ⟨_, rfl, fun i => noLocks_get fun map => ?_⟩
    split
    · split <;> trivial
    · trivial
  | _ => cases h

theorem climbs_holds {k : Bytes} (h : command.holds = some k) :
    Climbs order [] (handle env ctx command) := by
  rcases handle_holds env ctx h with ⟨outcome, hp⟩ | ⟨arm, hp, hno⟩
  · rw [hp]
    rfl
  · rw [hp]
    exact climbs_withWrite hno

/-- A command that ends takes its guards upwards if its plan does. -/
theorem climbs_handle (htrim : command.isTrim = false) (h : Rises env order command) :
    Climbs order [] (handle env ctx command) := by
  cases command with
  | set key _ | setEx key _ _ | get key | del key | incr key | lPush key _ | lPop key | rPush key _
  | rPop key | hSet key _ _ | sAdd key _ | lRem key _ _ => exact climbs_holds (k := key) rfl
  | lTrim key start stop => cases htrim
  | rPopLPush source destination => exact climbs_rPopLPush h
  | mGet keyA keyB =>
    show Climbs order [] (handleMGet env keyA keyB)
    exact climbs_withTwoValues h _
  | sInter keyA keyB =>
    show Climbs order [] (handleSInter env keyA keyB)
    exact climbs_withTwoValues h _
  | strlen key | «type» key | ttl key | pttl key | «exists» key | lRange key start stop
  | hGetAll key | hGet key field | sMembers key | scard key | llen key | hlen key =>
    exact climbs_looksUp (k := key) rfl
  | dbSize | info => exact (climbs_overShards _ _ _).bind fun _ => rfl
  | keys pattern =>
    show Climbs order [] (handleKeys env pattern)
    unfold handleKeys
    split
    · rfl
    · exact (climbs_overShards _ _ _).bind fun _ => rfl
  | scan cursor matchPattern =>
    show Climbs order [] (handleScan env cursor matchPattern)
    unfold handleScan
    split
    · rfl
    · exact (climbs_scanShard cursor).bind fun _ => rfl
  | _ => rfl

/-- A command that ends and rises, or a pass of the background. -/
def Job.Rises (env : Env) (order : Index → Nat) : Job → Prop
  | .request call => call.command.isTrim = false ∧ TitanKv.Rises env order call.command
  | _ => True

theorem climbs_prog {job : Job} (h : job.Rises env order) : Climbs order [] (job.prog env) := by
  cases job with
  | request call => exact (climbs_handle h.1 h.2).bind fun _ => rfl
  | sweep now => exact (climbs_sweepOver now _ _).bind fun _ => rfl
  | compact clock => exact (climbs_overShards _ _ _).bind fun _ => rfl

/-- A read of two shards, the higher one first. -/
def ReadsDown (env : Env) : Command → Prop
  | .mGet keyA keyB | .sInter keyA keyB =>
    calculateShardIndex env keyB < calculateShardIndex env keyA
  | _ => False

/-- All other commands rise in the shards' own order. -/
theorem rises_index (h : ¬ ReadsDown env command) : Rises env Fin.val command := by
  unfold Rises
  cases command with
  | mGet keyA keyB | sInter keyA keyB =>
    have hle := Fin.le_def.mp (not_lt.mp h)
    unfold lockPlan
    dsimp only
    split
    · exact List.pairwise_singleton _ _
    · rename_i hne
      exact List.pairwise_pair.mpr (lt_of_le_of_ne hle (Fin.val_ne_of_ne hne))
  | rPopLPush source destination =>
    unfold lockPlan
    dsimp only
    split
    · exact List.pairwise_singleton _ _
    · rename_i hne
      split
      · rename_i hlt
        exact List.pairwise_pair.mpr hlt
      · rename_i hnlt
        exact List.pairwise_pair.mpr
          (lt_of_le_of_ne (not_lt.mp hnlt) (Fin.val_ne_of_ne (Ne.symm hne)))
  | set _ _ | setEx _ _ _ | get _ | del _ | incr _ | lPush _ _ | lPop _ | rPush _ _ | rPop _
  | lTrim _ _ _ | hSet _ _ _ | sAdd _ _ | lRem _ _ _ | strlen _ | «type» _ | ttl _ | pttl _
  | «exists» _ | lRange _ _ _ | hGetAll _ | hGet _ _ | sMembers _ | scard _ | llen _ | hlen _ =>
    exact List.pairwise_singleton _ _
  | _ => exact .nil

end Jobs

section Ends
variable {env : Env} {order : Index → Nat} {n capacity : Nat} {db : Memory}
  {jobs : Fin n → List Job}
  {s : Hall n Index Shard Command Job Product}

/-- Whatever order the steps are taken in, all jobs come to their ends and the writer has
taken every line, if what takes two guards takes them upwards in one order of the shards. -/
theorem jobs_end (hcapacity : 0 < capacity) (hjobs : ∀ t, ∀ job ∈ jobs t, job.Rises env order)
    (hs : Reachable (Hall.step (Job.prog env) capacity) anyStep (.init db jobs) s) :
    Inevitable (Hall.step (Job.prog env) capacity) Hall.Settled s :=
  (Hall.sound_reachable (fun t job hmem => climbs_prog (hjobs t job hmem)) hs).ends hcapacity

def getJob (ctx : Ctx) (key : Bytes) : Job := .request ⟨ctx, .get key⟩
def mGetJob (ctx : Ctx) (keyA keyB : Bytes) : Job := .request ⟨ctx, .mGet keyA keyB⟩

/-- An `RPOPLPUSH` between a read of two shards, a sweep and a compaction. -/
def mixedJobs : Fin 3 → List Job
  | 0 => [mGetJob plainCtx [3] [5], .request ⟨plainCtx, .set [5] [118]⟩]
  | 1 => [.request ⟨plainCtx, .rPopLPush [7] [5]⟩, .sweep .unixEpoch]
  | 2 => [.compact fun _ => .unixEpoch, getJob plainCtx [3]]

theorem mixedJobs_rise (t : Fin 3) : ∀ job ∈ mixedJobs t, job.Rises firstByteEnv Fin.val := by
  have hread : ¬ ReadsDown firstByteEnv (.mGet [3] [5]) :=
    show ¬ calculateShardIndex firstByteEnv [5] < calculateShardIndex firstByteEnv [3] by decide
  match t with
  | 0 =>
    exact List.forall_mem_cons.mpr
      ⟨⟨rfl, rises_index hread⟩, List.forall_mem_singleton.mpr ⟨rfl, rises_index id⟩⟩
  | 1 =>
    exact List.forall_mem_cons.mpr
      ⟨⟨rfl, rises_index id⟩, List.forall_mem_singleton.mpr trivial⟩
  | 2 =>
    exact List.forall_mem_cons.mpr
      ⟨trivial, List.forall_mem_singleton.mpr ⟨rfl, rises_index id⟩⟩

theorem jobs_end_mixed : ∃ s,
    run (Hall.step (Job.prog firstByteEnv) 1) (.init newDb mixedJobs)
      [.task 0, .task 1, .task 0, .task 2, .task 1, .task 0] = some s ∧
      Inevitable (Hall.step (Job.prog firstByteEnv) 1) Hall.Settled s := by
  have hsome : (run (Hall.step (Job.prog firstByteEnv) 1) (.init newDb mixedJobs)
      [.task 0, .task 1, .task 0, .task 2, .task 1, .task 0]).isSome := by decide +kernel
  obtain ⟨s, hrun⟩ := Option.isSome_iff_exists.mp hsome
  exact ⟨s, hrun, jobs_end Nat.one_pos mixedJobs_rise (.run .init _ hrun)⟩

end Ends

section Outcomes
variable (env : Env) {order : Index → Nat} {n capacity : Nat} {db : Memory}
  {requests : Fin n → List LoggedRequest}
  {s : Hall n Index Shard Command LoggedRequest Outcome}

/-- Whatever order the steps are taken in, all requests are answered, and the answers and
the maps are those of the requests one at a time, each client's in its order and those
answered by now before those not begun. -/
theorem requests_serialized (hcapacity : 0 < capacity)
    (hrequests : ∀ t, ∀ request ∈ requests t, Rises env order request.1.command)
    (hs : Reachable (Hall.step (loggedProg env) capacity) anyStep (.init db requests) s) :
    Inevitable (Hall.step (loggedProg env) capacity)
      (fun s' => s'.Settled ∧ s.Serialized (loggedProg env) db requests s') s :=
  Hall.ends_serialized hcapacity (loggedProg_disciplined env)
    (fun t request hmem => climbs_handle request.2.2 (hrequests t request hmem)) hs

def pairReadRequest (keyA keyB : Bytes) : LoggedRequest :=
  ⟨⟨plainCtx, .mGet keyA keyB⟩, by simp [Command.keyArgs, Command.isTrim]⟩

/-- A move whose destination another client pushes to and a third one reads. -/
def metRequests : Fin 3 → List LoggedRequest
  | 0 => [rPushRequest [7] [120], moveRequest [7] [5]]
  | 1 => [pairReadRequest [3] [5]]
  | 2 => [rPushRequest [5] [121]]

theorem metRequests_rise (t : Fin 3) :
    ∀ request ∈ metRequests t, Rises firstByteEnv Fin.val request.1.command := by
  have hread : ¬ ReadsDown firstByteEnv (.mGet [3] [5]) :=
    show ¬ calculateShardIndex firstByteEnv [5] < calculateShardIndex firstByteEnv [3] by decide
  match t with
  | 0 =>
    exact List.forall_mem_cons.mpr
      ⟨rises_index id, List.forall_mem_singleton.mpr (rises_index id)⟩
  | 1 => exact List.forall_mem_singleton.mpr (rises_index hread)
  | 2 => exact List.forall_mem_singleton.mpr (rises_index id)

theorem requests_serialized_met : ∃ s,
    run (Hall.step (loggedProg firstByteEnv) 1) (.init newDb metRequests)
      [.task 0, .task 0, .task 1, .task 0, .task 2] = some s ∧
      Inevitable (Hall.step (loggedProg firstByteEnv) 1)
        (fun s' => s'.Settled ∧ s.Serialized (loggedProg firstByteEnv) newDb metRequests s') s := by
  have hsome : (run (Hall.step (loggedProg firstByteEnv) 1) (.init newDb metRequests)
      [.task 0, .task 0, .task 1, .task 0, .task 2]).isSome := by decide +kernel
  obtain ⟨s, hrun⟩ := Option.isSome_iff_exists.mp hsome
  exact ⟨s, hrun, requests_serialized firstByteEnv Nat.one_pos metRequests_rise (.run .init _ hrun)⟩

/-- A line touches the shards of the keys it names. -/
def Touches (line : Command) (i : Index) : Prop :=
  ∃ key ∈ line.keyArgs, calculateShardIndex env key = i

theorem keyDisjoint_of_touches {line line' : Command}
    (h : ∀ i, Touches env line i → ¬ Touches env line' i) :
    KeyDisjoint line line' :=
  fun key hkey hkey' => h _ ⟨key, hkey, rfl⟩ ⟨key, hkey', rfl⟩

theorem keyArgs_holds {command : Command} {key : Bytes} (h : command.holds = some key) :
    command.keyArgs = [key] := by
  cases command <;> cases h <;> rfl

theorem sendsUnder_withWrite {key : Bytes} {arm : Index → Arm Bytes} {P : Command → Prop}
    (h : ∀ i, NoLocks (arm i)) (hsends : Sends P (withWrite env key arm))
    (hP : ∀ line, P line → ∀ i, Touches env line i → i = calculateShardIndex env key) :
    SendsUnder (Touches env) [] (withWrite env key arm) :=
  SendsUnder.of_noLocks (p := arm (calculateShardIndex env key)) (h _) hsends
    (fun line hline i hi => List.mem_singleton.mpr (by rw [hP line hline i hi])) fun _ => trivial

/-- Only `RPOPLPUSH` sends its line after it has released. -/
theorem sendsUnder_handle {ctx : Ctx} {command : Command} (htrim : command.isTrim = false)
    (hmove : ∀ source destination, command ≠ .rPopLPush source destination) :
    SendsUnder (Touches env) [] (handle env ctx command) := by
  by_cases hr : command.reads
  · exact (readOnly_handle env ctx hr).sendsUnder
  · obtain ⟨key, hkey⟩ : ∃ key, command.holds = some key := by
      cases command with
      | lTrim _ _ _ => cases htrim
      | rPopLPush source destination => exact absurd rfl (hmove source destination)
      | set key _ | setEx key _ _ | get key | del key | incr key | lPush key _ | lPop key
      | rPush key _ | rPop key | hSet key _ _ | sAdd key _ | lRem key _ _ => exact ⟨key, rfl⟩
      | _ => exact absurd trivial hr
    have hsends : Sends (· = command.entry) (handle env ctx command) := sends_handle hr
    rcases handle_holds env ctx hkey with ⟨outcome, hp⟩ | ⟨arm, hp, hno⟩
    · rw [hp]
      trivial
    · rw [hp] at hsends ⊢
      refine sendsUnder_withWrite env hno hsends fun line hline i hi => ?_
      obtain ⟨k, hk, rfl⟩ := hi
      rw [hline, keyArgs_entry, keyArgs_holds hkey] at hk
      rw [List.mem_singleton.mp hk]

theorem view_loggedProg {request : LoggedRequest} {mem mem' : Memory} {outcome : Outcome}
    {logs : List Command} (hrun : (loggedProg env request).run mem = some (outcome, mem', logs)) :
    view env mem' = TwoPhase.applyAll Keyspace.apply logs (view env mem) := by
  obtain ⟨outcome', mem₁, logs₁, hrun₁, hview⟩ := request_agrees env request.2.2 mem
  rw [show (loggedProg env request).run mem = _ from hrun₁] at hrun
  obtain ⟨rfl, rfl, rfl⟩ := by simpa using hrun
  exact hview

/-- Without `RPOPLPUSH`, the lines the writer has taken in the end rebuild the keyspace:
no line is lost in the channel, and none comes before one it depends on. -/
theorem lines_rebuild (hcapacity : 0 < capacity)
    (hrequests : ∀ t, ∀ request ∈ requests t, Rises env order request.1.command)
    (hmove : ∀ t, ∀ request ∈ requests t, ∀ source destination,
      request.1.command ≠ .rPopLPush source destination)
    (hs : Reachable (Hall.step (loggedProg env) capacity) anyStep (.init newDb requests) s) :
    Inevitable (Hall.step (loggedProg env) capacity)
      (fun s => s.Settled ∧ (s.intake ≠ .failed → ∀ clock, FitsAll clock 0 s.received →
        ∃ db', replayAll env clock 0 s.received newDb = some db' ∧
          view env db' = view env s.mem)) s := by
  have hclimbs : ∀ t, ∀ request ∈ requests t, Climbs order [] (loggedProg env request) :=
    fun t request hmem => climbs_handle request.2.2 (hrequests t request hmem)
  refine ((Hall.sound_reachable hclimbs hs).ends hcapacity).of_reachable
    (fun s hs hsettled => ⟨hsettled, fun hopen clock hfits => ?_⟩) hs
  have hlog := Hall.received_serial (loggedProg_disciplined env)
    (fun x y (hxy : KeyDisjoint x y) d => Keyspace.apply_commute hxy d)
    (fun _ _ _ _ _ hrun => view_loggedProg env hrun)
    (fun _ _ => keyDisjoint_of_touches env)
    (fun t request hmem => sendsUnder_handle env request.2.2 (hmove t request hmem))
    hs hsettled hopen
  obtain ⟨db', hreplay⟩ := Option.isSome_iff_exists.mp ((replayAll_isSome env 0 newDb).mpr hfits)
  exact ⟨db', hreplay, (view_replayAll env hreplay).trans hlog⟩

/-- Two pushes to one list while a client reads it. -/
def pushedRequests : Fin 3 → List LoggedRequest
  | 0 => [rPushRequest [7] [120]]
  | 1 => [pairReadRequest [3] [7]]
  | 2 => [rPushRequest [7] [121]]

theorem lines_rebuild_pushed : ∃ s,
    run (Hall.step (loggedProg firstByteEnv) 1) (.init newDb pushedRequests)
      [.task 0, .task 0, .task 2, .task 0, .task 2] = some s ∧
      Inevitable (Hall.step (loggedProg firstByteEnv) 1) (fun s => s.Settled ∧ (s.intake ≠ .failed →
        ∀ clock, FitsAll clock 0 s.received →
          ∃ db', replayAll firstByteEnv clock 0 s.received newDb = some db' ∧
            view firstByteEnv db' = view firstByteEnv s.mem)) s := by
  have hread : ¬ ReadsDown firstByteEnv (.mGet [3] [7]) :=
    show ¬ calculateShardIndex firstByteEnv [7] < calculateShardIndex firstByteEnv [3] by decide
  have hrise : ∀ t, ∀ request ∈ pushedRequests t,
      Rises firstByteEnv Fin.val request.1.command := fun
    | 0 => List.forall_mem_singleton.mpr (rises_index id)
    | 1 => List.forall_mem_singleton.mpr (rises_index hread)
    | 2 => List.forall_mem_singleton.mpr (rises_index id)
  have hmove : ∀ t, ∀ request ∈ pushedRequests t, ∀ source destination,
      request.1.command ≠ .rPopLPush source destination := fun
    | 0 | 1 | 2 => List.forall_mem_singleton.mpr fun _ _ heq => Command.noConfusion heq
  have hsome : (run (Hall.step (loggedProg firstByteEnv) 1) (.init newDb pushedRequests)
      [.task 0, .task 0, .task 2, .task 0, .task 2]).isSome := by decide +kernel
  obtain ⟨s, hrun⟩ := Option.isSome_iff_exists.mp hsome
  exact ⟨s, hrun, lines_rebuild firstByteEnv Nat.one_pos hrise hmove (.run .init _ hrun)⟩

end Outcomes

section Stuck
variable (env : Env) (ctx : Ctx) {capacity : Nat} {db : Memory} {keyA keyB : Bytes}

theorem prog_mGetJob (hne : calculateShardIndex env keyA ≠ calculateShardIndex env keyB) :
    ∃ p, (mGetJob ctx keyA keyB).prog env =
      .lock (calculateShardIndex env keyA) .read
        (.lock (calculateShardIndex env keyB) .read p) := by
  simp only [mGetJob, Job.prog, Request.handle, handle, handleMGet, withTwoValues, readMultiShards,
    if_neg hne]
  split <;> exact ⟨_, rfl⟩

/-- Two `MGET`s that name keys of two shards in opposite orders, and a `GET` on each of
these shards between: none of the four ever ends, and all that is held is one read guard
on either shard. -/
theorem opposite_reads_stick (hne : calculateShardIndex env keyA ≠ calculateShardIndex env keyB) :
    ∃ s, Reachable (Hall.step (Job.prog env) capacity) anyStep
        (.init db (four [mGetJob ctx keyA keyB] [mGetJob ctx keyB keyA] [getJob ctx keyA]
          [getJob ctx keyB])) s ∧
      (∀ e, s.step (Job.prog env) capacity e = none) ∧ (∀ t, ¬ (s.tasks t).Finished) ∧
      ∀ t, (s.tasks t).held = four [(calculateShardIndex env keyA, .read)]
        [(calculateShardIndex env keyB, .read)] [] [] t := by
  obtain ⟨p, hp⟩ := prog_mGetJob env ctx hne
  obtain ⟨q, hq⟩ := prog_mGetJob env ctx hne.symm
  obtain ⟨s, hrun, hstuck⟩ :=
    crossed_readers hne hp hq (show (getJob ctx keyA).prog env = .lock _ .write _ from rfl)
      (show (getJob ctx keyB).prog env = .lock _ .write _ from rfl)
  exact ⟨s, .run .init meeting hrun, hstuck⟩

theorem opposite_reads_stick_bytes :
    ∃ s, Reachable (Hall.step (Job.prog firstByteEnv) 100000) anyStep
      (.init newDb (four [mGetJob plainCtx [3] [5]] [mGetJob plainCtx [5] [3]]
        [getJob plainCtx [3]] [getJob plainCtx [5]])) s ∧
    (∀ e, s.step (Job.prog firstByteEnv) 100000 e = none) ∧ (∀ t, ¬ (s.tasks t).Finished) ∧
    ∀ t, (s.tasks t).held = four [(calculateShardIndex firstByteEnv [3], .read)]
      [(calculateShardIndex firstByteEnv [5], .read)] [] [] t :=
  opposite_reads_stick firstByteEnv plainCtx (by decide)

end Stuck

end TitanKv
