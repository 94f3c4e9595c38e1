import TitanKv.Lib.Scan
import TitanKv.Restarts

/-! # A full SCAN among other clients

A client asks for one shard after another, by the cursor that each reply returns,
while other clients and the tasks of the server take steps. A key only ever lives
in the shard of its index: so no batch repeats a key of another, and a key that
stays is in the batch of its shard. -/

namespace TitanKv
open Utf8 TwoPhase Runs

/-- A client in the middle of an iteration: the cursor to send next, and the
batches received so far. -/
structure Iteration where
  system : System
  cursor : Bytes
  batches : List (List Bytes)
  isDone : Bool

def Iteration.start (system : System) : Iteration := ⟨system, lit "0", [], false⟩

def bulk? : Resp.Value → Option Bytes
  | .bulk val => some val
  | _ => none

/-- The cursor and the keys of a reply. -/
def readBatch (reply : Bytes) : Option (Bytes × List Bytes) :=
  match Resp.decode reply with
  | some (.array [.bulk next, .array items], []) => (items.mapM bulk?).map fun keys => (next, keys)
  | _ => none

inductive ScanEvent where
  | other (e : Event)
  | call (ctx : Ctx)

def ScanEvent.isCall : ScanEvent → Bool
  | .call _ => true
  | .other _ => false

/-- `SCAN cursor`, as the client sends it. -/
def scanRequest (ctx : Ctx) (cursor : Bytes) : Request := ⟨ctx, parseCommand [lit "SCAN", cursor]⟩

section Steps
variable (env : Env) (s : Iteration)

/-- One call and its reply. The iteration is over with the cursor 0. -/
def callScan (ctx : Ctx) : Option Iteration :=
  match ((scanRequest ctx s.cursor).handle env).run s.system.db with
  | some (.reply reply, _, _) => (readBatch reply).bind fun batch =>
    (step env s.system (.command (scanRequest ctx s.cursor))).map fun system =>
      ⟨system, batch.1, s.batches ++ [batch.2], batch.1 = lit "0"⟩
  | _ => none

def scanStep : ScanEvent → Option Iteration
  | .other e => (step env s.system e).map fun system => { s with system := system }
  | .call ctx => if s.isDone then none else callScan env s ctx

end Steps

section Call
variable {env : Env} {n : Nat} {keys : List Bytes} {db : Memory}

theorem parseUsize_decimal (h : n < 2 ^ 64) : parseUsize (decimal n) = some n := by
  have hprint : Decimal.printInt n = Decimal.printNat n := by
    rw [Decimal.printInt, if_neg (by omega), Int.natAbs_natCast]
  have hall : (Decimal.printNat n).all Char.isDigit = true :=
    List.all_eq_true.mpr fun c hc => Decimal.isDigit_of_mem_printNat hc
  rw [parseUsize, decimal, decode?_encode, Option.bind_some, hprint, Decimal.parseNat_digits hall,
    Decimal.digits?_printNat, Option.bind_some, if_pos (by omega)]

theorem scanRequest_decimal (ctx : Ctx) (h : n < 2 ^ 64) :
    scanRequest ctx (decimal n) = ⟨ctx, .scan n none⟩ := by
  have hparse : parseCommand [lit "SCAN", decimal n] =
      .scan ((parseUsize (decimal n)).getD 0) none := rfl
  rw [scanRequest, hparse, parseUsize_decimal h, Option.getD_some]

theorem decimal_eq_zero (h : n < 2 ^ 64) : decimal n = lit "0" ↔ n = 0 := by
  constructor
  · intro hzero
    have hread := parseUsize_decimal h
    rw [hzero] at hread
    exact (Option.some.inj (hread.symm.trans (by decide : parseUsize (lit "0") = some 0)))
  · rintro rfl
    decide

def scanValue (next : Nat) (keys : List Bytes) : Resp.Value :=
  .array [.bulk (decimal next), .array (keys.map .bulk)]

theorem mapM_bulk? (keys : List Bytes) : (keys.map Resp.Value.bulk).mapM bulk? = some keys := by
  induction keys with
  | nil => rfl
  | cons key keys ih =>
    rw [List.map_cons, List.mapM_cons, ih]
    rfl

theorem readBatch_scanValue (next : Nat) (keys : List Bytes) :
    readBatch (scanValue next keys).encode = some (decimal next, keys) := by
  have hsound : (scanValue next keys).Sound := ⟨trivial, soundAll_bulk keys, trivial⟩
  have hdecode := Resp.decode_encode hsound []
  rw [List.append_nil] at hdecode
  rw [readBatch, hdecode]
  simp only [scanValue, mapM_bulk?, Option.map_some]

/-- The reply of `SCAN` lists the keys of the shard at the cursor that it retains. -/
theorem run_scan (env : Env) (db : Memory) (ctx : Ctx) (matchPattern : Option Bytes) (h : n < 64) :
    (handle env ctx (.scan n matchPattern)).run db =
      some (.reply (scanValue ((n + 1) % 64)
        (retainMatching env matchPattern (shardKeys db n))).encode, db, []) := by
  have hrun : (handleScan env n matchPattern).run db = some (.reply (lit "*2\r\n" ++
      writeBulk (decimal (if n = 63 then 0 else n + 1 : Nat)) ++
      bulkArray (retainMatching env matchPattern (shardKeys db n))), db, []) := by
    rw [handleScan, if_neg (Nat.not_le.mpr h), Prog.run_bind, run_scanShard]
    rfl
  have hnext : (if n < 63 then n + 1 else 0) = (n + 1) % 64 := by
    split <;> omega
  have hsays := (scan_replies env ctx db n matchPattern _ db [] hrun).1 _ rfl
  rw [hnext] at hsays
  rw [handle, hrun, hsays.2]
  rfl

end Call

section Iterate
variable {env : Env} {s s' : Iteration} {e : ScanEvent} {key : Bytes} {db : Memory} {n : Nat}

theorem nodup_shardKeys : (shardKeys db n).Nodup := by
  unfold shardKeys
  split
  · exact AList.keys_nodup _
  · exact List.nodup_nil

theorem mem_shardKeys (h : n < shardCount) : key ∈ shardKeys db n ↔ key ∈ db ⟨n, h⟩ := by
  rw [shardKeys, dif_pos h]
  exact AList.mem_keys

/-- Where an iteration stands: as many batches as shards it has read, in order. -/
structure Progress (env : Env) (s : Iteration) : Prop where
  routed : Routed env s.system.db
  bound : s.batches.length ≤ 64
  cursor : s.cursor = decimal (s.batches.length % 64 : Nat)
  done : s.isDone = decide (s.batches.length = 64)
  collected : Scan.Collected (calculateShardIndex env) s.batches

theorem progress_start {system : System} (h : Routed env system.db) :
    Progress env (.start system) where
  routed := h
  bound := Nat.zero_le 64
  cursor := by
    have hzero : lit "0" = decimal 0 := by decide
    exact hzero
  done := rfl
  collected := .nil

/-- A request that ends is a step of the server. -/
theorem step_command {s : System} {request : Request} {a : Outcome} {logs : List Command}
    (hrun : (request.handle env).run s.db = some (a, db, logs)) :
    ∃ s', step env s (.command request) = some s' ∧ s'.db = db := by
  have hcommand : (stepCommand env s request).isSome = true := by
    rw [stepCommand, Option.isSome_map, hrun]
    rfl
  obtain ⟨t, ht⟩ := Option.isSome_iff_exists.mp hcommand
  refine ⟨{ t with time := t.time + 1 }, by simp [step, effect, ht], ?_⟩
  obtain ⟨a', db', logs', hrun', ⟨-, rfl⟩ | ⟨-, rfl⟩⟩ := stepCommand_some ht
  · exact (Prod.mk.inj (Prod.mk.inj (Option.some.inj (hrun'.symm.trans hrun))).2).1
  · exact (Prod.mk.inj (Prod.mk.inj (Option.some.inj (hrun'.symm.trans hrun))).2).1

/-- A call reads the next shard, if the iteration is not over. -/
theorem Progress.call (h : Progress env s) (hdone : s.isDone = false) (ctx : Ctx) :
    ∃ system, system.db = s.system.db ∧ s.batches.length < 64 ∧ scanStep env s (.call ctx) = some
      ⟨system, decimal ((s.batches.length + 1) % 64 : Nat),
        s.batches ++ [shardKeys s.system.db s.batches.length],
        decide (s.batches.length + 1 = 64)⟩ := by
  have hlt : s.batches.length < 64 := by
    have hne : s.batches.length ≠ 64 := of_decide_eq_false (h.done.symm.trans hdone)
    exact lt_of_le_of_ne h.bound hne
  have hrequest : scanRequest ctx s.cursor = ⟨ctx, .scan s.batches.length none⟩ := by
    rw [h.cursor, Nat.mod_eq_of_lt hlt, scanRequest_decimal ctx (by omega)]
  have hrun := run_scan env s.system.db ctx none hlt
  obtain ⟨system, hsystem, hdb⟩ : ∃ system, TitanKv.step env s.system
      (.command ⟨ctx, .scan s.batches.length none⟩) = some system ∧ system.db = s.system.db :=
        step_command hrun
  refine ⟨system, hdb, hlt, ?_⟩
  have hover : decimal ((s.batches.length + 1) % 64 : Nat) = lit "0" ↔
      s.batches.length + 1 = 64 := by
    rw [decimal_eq_zero (by omega)]
    omega
  simp only [scanStep, hdone, callScan, hrequest, Request.handle, hrun, readBatch_scanValue,
    hsystem, Option.bind_some, Option.map_some, hover]
  rfl

theorem isDone_of_call {ctx : Ctx} (he : scanStep env s (.call ctx) = some s') :
    s.isDone = false := by
  by_contra hdone
  rw [scanStep, if_pos (by simpa using hdone)] at he
  cases he

theorem Progress.step (h : Progress env s) (he : scanStep env s e = some s') : Progress env s' := by
  cases e with
  | other e =>
    obtain ⟨system, hsystem, rfl⟩ := Option.map_eq_some_iff.mp he
    exact { h with routed := step_routed h.routed hsystem }
  | call ctx =>
    obtain ⟨system, hdb, hlt, hcall⟩ := h.call (isDone_of_call he) ctx
    obtain rfl := Option.some.inj (hcall.symm.trans he)
    have hlength : (s.batches ++ [shardKeys s.system.db s.batches.length]).length =
        s.batches.length + 1 := by
      simp
    refine ⟨by rw [hdb]; exact h.routed, by rw [hlength]; omega, by rw [hlength], by
      rw [hlength], ?_⟩
    refine h.collected.visit nodup_shardKeys fun key hkey => ?_
    exact congrArg Fin.val (h.routed ⟨_, hlt⟩ key ((mem_shardKeys hlt).mp hkey))

theorem Progress.call_batches {ctx : Ctx} (h : Progress env s)
    (he : scanStep env s (.call ctx) = some s') :
    s.batches.length < 64 ∧ s'.batches = s.batches ++ [shardKeys s.system.db s.batches.length] := by
  obtain ⟨system, -, hlt, hcall⟩ := h.call (isDone_of_call he) ctx
  obtain rfl := Option.some.inj (hcall.symm.trans he)
  exact ⟨hlt, rfl⟩

theorem batches_other {e : Event} (he : scanStep env s (.other e) = some s') :
    s'.batches = s.batches := by
  obtain ⟨system, -, rfl⟩ := Option.map_eq_some_iff.mp he
  rfl

theorem progress_run {es : List ScanEvent} {s₀ : Iteration} (h : Progress env s₀)
    (hrun : run (scanStep env) s₀ es = some s) : Progress env s :=
  (Reachable.run .init es hrun).inv h fun _ _ _ hs _ he => hs.step he

/-- Each call adds one batch. -/
theorem length_batches {es : List ScanEvent} {s₀ : Iteration} (h : Progress env s₀)
    (hrun : run (scanStep env) s₀ es = some s) :
    s.batches.length = s₀.batches.length + es.countP ScanEvent.isCall := by
  induction es generalizing s₀ with
  | nil =>
    obtain rfl := Option.some.inj hrun
    rfl
  | cons e es ih =>
    obtain ⟨s₁, he, hrest⟩ := Option.bind_eq_some_iff.mp hrun
    rw [ih (h.step he) hrest]
    cases e with
    | other e => simp [batches_other he, ScanEvent.isCall]
    | call ctx =>
      rw [(h.call_batches he).2, List.countP_cons]
      simp [ScanEvent.isCall]
      omega

/-- The key is in the batch of its shard, once that is read. -/
def Listed (env : Env) (key : Bytes) (s : Iteration) : Prop :=
  (calculateShardIndex env key).val < s.batches.length → key ∈ s.batches.flatten

theorem Progress.listed_step (h : Progress env s) (hlisted : Listed env key s)
    (hkey : ∃ i, key ∈ s.system.db i) (he : scanStep env s e = some s') : Listed env key s' := by
  obtain ⟨i, hi⟩ := hkey
  obtain rfl := h.routed i key hi
  intro hread
  cases e with
  | other e =>
    rw [batches_other he] at hread ⊢
    exact hlisted hread
  | call ctx =>
    obtain ⟨hlt, hbatches⟩ := h.call_batches he
    rw [hbatches, List.flatten_append, List.mem_append]
    rw [hbatches, List.length_append, List.length_singleton] at hread
    by_cases hearlier : (calculateShardIndex env key).val < s.batches.length
    · exact Or.inl (hlisted hearlier)
    · have hnow : calculateShardIndex env key = ⟨s.batches.length, hlt⟩ := Fin.ext (by simp; omega)
      right
      rw [List.flatten_singleton, mem_shardKeys hlt, ← hnow]
      exact hi

theorem listed_run {es : List ScanEvent} {s₀ : Iteration} (h : Progress env s₀)
    (hlisted : Listed env key s₀)
    (hkey : AllOk (scanStep env) (fun s _ => ∃ i, key ∈ s.system.db i) s₀ es)
    (hrun : run (scanStep env) s₀ es = some s) : Listed env key s := by
  induction es generalizing s₀ with
  | nil =>
    obtain rfl := Option.some.inj hrun
    exact hlisted
  | cons e es ih =>
    obtain ⟨s₁, he, hrest⟩ := Option.bind_eq_some_iff.mp hrun
    exact ih (h.step he) (h.listed_step hlisted hkey.1 he) (hkey.2 s₁ he) hrest

/-- A full iteration from any reachable state, with any steps of other clients and
of the tasks between its calls: it is over after 64 calls and not before, each of
which replies; it returns no key twice, each key that was there all the time, and
only keys that were there at the call. -/
theorem scan_complete {system : System} {es : List ScanEvent}
    (hsystem : Reachable (lifeStep env) anyStep System.fresh system)
    (hrun : run (scanStep env) (.start system) es = some s) :
    es.countP ScanEvent.isCall ≤ 64 ∧ (s.isDone = true ↔ es.countP ScanEvent.isCall = 64) ∧
    (s.isDone = false → ∀ ctx, ∃ s', scanStep env s (.call ctx) = some s') ∧
    s.batches.flatten.Nodup ∧
    (s.isDone = true → ∀ key,
      AllOk (scanStep env) (fun s _ => ∃ i, key ∈ s.system.db i) (.start system) es →
      key ∈ s.batches.flatten) ∧
    ∀ ctx s', scanStep env s (.call ctx) = some s' →
      ∃ batch, s'.batches = s.batches ++ [batch] ∧ ∀ key ∈ batch, ∃ i, key ∈ s.system.db i := by
  have hstart := progress_start (sound_reachable hsystem).routed
  have hprogress := progress_run hstart hrun
  have hlength : s.batches.length = es.countP ScanEvent.isCall := by
    rw [length_batches hstart hrun]
    exact Nat.zero_add _
  refine ⟨hlength ▸ hprogress.bound, ?_, ?_, hprogress.collected.nodup, ?_, ?_⟩
  · rw [hprogress.done, decide_eq_true_iff, hlength]
  · intro hdone ctx
    obtain ⟨system', -, -, hcall⟩ := hprogress.call hdone ctx
    exact ⟨_, hcall⟩
  · intro hdone key hkey
    have hall : s.batches.length = 64 := of_decide_eq_true (hprogress.done.symm.trans hdone)
    refine listed_run hstart (fun hread => absurd hread (Nat.not_lt_zero _)) hkey hrun ?_
    rw [hall]
    exact (calculateShardIndex env key).isLt
  · intro ctx s' he
    obtain ⟨hlt, hbatches⟩ := hprogress.call_batches he
    exact ⟨_, hbatches, fun key hkey => ⟨_, (mem_shardKeys hlt).mp hkey⟩⟩

def someKeys : List LifeEvent :=
  [[5], [97], [107]].map fun key => .step (.command ⟨plainCtx, .set key [118]⟩)

/-- After 20 calls another client deletes a key of a shard still to be read, and writes
a new one. -/
def interruptedScan : List ScanEvent :=
  List.replicate 20 (.call plainCtx) ++ [.other (.command ⟨plainCtx, .del [97]⟩),
    .other (.command ⟨plainCtx, .set [98] [118]⟩)] ++ List.replicate 44 (.call plainCtx)

theorem scan_complete_interrupted :
    ∃ system s, run (lifeStep firstByteEnv) System.fresh someKeys = some system ∧
    run (scanStep firstByteEnv) (.start system) interruptedScan = some s ∧ s.isDone = true ∧
    s.batches.flatten.Nodup ∧ [5] ∈ s.batches.flatten ∧ [107] ∈ s.batches.flatten := by
  have hsome : ((run (lifeStep firstByteEnv) System.fresh someKeys).bind fun system =>
      (run (scanStep firstByteEnv) (.start system) interruptedScan).map fun _ =>
        decide (∀ key ∈ ([[5], [107]] : List Bytes),
          AllOk (scanStep firstByteEnv) (fun s _ => ∃ i, key ∈ s.system.db i)
          (.start system) interruptedScan)) = some true := by decide +kernel
  obtain ⟨system, hsystem, hscan⟩ := Option.bind_eq_some_iff.mp hsome
  obtain ⟨s, hrun, hstay⟩ := Option.map_eq_some_iff.mp hscan
  have hstays := of_decide_eq_true hstay
  obtain ⟨-, hdone, -, hnodup, hall, -⟩ := scan_complete (.run .init _ hsystem) hrun
  have hend : s.isDone = true := hdone.mpr (by decide)
  exact ⟨system, s, hsystem, hrun, hend, hnodup, hall hend _ (hstays _ (by simp)),
    hall hend _ (hstays _ (by simp))⟩

end Iterate

end TitanKv
