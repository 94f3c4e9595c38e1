import TitanKv.Concurrent
import TitanKv.Effects
import TitanKv.Restarts

/-! # Counters

`INCR` adds one to the number a key holds. The addition is that of an `i64`, so
a counter at the end of the range goes on at the other end; up to there the
replies of any number of clients to `INCR` on one key are consecutive numbers,
in the order in which the clients take the key's lock. -/

namespace TitanKv
open Local TwoPhase Runs

section Wrapping
variable {z : Int}

theorem asI64_of_fits (hlo : -2 ^ 63 ≤ z) (hhi : z < 2 ^ 63) : asI64 z = z :=
  Int.bmod_eq_of_le_mul_two (by omega) (by omega)

theorem asI64_range (z : Int) : -2 ^ 63 ≤ asI64 z ∧ asI64 z < 2 ^ 63 :=
  ⟨Int.le_bmod (by decide), Int.bmod_lt (by decide)⟩

/-- Wrapping on the way does not change where an addition ends. -/
theorem asI64_add (z y : Int) : asI64 (asI64 z + y) = asI64 (z + y) := Int.bmod_add_bmod

theorem integerReply_injective {y : Int} (h : integerReply z = integerReply y) : z = y := by
  rw [integerReply_eq, integerReply_eq] at h
  obtain ⟨hvalue, -⟩ :=
    Resp.encode_append_inj (v := .integer z) (w := .integer y) trivial trivial
      (congrArg (· ++ []) h)
  exact Resp.Value.integer.inj hvalue

end Wrapping

section Increment
variable {env : Env} {ctx : Ctx} {db : Memory} {key : Bytes} {num : Int}

theorem currentNumber_range {value : Option DataType} (h : currentNumber value = .ok num) :
    -2 ^ 63 ≤ num ∧ num < 2 ^ 63 := by
  unfold currentNumber at h
  split at h
  · split at h
    · rename_i hparse
      obtain rfl := Except.ok.inj h
      obtain ⟨text, -, hnum⟩ := Option.bind_eq_some_iff.mp hparse
      have hrange := Decimal.parseInt_range hnum
      omega
    · cases h
  · cases h
  · obtain rfl := Except.ok.inj h
    decide

theorem currentNumber_decimal (hlo : -2 ^ 63 ≤ num) (hhi : num < 2 ^ 63) :
    currentNumber (some (.string (decimal num))) = .ok num := by
  rw [currentNumber, parseI64_decimal ⟨hlo, by omega⟩]

/-- The database after a counter was set. -/
def setCounter (env : Env) (key : Bytes) (num : Int) (db : Memory) : Memory :=
  onShard env key (·.insert key ⟨.string (decimal num), none⟩) db

theorem entryAt_setCounter :
    entryAt env (setCounter env key num db) key = some ⟨.string (decimal num), none⟩ := by
  rw [entryAt, setCounter, onShard, Function.update_self, AList.lookup_insert]

theorem stored_setCounter :
    stored env (setCounter env key num db) key = some (.string (decimal num)) :=
  stored_of_entryAt entryAt_setCounter rfl

theorem handleIncr_run (env : Env) (db : Memory) (key : Bytes) : (handleIncr env key).run db =
    match currentNumber (stored env db key) with
    | .error msg => some (.reply msg, db, [])
    | .ok num =>
      some (.reply (integerReply (asI64 (num + 1))), setCounter env key (asI64 (num + 1)) db,
        [.incr key]) := by
  rw [(handleIncr_writes env key).run_eq, handleIncr, runCell_withWrite]
  simp only [Prog.pure_eq, Prog.get_bind, runCell_read, stored]
  cases currentNumber ((db (calculateShardIndex env key)).value? key) with
  | error msg => simp
  | ok num => rfl

/-- The replay of the line stores the same number. -/
theorem replayCommand_incr {now : SystemTime} (h : currentNumber (stored env db key) = .ok num) :
    replayCommand env now (.incr key) db = some (setCounter env key (asI64 (num + 1)) db) := by
  rw [← replayNumber_of_ok h]
  rfl

/-- `INCR` replies with an error and changes nothing, or it replies with the old
number plus one and stores that, and so does the replay of its line. -/
def CountsExactly (env : Env) (ctx : Ctx) (db : Memory) (key : Bytes) : Prop :=
  ∃ buffer db' logs, (handle env ctx (.incr key)).run db = some (.reply buffer, db', logs) ∧
    (IsError buffer ∧ db' = db ∨
      ∃ num, currentNumber (stored env db key) = .ok num ∧ buffer = integerReply (num + 1) ∧
        TouchesOnly env [key] db db' ∧ stored env db' key = some (.string (decimal (num + 1))) ∧
        ∀ now, replayCommand env now (.incr key) db = some db')

/-- Exactly when one `INCR` counts: unless the number is the last of an `i64`. -/
theorem countsExactly_iff :
    CountsExactly env ctx db key ↔ currentNumber (stored env db key) ≠ .ok (2 ^ 63 - 1) := by
  have hrun := handleIncr_run env db key
  cases hnum : currentNumber (stored env db key) with
  | error msg =>
    rw [hnum] at hrun
    exact iff_of_true ⟨msg, db, [], hrun, Or.inl ⟨currentNumber_error hnum, rfl⟩⟩
      (fun h => by cases h)
  | ok num =>
    rw [hnum] at hrun
    obtain ⟨hlo, hhi⟩ := currentNumber_range hnum
    by_cases hlast : num = 2 ^ 63 - 1
    · refine iff_of_false ?_ (fun hne => hne (congrArg Except.ok hlast))
      rintro ⟨buffer, db', logs, hrun', hends⟩
      obtain ⟨rfl, rfl, rfl⟩ := by simpa using hrun.symm.trans hrun'
      rcases hends with ⟨herror, -⟩ | ⟨old, hold, hreply, -⟩
      · exact (IsAnswer.integer _).head_ne herror.head
      · obtain rfl := Except.ok.inj (hnum.symm.trans hold)
        have hwrap := asI64_range (num + 1)
        rw [integerReply_injective hreply] at hwrap
        omega
    · have hfits : asI64 (num + 1) = num + 1 := asI64_of_fits (by omega) (by omega)
      dsimp only at hrun
      rw [hfits] at hrun
      refine iff_of_true ⟨_, _, _, hrun,
        Or.inr ⟨num, hnum, rfl, ?_, stored_setCounter, fun now => ?_⟩⟩ ?_
      · exact handle_frame env ctx (show (handle env ctx (.incr key)).run db = _ from hrun)
      · rw [replayCommand_incr hnum, hfits]
      · exact fun h => hlast (Except.ok.inj h)

end Increment

section Counters
variable {env : Env} {key : Bytes} {n : Nat} {mem₀ db db' : Memory} {request : Request}
  {order : List (Executed n KeyedRequest Outcome)}

/-- What may run beside a counter: `INCR` of it, what does not name it, and what
only reads it. `GET` removes a key past its deadline, so it is to find none. -/
def LeavesCounter (env : Env) (key : Bytes) (mem₀ : Memory) (request : Request) : Prop :=
  request.command = .incr key ∨ key ∉ request.command.keyArgs ∨ request.command.reads ∨
    request.command = .get key ∧ isExpired request.ctx.now (entryAt env mem₀ key) = false

/-- The calls of `INCR` on the key, in order. -/
def incrCalls (key : Bytes) (order : List (Executed n KeyedRequest Outcome)) :
    List (Executed n KeyedRequest Outcome) :=
  order.filter fun e => e.call.1.command = .incr key

/-- The replies that a counter which starts like this owes. -/
def Counted (start : Except Bytes Int) (replies : List Outcome) : Prop :=
  match start with
  | .error _ => ∀ a ∈ replies, ∃ buffer, a = .reply buffer ∧ IsError buffer
  | .ok num =>
    replies = (List.range replies.length).map fun i : Nat => .reply (integerReply (num + 1 + i))

/-- The key is past a deadline only where it was so at first. -/
def Steady (env : Env) (key : Bytes) (mem₀ db : Memory) : Prop :=
  ∀ now, isExpired now (entryAt env mem₀ key) = false → isExpired now (entryAt env db key) = false

/-- A request beside the counter leaves it as it is. -/
theorem entryAt_of_leaves {a : Outcome} {logs : List Command}
    (h : LeavesCounter env key mem₀ request)
    (hne : request.command ≠ .incr key) (hsteady : Steady env key mem₀ db)
    (hrun : (request.handle env).run db = some (a, db', logs)) :
    entryAt env db' key = entryAt env db key := by
  obtain ⟨ctx, command⟩ := request
  rcases h with hincr | hkey | hreads | ⟨rfl, hlive⟩
  · exact absurd hincr hne
  · exact (handle_frame env ctx hrun).entryAt hkey
  · obtain ⟨rfl, -⟩ := run_of_reads env ctx hreads hrun
    rfl
  · obtain ⟨hexpired, -⟩ | ⟨-, -, rfl, -⟩ := get_cases hrun
    · rw [hsteady ctx.now hlive] at hexpired
      cases hexpired
    · rfl

/-- The replies to the `INCR`s of a sequence of calls. -/
theorem incrCalls_replies (hcalls : ∀ e ∈ order, LeavesCounter env key mem₀ e.call.1)
    (hsteady : Steady env key mem₀ db)
    (hrun : execAll (keyedProg env) (order.map (·.call)) db = some (order.map (·.reply), db')) :
    match currentNumber (stored env db key) with
    | .error msg => ∀ a ∈ (incrCalls key order).map (·.reply), a = .reply msg
    | .ok num => (incrCalls key order).map (·.reply) =
        (List.range (incrCalls key order).length).map fun i : Nat =>
          .reply (integerReply (asI64 (num + 1 + i))) := by
  induction order generalizing db with
  | nil =>
    split
    · simp [incrCalls]
    · rfl
  | cons e order ih =>
    obtain ⟨⟨a, db₁, logs⟩, hhead, hrest⟩ := Option.bind_eq_some_iff.mp hrun
    obtain ⟨⟨as, db₂⟩, htail, heq⟩ := Option.map_eq_some_iff.mp hrest
    obtain ⟨hreplies, rfl⟩ := Prod.mk.inj heq
    obtain ⟨rfl, rfl⟩ := List.cons.inj hreplies
    have hothers : ∀ e' ∈ order, LeavesCounter env key mem₀ e'.call.1 :=
      fun e' he' => hcalls e' (List.mem_cons_of_mem _ he')
    by_cases hincr : e.call.1.command = .incr key
    · have hcall : incrCalls key (e :: order) = e :: incrCalls key order :=
        List.filter_cons_of_pos (by simpa using hincr)
      have hrun := handleIncr_run env db key
      rw [keyedProg, Request.handle, hincr] at hhead
      rw [show (handleIncr env key).run db = _ from hhead] at hrun
      rw [hcall]
      cases hnum : currentNumber (stored env db key) with
      | error msg =>
        rw [hnum] at hrun
        obtain ⟨hreply, rfl, -⟩ := by simpa using hrun
        have hnext := ih hothers hsteady htail
        rw [hnum] at hnext
        exact List.forall_mem_cons.mpr ⟨hreply, hnext⟩
      | ok num =>
        rw [hnum] at hrun
        obtain ⟨hreply, rfl, -⟩ := by simpa using hrun
        have hwrap := asI64_range (num + 1)
        have hnext := ih hothers (fun now _ => by rw [entryAt_setCounter]; rfl) htail
        rw [stored_setCounter, currentNumber_decimal hwrap.1 hwrap.2] at hnext
        dsimp only at hnext ⊢
        rw [List.map_cons, List.length_cons, List.range_succ_eq_map, List.map_cons, List.map_map,
          hreply, hnext]
        refine congrArg₂ List.cons (by simp) (List.map_congr_left fun i _ => ?_)
        have hsum : asI64 (num + 1) + 1 + (i : Int) = asI64 (num + 1) + ((i + 1 : Nat) : Int) := by
          omega
        rw [Function.comp_apply, hsum, asI64_add]
    · have hsame := entryAt_of_leaves (hcalls e List.mem_cons_self) hincr hsteady hhead
      have hskip : incrCalls key (e :: order) = incrCalls key order :=
        List.filter_cons_of_neg (by simpa using hincr)
      have hnext := ih hothers (fun now hlive => by rw [hsame]; exact hsteady now hlive) htail
      rw [stored_eq, hsame, ← stored_eq] at hnext
      rw [hskip]
      exact hnext

/-- Wrapped replies are the ones owed as long as the count stays in an `i64`. -/
theorem wrapped_iff {num : Int} {m : Nat} (hlo : -2 ^ 63 ≤ num) (hhi : num < 2 ^ 63) :
    ((List.range m).map fun i : Nat => Outcome.reply (integerReply (asI64 (num + 1 + i)))) =
      ((List.range m).map fun i : Nat => .reply (integerReply (num + 1 + i))) ↔
        num + m < 2 ^ 63 := by
  rw [List.map_inj_left]
  constructor
  · intro h
    by_contra hover
    have hlast := h (2 ^ 63 - 1 - num).toNat (List.mem_range.mpr (by omega))
    have hrange := asI64_range (num + 1 + (2 ^ 63 - 1 - num).toNat)
    rw [integerReply_injective (Outcome.reply.inj hlast)] at hrange
    omega
  · intro hfits i hi
    have hlt := List.mem_range.mp hi
    rw [asI64_of_fits (by omega) (by omega)]

/-- In a state of clients that run at once: the calls that have ended are in the
order in which the calls passed their last access, which keeps to the calls that
did not overlap, and in this order the replies to `INCR` count. -/
structure CountsInOrder (env : Env) (key : Bytes) (mem₀ : Memory) (s : Clients n KeyedRequest) :
    Prop where
  ended : ∀ e ∈ s.executed, e ∈ s.order
  respects : ∀ e, ∀ e' ∈ s.order, s.Precedes e e' → [e, e'].Sublist s.order
  counted : Counted (currentNumber (stored env mem₀ key)) ((incrCalls key s.order).map (·.reply))

theorem countsInOrder_iff {calls : Fin n → List KeyedRequest} {s : Clients n KeyedRequest}
    (hreach : Reachable (Sys.step (keyedProg env)) anyStep (Sys.init mem₀ calls) s)
    (hcalls : ∀ e ∈ s.order, LeavesCounter env key mem₀ e.call.1) :
    CountsInOrder env key mem₀ s ↔
      ∀ num, currentNumber (stored env mem₀ key) = .ok num →
        num + (incrCalls key s.order).length < 2 ^ 63 := by
  obtain ⟨⟨abs, hserial⟩, hhist⟩ := soundInv_reachable (keyedProg_disciplined env) hreach
  have hreplies := incrCalls_replies hcalls (fun _ hlive => hlive) hserial.legal
  have hended : ∀ e ∈ s.executed, e ∈ s.order := fun e he => ((hhist.executed e).mp he).1
  suffices hcounted : Counted (currentNumber (stored env mem₀ key))
    ((incrCalls key s.order).map (·.reply)) ↔
      ∀ num, currentNumber (stored env mem₀ key) = .ok num →
        num + (incrCalls key s.order).length < 2 ^ 63 from
    ⟨fun h => hcounted.mp h.counted, fun h => ⟨hended, hhist.respects, hcounted.mpr h⟩⟩
  cases hnum : currentNumber (stored env mem₀ key) with
  | error msg =>
    rw [hnum] at hreplies
    refine iff_of_true (fun a ha => ⟨msg, hreplies a ha, currentNumber_error hnum⟩) fun num h =>
      by cases h
  | ok num =>
    rw [hnum] at hreplies
    obtain ⟨hlo, hhi⟩ := currentNumber_range hnum
    simp only [Counted, List.length_map, Except.ok.injEq, forall_eq', ← wrapped_iff hlo hhi]
    rw [← hreplies]

/-- Exactly when `INCR` counts: one of them, and all that clients running at once
call on one key that nothing else writes. -/
theorem incr_counts_iff (env : Env) :
    (∀ ctx db key, CountsExactly env ctx db key ↔
      currentNumber (stored env db key) ≠ .ok (2 ^ 63 - 1)) ∧
    ∀ (n : Nat) (mem₀ : Memory) (calls : Fin n →
      List KeyedRequest) (s : Clients n KeyedRequest) (key : Bytes),
      Reachable (Sys.step (keyedProg env)) anyStep (Sys.init mem₀ calls) s →
      (∀ e ∈ s.order, LeavesCounter env key mem₀ e.call.1) →
      (CountsInOrder env key mem₀ s ↔
        ∀ num, currentNumber (stored env mem₀ key) = .ok num →
          num + (incrCalls key s.order).length < 2 ^ 63) :=
  ⟨fun _ _ _ => countsExactly_iff, fun _ _ _ _ _ hreach hcalls => countsInOrder_iff hreach hcalls⟩

def incrRequest (key : Bytes) : KeyedRequest := ⟨⟨plainCtx, .incr key⟩, by simp [Command.keyArgs]⟩

/-- Two clients, the one twice and the other once. -/
def countingCalls : Fin 2 → List KeyedRequest
  | 0 => [incrRequest [107], incrRequest [107]]
  | 1 => [incrRequest [107]]

def countingRun : Option (Clients 2 KeyedRequest) :=
  run (Sys.step (keyedProg plainEnv)) (Sys.init newDb countingCalls)
    (List.replicate 7 ⟨0, Nat.two_pos⟩ ++ List.replicate 7 ⟨1, Nat.one_lt_two⟩ ++
      List.replicate 3 ⟨0, Nat.two_pos⟩)

theorem countingRun_isSome : countingRun.isSome = true := rfl

theorem incr_counts_iff_clients :
    ∃ s, countingRun = some s ∧ (CountsInOrder plainEnv [107] newDb s ↔
    ∀ num, currentNumber (stored plainEnv newDb [107]) = .ok num →
      num + (incrCalls [107] s.order).length < 2 ^ 63) := by
  have hrun := Option.some_get countingRun_isSome
  refine ⟨_, hrun.symm,
    (incr_counts_iff plainEnv).2 2 newDb countingCalls _ [107] (Reachable.run .init _ hrun.symm) ?_⟩
  have hcommitted : (countingRun.get countingRun_isSome).order.map (·.call) =
      [incrRequest [107], incrRequest [107]] := rfl
  intro e he
  have hcall : e.call = incrRequest [107] := by
    have hmem := List.mem_map_of_mem (f := (·.call)) he
    rw [hcommitted] at hmem
    simpa using hmem
  rw [hcall]
  exact Or.inl rfl

/-- The last number of an `i64`, under `k`. -/
def lastCounter : Memory := setCounter plainEnv [107] (2 ^ 63 - 1) newDb

/-- `INCR k` replies with the first number of an `i64`. -/
theorem incr_wraps :
    ¬ ∀ (env : Env) (ctx : Ctx) (db : Memory) (key : Bytes), CountsExactly env ctx db key := by
  intro h
  refine countsExactly_iff.mp (h plainEnv plainCtx lastCounter [107]) ?_
  rw [lastCounter, stored_setCounter, currentNumber_decimal (by decide) (by decide)]

end Counters

end TitanKv
