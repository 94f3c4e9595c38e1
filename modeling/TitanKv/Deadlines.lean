import TitanKv.Counting
import TitanKv.Lib.Updates
import TitanKv.Lifetimes

/-! # Deadlines that a command leaves alone

A command that changes a value in place leaves its deadline: it writes through a
reference to the entry, or takes the entry away. `INCR` puts a new entry there,
which has none. `SETEX` computes a deadline, in unsigned seconds. -/

namespace TitanKv
open Local TwoPhase

section Shards
variable {map map' map₁ : Shard} {key : Bytes} {value : DataType} {empty : Entry}

/-- The deadline of a key, if it is there. -/
def deadlineOf (map : Shard) (key : Bytes) : Option (Option SystemTime) :=
  (map.lookup key).map Entry.expiresAt

/-- Each key stays, with its deadline. -/
def KeepsKeys (map map' : Shard) : Prop :=
  ∀ key deadline, deadlineOf map key = some deadline → deadlineOf map' key = some deadline

/-- Each key was there before, with its deadline. -/
def AddsNoKeys (map map' : Shard) : Prop := KeepsKeys map' map

theorem KeepsKeys.refl : KeepsKeys map map := fun _ _ h => h

theorem KeepsKeys.trans (h : KeepsKeys map map₁) (h' : KeepsKeys map₁ map') : KeepsKeys map map' :=
  fun key deadline hd => h' key deadline (h key deadline hd)

theorem AddsNoKeys.refl : AddsNoKeys map map := KeepsKeys.refl

theorem AddsNoKeys.trans (h : AddsNoKeys map map₁) (h' : AddsNoKeys map₁ map') :
    AddsNoKeys map map' :=
  KeepsKeys.trans h' h

theorem deadlineOf_setValue (k : Bytes) :
    deadlineOf (map.setValue key value) k = deadlineOf map k := by
  by_cases hk : k = key
  · subst hk
    cases hl : map.lookup k with
    | none => rw [Shard.setValue, hl]
    | some entry => rw [deadlineOf, Shard.lookup_setValue hl, deadlineOf, hl]; rfl
  · rw [deadlineOf, Shard.lookup_setValue_of_ne hk, deadlineOf]

theorem keepsKeys_setValue : KeepsKeys map (map.setValue key value) :=
  fun k _ h => (deadlineOf_setValue k).trans h

theorem addsNoKeys_setValue : AddsNoKeys map (map.setValue key value) :=
  fun k _ h => (deadlineOf_setValue k).symm.trans h

theorem keepsKeys_orInsertWith : KeepsKeys map (map.orInsertWith key empty) := by
  intro k deadline h
  unfold Shard.orInsertWith
  split
  · exact h
  · rename_i hmem
    have hne : k ≠ key := by
      rintro rfl
      rw [deadlineOf, AList.lookup_eq_none.mpr hmem] at h
      cases h
    rw [deadlineOf, AList.lookup_insert_ne hne]
    exact h

theorem addsNoKeys_erase : AddsNoKeys map (map.erase key) := by
  intro k deadline h
  by_cases hk : k = key
  · subst hk
    rw [deadlineOf, AList.lookup_erase] at h
    cases h
  · rwa [deadlineOf, AList.lookup_erase_ne hk] at h

end Shards

section Arms
variable {env : Env} {ctx : Ctx} {key : Bytes} {R : Shard → Shard → Prop}

theorem updates_withWrite {arm : Index → Arm Bytes} (h : ∀ i, Updates R (arm i)) :
    Updates R (withWrite env key arm) :=
  Updates.bind (p := arm (calculateShardIndex env key)) (h _) fun _ => trivial

theorem updates_remove {i : Index} {α : Type} {f : Option Entry → Arm α}
    (h : ∀ removed, Updates AddsNoKeys (f removed)) :
    Updates AddsNoKeys (remove i key >>= f) :=
  fun _ => ⟨fun _ => addsNoKeys_erase, h _⟩

/-- The arms that only take entries away, or change values. -/
theorem handleGet_updates : Updates AddsNoKeys (handleGet env ctx key) := by
  refine updates_withWrite fun i => updates_get fun map => ?_
  split
  · refine updates_remove fun removed => ?_
    cases removed <;> trivial
  · refine updates_get fun map => ?_
    split <;> trivial

theorem handleLTrim_updates {start stop : Int} :
    Updates AddsNoKeys (handleLTrim env key start stop) := by
  refine updates_withWrite fun i => updates_get fun map => ?_
  split
  · dsimp only
    split
    · exact updates_remove fun _ => trivial
    · split
      · exact updates_modify (fun _ => addsNoKeys_setValue) trivial
      · refine updates_modify (fun _ => addsNoKeys_setValue)
          (updates_modify (fun _ => addsNoKeys_setValue) ?_)
        split
        · exact updates_remove fun _ => trivial
        · trivial
  all_goals trivial

/-- An arm that puts an empty value under a new key, and goes on from there. -/
theorem updates_growing {empty : Entry} {f : Index → Shard → Arm Bytes}
    (h : ∀ i map, Updates KeepsKeys (f i map)) :
    Updates KeepsKeys (withWrite env key fun i =>
      Prog.modify i (·.orInsertWith key empty) >>= fun _ => Prog.get i >>= f i) :=
  updates_withWrite fun i => updates_modify (fun _ => keepsKeys_orInsertWith) (updates_get (h i))

/-- The arms that add keys, or change values. -/
theorem handlePush_updates {value : Bytes} : Updates KeepsKeys (handleLPush env key value) ∧
    Updates KeepsKeys (handleRPush env key value) := by
  constructor <;> refine updates_growing fun i map => ?_
  · split
    · exact updates_modify (fun _ => keepsKeys_setValue) trivial
    · trivial
  · split
    · exact updates_modify (fun _ => keepsKeys_setValue) trivial
    · trivial

theorem handleHSet_updates {field value : Bytes} :
    Updates KeepsKeys (handleHSet env key field value) := by
  refine updates_growing fun i map => ?_
  split
  · exact updates_modify (fun _ => keepsKeys_setValue) trivial
  · trivial

theorem handleSAdd_updates {member : Bytes} : Updates KeepsKeys (handleSAdd env key member) := by
  refine updates_growing fun i map => ?_
  split
  · split
    · trivial
    · exact updates_modify (fun _ => keepsKeys_setValue) trivial
  · trivial

theorem handleLPop_updates : Updates KeepsKeys (handleLPop env key) := by
  refine updates_withWrite fun i => updates_get fun map => ?_
  split
  · exact updates_modify (fun _ => keepsKeys_setValue) trivial
  all_goals trivial

theorem handleRPop_updates : Updates KeepsKeys (handleRPop env key) := by
  refine updates_withWrite fun i => updates_get fun map => ?_
  split
  · split
    · exact updates_modify (fun _ => keepsKeys_setValue) trivial
    · trivial
  all_goals trivial

theorem handleLRem_updates {value : Bytes} : Updates KeepsKeys (handleLRem env key value) := by
  refine updates_withWrite fun i => updates_get fun map => ?_
  split
  · split
    · exact updates_modify (fun _ => keepsKeys_setValue) trivial
    · trivial
  · trivial

theorem updates_release {α : Type} {guard : MultiGuard} {f : Unit → Arm α} (h : Updates R (f ())) :
    Updates R (guard.release >>= f) := by
  cases guard with
  | single i => exact h
  | double i j => exact h

theorem handleRPopLPush_updates {source destination : Bytes} :
    Updates KeepsKeys (handleRPopLPush env source destination) := by
  have hmove : ∀ guard, Updates KeepsKeys (moveUnder guard source destination) := by
    refine fun guard => Updates.bind (updates_get fun map => ?_) fun popped => ?_
    · split
      · split
        · exact updates_modify (fun _ => keepsKeys_setValue) trivial
        · trivial
      · trivial
    · cases popped with
      | none => exact updates_release trivial
      | some val =>
        refine Updates.bind (updates_modify (fun _ => keepsKeys_orInsertWith)
          (updates_get fun map => ?_))
          fun _ => updates_release trivial
        split
        · exact ⟨fun _ => keepsKeys_setValue, trivial⟩
        · trivial
  unfold handleRPopLPush writeMultiShards
  dsimp only
  split
  · exact hmove _
  · split <;> exact hmove _

end Arms

section Commands
variable {env : Env} {ctx : Ctx} {db db' : Memory} {a : Outcome} {logs : List Command}
  {command : Command}

/-- The commands that put a new value under a key, or none. -/
def Command.replaces : Command → Prop
  | .set _ _ | .setEx _ _ _ | .del _ => True
  | _ => False

/-- All but `INCR`: a command adds keys or takes keys away, and the others keep
their deadlines. -/
theorem handle_keeps (h : ¬ command.replaces) (hincr : ∀ key, command ≠ .incr key)
    (hrun : (handle env ctx command).run db = some (a, db', logs)) :
    (∀ i, KeepsKeys (db i) (db' i)) ∨ ∀ i, AddsNoKeys (db i) (db' i) := by
  have hkeeps : Updates KeepsKeys (handle env ctx command) → ∀ i, KeepsKeys (db i) (db' i) :=
    fun hup => hup.run (fun _ => .refl) (fun _ _ _ => .trans) hrun
  have hadds : Updates AddsNoKeys (handle env ctx command) → ∀ i, AddsNoKeys (db i) (db' i) :=
    fun hup => hup.run (fun _ => .refl) (fun _ _ _ => .trans) hrun
  cases command with
  | get key => exact Or.inr (hadds handleGet_updates)
  | lTrim key start stop => exact Or.inr (hadds handleLTrim_updates)
  | lPush key value => exact Or.inl (hkeeps handlePush_updates.1)
  | rPush key value => exact Or.inl (hkeeps handlePush_updates.2)
  | hSet key field value => exact Or.inl (hkeeps handleHSet_updates)
  | sAdd key member => exact Or.inl (hkeeps handleSAdd_updates)
  | lPop key => exact Or.inl (hkeeps handleLPop_updates)
  | rPop key => exact Or.inl (hkeeps handleRPop_updates)
  | lRem key count value => exact Or.inl (hkeeps handleLRem_updates)
  | rPopLPush source destination => exact Or.inl (hkeeps handleRPopLPush_updates)
  | incr key => exact absurd rfl (hincr key)
  | set _ _ | setEx _ _ _ | del _ => exact absurd trivial h
  | _ =>
    obtain ⟨rfl, -⟩ := run_of_reads env ctx (by trivial) hrun
    exact Or.inl fun i => .refl

/-- A key with an unexpired deadline, present before and after, has that deadline. -/
def KeepsDeadlines (env : Env) (ctx : Ctx) (db : Memory) (command : Command) : Prop :=
  ¬ command.replaces → ∀ a db' logs, (handle env ctx command).run db = some (a, db', logs) →
    ∀ i key deadline after, deadlineOf (db i) key = some (some deadline) → ctx.now ≤ deadline →
      deadlineOf (db' i) key = some after → after = some deadline

/-- `INCR` of a number under a key with an unexpired deadline. -/
def DropsDeadline (env : Env) (ctx : Ctx) (db : Memory) (command : Command) : Prop :=
  ∃ key num deadline, command = .incr key ∧ currentNumber (stored env db key) = .ok num ∧
    deadlineOf (db (calculateShardIndex env key)) key = some (some deadline) ∧ ctx.now ≤ deadline

theorem keepsDeadlines_incr {key : Bytes} : KeepsDeadlines env ctx db (.incr key) ↔
    ¬ DropsDeadline env ctx db (.incr key) := by
  have hrun := handleIncr_run env db key
  constructor
  · rintro hkeeps ⟨_, num, deadline, ⟨⟩, hnum, hbefore, hlive⟩
    rw [hnum] at hrun
    have hafter :
        deadlineOf (setCounter env key (asI64 (num + 1)) db (calculateShardIndex env key)) key =
          some none := by
      rw [deadlineOf, ← entryAt, entryAt_setCounter]
      rfl
    cases hkeeps id _ _ _ hrun _ key deadline none hbefore hlive hafter
  · intro hdrops _ a db' logs hincr i k deadline after hbefore hlive hafter
    have hsame : deadlineOf (db' i) k = deadlineOf (db i) k := by
      by_cases hat : k ∈ [key] ∧ i = calculateShardIndex env k
      · obtain ⟨hk, rfl⟩ := hat
        obtain rfl := List.mem_singleton.mp hk
        cases hnum : currentNumber (stored env db k) with
        | ok num => exact absurd ⟨k, num, deadline, rfl, hnum, hbefore, hlive⟩ hdrops
        | error msg =>
          rw [hnum] at hrun
          obtain ⟨-, rfl, -⟩ := by simpa using hrun.symm.trans hincr
          rfl
      · rw [deadlineOf, handle_frame env ctx hincr i k hat, deadlineOf]
    exact Option.some.inj (hafter.symm.trans (hsame.trans hbefore))

/-- Exactly when a command keeps the deadlines: unless it is an `INCR` that counts
on a key with a deadline. -/
theorem keepsDeadlines_iff :
    KeepsDeadlines env ctx db command ↔ ¬ DropsDeadline env ctx db command := by
  by_cases hincr : ∃ key, command = .incr key
  · obtain ⟨key, rfl⟩ := hincr
    exact keepsDeadlines_incr
  · push Not at hincr
    refine iff_of_true ?_ ?_
    · intro hreplaces a db' logs hrun i key deadline after hbefore hlive hafter
      rcases handle_keeps hreplaces hincr hrun with hkeeps | hadds
      · exact Option.some.inj (hafter.symm.trans (hkeeps i key _ hbefore))
      · exact Option.some.inj ((hadds i key _ hafter).symm.trans hbefore)
    · rintro ⟨key, num, deadline, hcommand, -⟩
      exact hincr key hcommand

/-- A counter under `k` that lives for a minute. -/
def timedCounter : Memory :=
  onShard plainEnv [107] (·.insert [107] ⟨.string [49], some oneMinute⟩) newDb

example : (handle plainEnv plainCtx (.setEx [107] 60 [49])).run newDb =
    some (.reply okReply, timedCounter, [.setEx [107] 60 [49]]) := rfl

/-- `INCR k` makes it permanent. -/
theorem incr_drops_deadline :
    ¬ ∀ (env : Env) (ctx : Ctx) (db : Memory) (command : Command),
      KeepsDeadlines env ctx db command := by
  intro h
  refine keepsDeadlines_incr.mp (h plainEnv plainCtx timedCounter (.incr [107])) ?_
  exact ⟨[107], 1, _, rfl, rfl, rfl, by decide⟩

end Commands

section SetEx
variable {env : Env} {ctx : Ctx} {db : Memory} {key value : Bytes} {seconds : Int}

/-- `SETEX` replies with an error and changes nothing, or stores the value with a
deadline just these seconds after the clock reading. -/
def SetsDeadline (env : Env) (ctx : Ctx) (db : Memory) (key : Bytes) (seconds : Int)
    (value : Bytes) : Prop :=
  ∃ buffer db' logs, (handle env ctx (.setEx key seconds value)).run db =
    some (.reply buffer, db', logs) ∧
    (IsError buffer ∧ db' = db ∨ TouchesOnly env [key] db db' ∧
      ∃ deadline, entryAt env db' key = some ⟨.string value, some deadline⟩ ∧
        deadline.nanos = ctx.now.nanos + seconds * 10 ^ 9)

/-- What `SETEX` ends with, if the clock reaches the deadline. -/
theorem handleSetEx_run (env : Env) (db : Memory) (key value : Bytes) {deadline : SystemTime}
    (h : ctx.now.addSecs (asU64 seconds) = some deadline) :
    (handle env ctx (.setEx key seconds value)).run db =
      some (.reply okReply, onShard env key (·.insert key ⟨.string value, some deadline⟩) db,
        [.setEx key seconds value]) := by
  show (handleSetEx env ctx key seconds value).run db = _
  rw [(handleSetEx_writes env ctx h).run_eq]
  unfold handleSetEx
  rw [h]
  rfl

/-- Exactly when `SETEX` with seconds that its parser admits is total. -/
theorem setsDeadline_iff (hlo : -2 ^ 63 ≤ seconds) (hhi : seconds < 2 ^ 63) :
    SetsDeadline env ctx db key seconds value ↔
      0 ≤ seconds ∧ ctx.now.nanos / 10 ^ 9 + seconds < 2 ^ 63 := by
  have hcast : 0 ≤ seconds ∧ asU64 seconds = seconds.toNat ∨
      seconds < 0 ∧ asU64 seconds = (seconds + 2 ^ 64).toNat := by
    by_cases hneg : seconds < 0
    · exact Or.inr ⟨hneg, asU64_of_neg (by omega) hneg⟩
    · exact Or.inl ⟨by omega, asU64_of_fits (by omega) (by omega)⟩
  cases hd : ctx.now.addSecs (asU64 seconds) with
  | none =>
    refine iff_of_false ?_ ?_
    · rintro ⟨buffer, db', logs, hrun, -⟩
      rw [handle, handleSetEx, hd] at hrun
      cases hrun
    · rintro ⟨hpos, hreach⟩
      unfold SystemTime.addSecs at hd
      split at hd
      · cases hd
      · omega
  | some deadline =>
    have hrun := handleSetEx_run env db key value hd
    have hnanos := addSecs_nanos hd
    have hentry : entryAt env
        (onShard env key (·.insert key ⟨.string value, some deadline⟩) db) key =
        some ⟨.string value, some deadline⟩ := by
      rw [entryAt, onShard, Function.update_self, AList.lookup_insert]
    have hreach : ctx.now.nanos / 10 ^ 9 + asU64 seconds < 2 ^ 63 := by
      by_contra hover
      rw [SystemTime.addSecs, dif_neg hover] at hd
      cases hd
    constructor
    · rintro ⟨buffer, db', logs, hrun', hends⟩
      obtain ⟨rfl, rfl, -⟩ := by simpa using hrun.symm.trans hrun'
      rcases hends with ⟨herror, -⟩ | ⟨-, deadline', hentry', hexact⟩
      · exact absurd herror.head (IsAnswer.ok).head_ne
      · obtain ⟨⟩ := hentry.symm.trans hentry'
        omega
    · rintro ⟨hpos, -⟩
      refine ⟨_, _, _, hrun, Or.inr ⟨handle_frame env ctx hrun, deadline, hentry, ?_⟩⟩
      omega

/-- Five seconds after the epoch. -/
theorem setsDeadline_iff_five : SetsDeadline plainEnv plainCtx newDb [107] 5 [118] ↔
    0 ≤ (5 : Int) ∧ plainCtx.now.nanos / 10 ^ 9 + 5 < 2 ^ 63 :=
  setsDeadline_iff (by decide) (by decide)

/-- `SETEX k -1 v` ends the connection. -/
theorem setEx_panics :
    ¬ ∀ (env : Env) (ctx : Ctx) (db : Memory) (key : Bytes) (seconds : Int) (value : Bytes),
    -2 ^ 63 ≤ seconds → seconds < 2 ^ 63 → SetsDeadline env ctx db key seconds value := by
  intro h
  obtain ⟨buffer, db', logs, hrun, -⟩ :=
    h plainEnv plainCtx newDb [107] (-1) [118] (by decide) (by decide)
  cases hrun

end SetEx

end TitanKv
