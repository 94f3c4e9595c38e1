import TitanKv.Concurrent

/-! # The order in which commands take their locks

Every keyed command takes the locks of its `lockPlan`. `RPOPLPUSH` locks the
lower shard first; `MGET` and `SINTER` lock the first key's shard first, which
may be the higher one. A descending pair of read locks can only close a cycle
with an `RPOPLPUSH` that goes from its lower shard up to at most its higher one;
without such a pair no run deadlocks. -/

namespace TitanKv
open TwoPhase Runs

section Plans
variable (env : Env)

/-- The locks of a command in the order it takes them. -/
def lockPlan : Command → List (Index × Mode)
  | .set key _ | .setEx key _ _ | .get key | .del key | .incr key | .lPush key _ | .lPop key
  | .rPush key _ | .rPop key | .lTrim key _ _ | .hSet key _ _ | .sAdd key _ | .lRem key _ _ =>
    [(calculateShardIndex env key, .write)]
  | .strlen key | .type key | .ttl key | .pttl key | .exists key | .lRange key _ _ | .hGetAll key
  | .hGet key _ | .sMembers key | .scard key | .llen key | .hlen key =>
    [(calculateShardIndex env key, .read)]
  | .rPopLPush source destination =>
    let idxA := calculateShardIndex env source
    let idxB := calculateShardIndex env destination
    if idxA = idxB then [(idxA, .write)]
    else if idxA < idxB then [(idxA, .write), (idxB, .write)]
    else [(idxB, .write), (idxA, .write)]
  | .mGet keyA keyB | .sInter keyA keyB =>
    let idxA := calculateShardIndex env keyA
    let idxB := calculateShardIndex env keyB
    if idxA = idxB then [(idxA, .read)] else [(idxA, .read), (idxB, .read)]
  | _ => []

theorem follows_withEntry (key : Bytes) (respond : Option Entry → Bytes) :
    Follows [(calculateShardIndex env key, .read)] (withEntry env key respond) :=
  ⟨[], rfl, fun _ => trivial⟩

theorem follows_looksUp (ctx : Ctx) {command : Command} {k : Bytes}
    (h : command.looksUp = some k) :
    Follows [(calculateShardIndex env k, .read)] (handle env ctx command) := by
  obtain ⟨respond, hr⟩ := handle_looksUp ctx h
  rw [hr]
  exact follows_withEntry env k respond

variable {env}

theorem WritesKey.follows {key : Bytes} {p : Handler}
    {E : Shard → Option (Bytes × Shard × List Command) → Prop} (h : WritesKey env key p E) :
    Follows [(calculateShardIndex env key, .write)] p := by
  obtain ⟨arm, rfl, harm⟩ := h
  exact ⟨[], rfl, (harm _).1.follows [] _⟩

theorem follows_release (guard : MultiGuard) (k : Handler) (plan : List (Index × Mode)) :
    Follows plan (guard.release >>= fun _ => k) := by
  cases guard <;> trivial

/-- Under its guards `RPOPLPUSH` takes no lock. -/
theorem follows_moveUnder (guard : MultiGuard) (source destination : Bytes) :
    Follows [] (moveUnder guard source destination) := by
  unfold moveUnder popSource pushDestination
  simp only [Prog.get_bind, Prog.read_bind, Prog.modify_bind, Prog.update_bind]
  intro v
  dsimp only
  split
  · split
    · intro w
      dsimp only
      split <;> exact follows_release guard _ []
    · exact follows_release guard _ []
  · exact follows_release guard _ []

variable (env)

theorem follows_rPopLPush (source destination : Bytes) :
    Follows (lockPlan env (.rPopLPush source destination))
      (handleRPopLPush env source destination) := by
  unfold handleRPopLPush writeMultiShards lockPlan
  dsimp only
  split
  · exact ⟨[], rfl, follows_moveUnder _ source destination⟩
  · split <;> exact ⟨_, rfl, _, rfl, follows_moveUnder _ source destination⟩

theorem follows_withTwoValues (keyA keyB : Bytes)
    (respond : Option DataType → Option DataType → Bytes) :
    Follows (lockPlan env (.mGet keyA keyB)) (withTwoValues env keyA keyB respond) := by
  unfold withTwoValues readMultiShards lockPlan
  dsimp only
  split
  · exact ⟨[], rfl, fun _ _ => follows_release _ _ []⟩
  · split <;> exact ⟨_, rfl, _, rfl, fun _ _ => follows_release _ _ []⟩

/-- Every keyed command takes the locks of its plan. -/
theorem follows_handle (ctx : Ctx) {command : Command} (h : command.keyArgs ≠ []) :
    Follows (lockPlan env command) (handle env ctx command) := by
  cases command with
  | set key value => exact (handleSet_writes env key value).follows
  | setEx key seconds value =>
    show Follows [(calculateShardIndex env key, .write)] (handleSetEx env ctx key seconds value)
    cases hd : ctx.now.addSecs (asU64 seconds) with
    | none => unfold handleSetEx; rw [hd]; trivial
    | some deadline => exact (handleSetEx_writes env ctx hd).follows
  | get key => exact (handleGet_writes env ctx key).follows
  | del key => exact (handleDel_writes env key).follows
  | incr key => exact (handleIncr_writes env key).follows
  | lPush key value => exact (handleLPush_writes env key value).follows
  | lPop key => exact (handleLPop_writes env key).follows
  | rPush key value => exact (handleRPush_writes env key value).follows
  | rPop key => exact (handleRPop_writes env key).follows
  | lTrim key start stop => exact (handleLTrim_writes env key start stop).follows
  | hSet key field value => exact (handleHSet_writes env key field value).follows
  | sAdd key member => exact (handleSAdd_writes env key member).follows
  | lRem key count value => exact (handleLRem_writes env key value).follows
  | rPopLPush source destination => exact follows_rPopLPush env source destination
  | mGet keyA keyB =>
    show Follows (lockPlan env (.mGet keyA keyB)) (handleMGet env keyA keyB)
    exact follows_withTwoValues env keyA keyB _
  | sInter keyA keyB =>
    show Follows (lockPlan env (.mGet keyA keyB)) (handleSInter env keyA keyB)
    exact follows_withTwoValues env keyA keyB _
  | strlen key | «type» key | ttl key | pttl key | «exists» key | lRange key _ _ | hGetAll key
  | hGet key _ | sMembers key | scard key | llen key | hlen key =>
    exact follows_looksUp env ctx (k := key) rfl
  | _ => exact absurd rfl h

/-- A read of two shards that takes the higher one first, and an `RPOPLPUSH`
that goes from the lower of them up to at most the higher. -/
def Crosses : Command → Command → Prop
  | .mGet keyA keyB, .rPopLPush source destination
  | .sInter keyA keyB, .rPopLPush source destination =>
    let idxA := calculateShardIndex env keyA
    let idxB := calculateShardIndex env keyB
    let lower := min (calculateShardIndex env source) (calculateShardIndex env destination)
    let upper := max (calculateShardIndex env source) (calculateShardIndex env destination)
    idxB < idxA ∧ idxB = lower ∧ lower < upper ∧ upper ≤ idxA
  | _, _ => False

/-- The rank of waiting for shard `i` with the locks `pre`: the highest shard
involved, and above it the readers that wait for a lower one. -/
def rank (pre : List (Index × Mode)) (i : Index) : Nat :=
  match pre with
  | [(j, _)] => if i < j then 2 * j.val + 1 else 2 * i.val
  | _ => 2 * i.val

/-- The command moves an element across the shards `lower` and `upper`. -/
def Spans (command : Command) (lower upper : Index) : Prop :=
  ∃ source destination, command = .rPopLPush source destination ∧
    lower = min (calculateShardIndex env source) (calculateShardIndex env destination) ∧
    upper = max (calculateShardIndex env source) (calculateShardIndex env destination) ∧
    lower < upper

/-- A plan has at most one lock, or goes up under write locks, or is a pair of
read locks. -/
inductive PlanShape (command : Command) : List (Index × Mode) → Prop
  | none : PlanShape command []
  | one (l : Index × Mode) : PlanShape command [l]
  | move {lower upper : Index} (h : Spans env command lower upper) :
      PlanShape command [(lower, .write), (upper, .write)]
  | read {a b : Index} (h : a ≠ b)
      (hc : ∀ command' upper, b < a → Spans env command' b upper → ¬ Crosses env command command' →
        a < upper) : PlanShape command [(a, .read), (b, .read)]

theorem planShape (command : Command) : PlanShape env command (lockPlan env command) := by
  cases command with
  | rPopLPush source destination =>
    unfold lockPlan
    dsimp only
    split
    · exact .one _
    · rename_i hne
      split
      · rename_i hlt
        exact .move ⟨source, destination, rfl, (min_eq_left hlt.le).symm,
          (max_eq_right hlt.le).symm, hlt⟩
      · rename_i hnlt
        have hlt := lt_of_le_of_ne (not_lt.mp hnlt) (Ne.symm hne)
        exact .move ⟨source, destination, rfl, (min_eq_right hlt.le).symm,
          (max_eq_left hlt.le).symm, hlt⟩
  | mGet keyA keyB | sInter keyA keyB =>
    unfold lockPlan
    dsimp only
    split
    · exact .one _
    · rename_i hne
      refine .read hne ?_
      rintro _ upper hlt ⟨source, destination, rfl, heq, rfl, hup⟩ hcross
      by_contra hle
      exact hcross ⟨hlt, heq, heq ▸ hup, not_lt.mp hle⟩
  | set _ _ | setEx _ _ _ | get _ | del _ | incr _ | lPush _ _ | lPop _ | rPush _ _ | rPop _
  | lTrim _ _ _ | hSet _ _ _ | sAdd _ _ | lRem _ _ _ | strlen _ | «type» _ | ttl _ | pttl _
  | «exists» _ | lRange _ _ _ | hGetAll _ | hGet _ _ | sMembers _ | scard _ | llen _ | hlen _ =>
    exact .one _
  | _ => exact .none

variable {n : Nat}

/-- No task's command crosses another task's. -/
def NoCrossing (calls : Fin n → List KeyedRequest) : Prop :=
  ∀ t u, t ≠ u → ∀ r ∈ calls t, ∀ r' ∈ calls u, ¬ Crosses env r.1.command r'.1.command

/-- The second position of a plan: the upper write lock or the second read lock. -/
theorem second_lock {command : Command} {x l : Index × Mode} {xs post : List (Index × Mode)}
    (hs : PlanShape env command (x :: xs ++ l :: post)) :
    xs = [] ∧ PlanShape env command [x, l] := by
  generalize hp : x :: xs ++ l :: post = plan at hs
  have hlen := congrArg List.length hp
  simp only [List.cons_append, List.length_cons, List.length_append] at hlen
  have hxs : plan.length ≤ 2 → xs = [] ∧ post = [] := by
    intro hle
    exact ⟨List.length_eq_zero_iff.mp (by omega), List.length_eq_zero_iff.mp (by omega)⟩
  cases hs with
  | none => simp at hlen
  | one l => simp at hlen
  | move h =>
    obtain ⟨rfl, rfl⟩ := hxs (by simp)
    exact ⟨rfl, by rw [show [x, l] = _ from hp]; exact .move h⟩
  | read h hc =>
    obtain ⟨rfl, rfl⟩ := hxs (by simp)
    exact ⟨rfl, by rw [show [x, l] = _ from hp]; exact .read h hc⟩

theorem rank_ge (pre : List (Index × Mode)) (i : Index) : 2 * i.val ≤ rank pre i := by
  unfold rank
  split
  · split
    · rename_i h
      have := Fin.lt_def.mp h
      omega
    · exact Nat.le_refl _
  · exact Nat.le_refl _

/-- Waiting for `i` ranks below what holds `i` and waits for `j`. -/
theorem rank_up {command command' : Command} {pre post pre' post' : List (Index × Mode)}
    {i j : Index} {m m₁ m₂ : Mode} (hcross : ¬ Crosses env command command')
    (h : lockPlan env command = pre ++ (i, m) :: post)
    (h' : lockPlan env command' = pre' ++ (j, m₂) :: post') (hheld : (i, m₁) ∈ pre')
    (hconf : Conflict m m₁) : rank pre i < rank pre' j := by
  have hs := planShape env command
  have hs' := planShape env command'
  rw [h] at hs
  rw [h'] at hs'
  cases pre' with
  | nil => cases hheld
  | cons x' xs' =>
    obtain ⟨rfl, hpair'⟩ := second_lock env hs'
    obtain rfl := List.mem_singleton.mp hheld
    cases hpair' with
    | move hspan =>
      -- the holder goes up from `i` to `j` under write locks
      have hij : i < j := by obtain ⟨_, _, _, _, _, hlt⟩ := hspan; exact hlt
      have hj := rank_ge [(i, .write)] j
      have hij' := Fin.lt_def.mp hij
      cases pre with
      | nil => simp only [rank] at hj ⊢; omega
      | cons x xs =>
        obtain ⟨rfl, hpair⟩ := second_lock env hs
        obtain ⟨k, mk⟩ := x
        by_cases hik : i < k
        · cases hpair with
          | move hspan₂ =>
            obtain ⟨_, _, _, _, _, hki⟩ := hspan₂
            exact absurd hik (lt_asymm hki)
          | read _ hc =>
            have hkj := Fin.lt_def.mp (hc _ _ hik hspan hcross)
            simp only [rank, hik, if_true] at hj ⊢
            omega
        · simp only [rank, hik, if_false] at hj ⊢
          omega
    | read hne _ =>
      -- the holder has read locks, so the waiting lock is a write lock
      obtain rfl : m = .write := hconf.elim id fun hw => by cases hw
      have hi : rank pre i = 2 * i.val := by
        cases pre with
        | nil => rfl
        | cons x xs =>
          obtain ⟨rfl, hpair⟩ := second_lock env hs
          cases hpair with
          | move hspan =>
            obtain ⟨_, _, _, _, _, hlt⟩ := hspan
            simp [rank, lt_asymm hlt]
      have hne' := Fin.val_ne_of_ne hne
      rw [hi]
      unfold rank
      dsimp only
      split
      · omega
      · rename_i hnlt
        have := Fin.not_lt.mp hnlt
        have := Fin.le_def.mp this
        omega

theorem ranked_plans {calls : Fin n → List KeyedRequest} (h : NoCrossing env calls) :
    Ranked calls (fun r => lockPlan env r.1.command) rank :=
  fun t u htu c hc d hd _ _ _ _ _ _ _ _ _ hplan hplan' hheld hconf =>
    rank_up env (h t u htu c hc d hd) hplan hplan' hheld hconf

/-- While no task's command crosses another's, some task can always step. -/
theorem locks_deadlock_free (calls : Fin n → List KeyedRequest) (hcross : NoCrossing env calls)
    (mem₀ : Memory) (s : Clients n KeyedRequest)
    (hreach : Reachable (Sys.step (keyedProg env)) anyStep (Sys.init mem₀ calls) s)
    (hun : ∃ t, ¬ (s.clients t).Finished) : ∃ t s', s.step (keyedProg env) t = some s' :=
  deadlock_free (keyedProg_disciplined env)
    (fun request => follows_handle env request.1.ctx request.2) (ranked_plans env hcross) hreach hun

end Plans

section Cycle

def mGetRequest (keyA keyB : Bytes) : KeyedRequest :=
  ⟨⟨plainCtx, .mGet keyA keyB⟩, by simp [Command.keyArgs]⟩

def keyedMove (source destination : Bytes) : KeyedRequest :=
  ⟨⟨plainCtx, .rPopLPush source destination⟩, by simp [Command.keyArgs]⟩

def oneEach (first second : KeyedRequest) : Fin 2 → List KeyedRequest
  | 0 => [first]
  | 1 => [second]

/-- Each of two tasks starts its command and takes its first lock. -/
def firstLocks (first second : KeyedRequest) : Option (Clients 2 KeyedRequest) :=
  run (Sys.step (keyedProg firstByteEnv)) (Sys.init newDb (oneEach first second))
    ((List.finRange 2).flatMap fun t => [t, t])

theorem firstLocks_ascending :
    (firstLocks (mGetRequest [3] [5]) (keyedMove [7] [5])).isSome = true :=
  rfl

theorem noCrossing_ascending :
    NoCrossing firstByteEnv (oneEach (mGetRequest [3] [5]) (keyedMove [7] [5])) := by
  intro t u htu r hr r' hr'
  match t, u with
  | 0, 0 => exact absurd rfl htu
  | 1, 1 => exact absurd rfl htu
  | 0, 1 =>
    obtain rfl := List.mem_singleton.mp hr
    obtain rfl := List.mem_singleton.mp hr'
    exact fun h => absurd h.1 (by decide)
  | 1, 0 =>
    obtain rfl := List.mem_singleton.mp hr
    obtain rfl := List.mem_singleton.mp hr'
    exact id

theorem locks_deadlock_free_ascending :
    ∃ t s', ((firstLocks (mGetRequest [3] [5]) (keyedMove [7] [5])).get
      firstLocks_ascending).step (keyedProg firstByteEnv) t = some s' :=
  locks_deadlock_free firstByteEnv _ noCrossing_ascending newDb _
    (Reachable.run .init _ (Option.some_get firstLocks_ascending).symm)
    ⟨0, Client.not_finished rfl⟩

theorem firstLocks_crossing :
    (firstLocks (mGetRequest [5] [3]) (keyedMove [3] [5])).isSome = true :=
  rfl

/-- `MGET` holds shard 5 and waits for 3; `RPOPLPUSH` holds 3 and waits for 5. -/
theorem locks_deadlock : ¬ ∀ (env : Env) (n : Nat) (calls : Fin n → List KeyedRequest)
    (mem₀ : Memory) (s : Clients n KeyedRequest),
    Reachable (Sys.step (keyedProg env)) anyStep (Sys.init mem₀ calls) s →
    (∃ t, ¬ (s.clients t).Finished) → ∃ t s', s.step (keyedProg env) t = some s' := by
  intro h
  obtain ⟨t, s', hs⟩ := h firstByteEnv 2 _ newDb _
    (Reachable.run .init _ (Option.some_get firstLocks_crossing).symm)
    ⟨0, Client.not_finished rfl⟩
  have hnone : ∀ t, ((firstLocks (mGetRequest [5] [3]) (keyedMove [3] [5])).get
      firstLocks_crossing).step (keyedProg firstByteEnv) t = none := fun t =>
    match t with
    | 0 => rfl
    | 1 => rfl
  rw [hnone t] at hs
  cases hs

end Cycle

end TitanKv
