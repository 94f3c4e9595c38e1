import TitanKv.Effects

/-! # The reliable queue

Producers push values to a pending list, workers move them to a processing list
and remove them from it when done, and a recovery moves them back. No value is
lost or duplicated on the way: the two lists hold the values that were there or
were pushed and that no worker has removed. -/

namespace TitanKv
open Local TwoPhase

namespace Keyspace

/-- The elements of the list under a key. -/
def items (ks : Keyspace) (key : Bytes) : List Bytes :=
  match ks key with
  | some ⟨.list list, _⟩ => list
  | _ => []

/-- A key that is absent or holds a list. -/
def IsQueue (ks : Keyspace) (key : Bytes) : Prop :=
  ks key = none ∨ ∃ list expires, ks key = some ⟨.list list, expires⟩

/-- Both keys are queues. -/
def Queues (ks : Keyspace) (p q : Bytes) : Prop := IsQueue ks p ∧ IsQueue ks q

/-- The occurrences of a value in two lists. -/
def total (ks : Keyspace) (p q v : Bytes) : Nat := (items ks p).count v + (items ks q).count v

section Lists
variable {ks : Keyspace} {key k : Bytes} {f : List Bytes → List Bytes} {val : Bytes}

theorem items_of_eq {ks' : Keyspace} (h : ks' k = ks k) : items ks' k = items ks k := by
  rw [items, h, items]

theorem IsQueue.of_eq {ks' : Keyspace} (hq : IsQueue ks k) (h : ks' k = ks k) : IsQueue ks' k := by
  rwa [IsQueue, h]

/-- A growing command on a queue changes its elements. -/
theorem items_alter (h : IsQueue ks key) :
    items (onKey (Item.alter (.list []) (Item.changeList f)) key ks) key = f (items ks key) ∧
      IsQueue (onKey (Item.alter (.list []) (Item.changeList f)) key ks) key := by
  rw [items, items, IsQueue, onKey_self]
  rcases h with h | ⟨list, expires, h⟩
  · rw [h]
    exact ⟨rfl, Or.inr ⟨_, _, rfl⟩⟩
  · rw [h]
    exact ⟨rfl, Or.inr ⟨_, _, rfl⟩⟩

/-- So does a command on an existing list, if it leaves the empty list alone. -/
theorem items_onList (hf : f [] = []) (h : IsQueue ks key) :
    items (onKey (Item.onList f) key ks) key = f (items ks key) ∧
      IsQueue (onKey (Item.onList f) key ks) key := by
  rw [items, items, IsQueue, onKey_self]
  rcases h with h | ⟨list, expires, h⟩
  · rw [h]
    exact ⟨hf.symm, Or.inl rfl⟩
  · rw [h]
    exact ⟨rfl, Or.inr ⟨_, _, rfl⟩⟩

theorem total_comm (ks : Keyspace) (p q v : Bytes) : total ks p q v = total ks q p v :=
  Nat.add_comm _ _

/-- A move between two queues keeps the elements of the two together. -/
theorem total_move {source destination : Bytes} (hne : source ≠ destination)
    (hq : Queues ks source destination) :
    Queues (move source destination ks) source destination ∧
      ∀ v, total (move source destination ks) source destination v =
        total ks source destination v := by
  unfold move
  cases hlast : Item.last? (ks source) with
  | none => exact ⟨hq, fun _ => rfl⟩
  | some val =>
    dsimp only
    generalize hks : onKey (Item.onList List.dropLast) source ks = ks'
    have hkeep : ks' destination = ks destination := by rw [← hks, onKey_of_ne _ _ hne.symm]
    obtain ⟨hpopped, hs'⟩ := items_onList (f := List.dropLast) rfl hq.1
    obtain ⟨hpushed, hd'⟩ := items_alter (f := fun list => val :: list) (hq.2.of_eq hkeep)
    rw [hks] at hpopped hs'
    have hsource : onKey (Item.pushFront val) destination ks' source = ks' source :=
      onKey_of_ne _ _ hne
    have hsplit : items ks source = (items ks source).dropLast ++ [val] := by
      rcases hq.1 with h | ⟨list, expires, h⟩
      · rw [h] at hlast
        cases hlast
      · rw [h] at hlast
        rw [items, h]
        exact (List.dropLast_append_getLast? val hlast).symm
    refine ⟨⟨hs'.of_eq hsource, hd'⟩, fun v => ?_⟩
    rw [total, items_of_eq hsource, hpopped, Item.pushFront, hpushed, items_of_eq hkeep, total]
    conv_rhs => rw [hsplit]
    rw [List.count_cons, List.count_append, List.count_singleton]
    omega

/-- A change of one list that adds to the occurrences of a value and takes from them. -/
theorem total_change {ks' : Keyspace} {p q : Bytes} (added taken : Bytes → Nat) (hq : Queues ks p q)
    (hkeep : ks' q = ks q) (hp : IsQueue ks' p)
    (hcount : ∀ v, (items ks' p).count v + taken v = (items ks p).count v + added v) :
    Queues ks' p q ∧ ∀ v, total ks' p q v + taken v = total ks p q v + added v := by
  refine ⟨⟨hp, hq.2.of_eq hkeep⟩, fun v => ?_⟩
  have := hcount v
  rw [total, items_of_eq hkeep, total]
  omega

end Lists

end Keyspace

section Steps
variable (env : Env) (ctx : Ctx) {db : Memory} {p q : Bytes}
open Keyspace

/-- The commands of the pattern, for the pending and the processing list. -/
def QueueCommand (p q : Bytes) : Command → Prop
  | .lPush key _ | .rPush key _ => key = p
  | .rPopLPush source destination => source = p ∧ destination = q ∨ source = q ∧ destination = p
  | .lRem key _ _ => key = q
  | _ => False

/-- How often a command pushes a value. -/
def Command.pushes (v : Bytes) : Command → Nat
  | .lPush _ value | .rPush _ value => if value = v then 1 else 0
  | _ => 0

/-- How often a command removed a value, by its reply. -/
def Command.removes (v : Bytes) (reply : Outcome) : Command → Nat
  | .lRem _ _ value => if value = v ∧ reply = .reply (lit ":1\r\n") then 1 else 0
  | _ => 0

theorem value?_of_isQueue {key : Bytes} (h : IsQueue (view env db) key) :
    ∃ list, ((db (calculateShardIndex env key)).orInsertWith key emptyList).value? key =
      some (.list list) := by
  rw [value?_orInsertWith]
  unfold IsQueue view Shard.items at h
  cases hl : (db (calculateShardIndex env key)).lookup key with
  | none => exact ⟨[], by simp [Shard.value?, hl, emptyList]⟩
  | some entry =>
    rw [hl] at h
    obtain ⟨value, expiresAt⟩ := entry
    cases value with
    | list list => exact ⟨list, by simp [Shard.value?, hl]⟩
    | string _ | hash _ | set _ => simp [Entry.item, DataType.toValue] at h

theorem items_of_value? {key : Bytes} {list : List Bytes}
    (h : (db (calculateShardIndex env key)).value? key = some (.list list)) :
    items (view env db) key = list := by
  obtain ⟨entry, hl, hv⟩ := Option.map_eq_some_iff.mp h
  rw [items, view, Shard.items, hl, Option.map_some, Entry.item, hv]
  rfl

theorem handleLPush_logs {key : Bytes} (value : Bytes) (h : IsQueue (view env db) key) :
    ∃ a db', (handleLPush env key value).run db = some (a, db', [.lPush key value]) := by
  obtain ⟨list, hv⟩ := value?_of_isQueue env h
  rw [(handleLPush_writes env key value).run_eq, handleLPush, runCell_withWrite]
  simp [hv]

theorem handleRPush_logs {key : Bytes} (value : Bytes) (h : IsQueue (view env db) key) :
    ∃ a db', (handleRPush env key value).run db = some (a, db', [.rPush key value]) := by
  obtain ⟨list, hv⟩ := value?_of_isQueue env h
  rw [(handleRPush_writes env key value).run_eq, handleRPush, runCell_withWrite]
  simp [hv]

/-- `LREM` replies `:1` where it removes an element, and changes nothing elsewhere. -/
theorem handleLRem_ends (key value : Bytes) (db : Memory) :
    (∃ db', (handleLRem env key value).run db =
        some (.reply (lit ":1\r\n"), db', [.lRem key 1 value]) ∧
      value ∈ items (view env db) key) ∨
    (handleLRem env key value).run db = some (.reply (lit ":0\r\n"), db, []) := by
  rw [(handleLRem_writes env key value).run_eq, handleLRem, runCell_withWrite]
  simp only [Prog.get_bind, runCell_read]
  split
  · rename_i list hv
    split
    · rename_i hmem
      rw [items_of_value? env hv]
      exact Or.inl ⟨_, rfl, hmem⟩
    · exact Or.inr (by simp)
  · exact Or.inr (by simp)

theorem view_of_logs {p : Handler} (h : Agrees env p) {a : Outcome} {db' : Memory} {c : Command}
    (hrun : p.run db = some (a, db', [c])) : view env db' = apply c (view env db) := by
  obtain ⟨a', db'', logs, hrun', hview⟩ := h db
  rw [hrun] at hrun'
  obtain ⟨rfl, rfl, rfl⟩ := Option.some.inj hrun'
  exact hview

/-- Growing the pending list. -/
theorem total_push {ks : Keyspace} {f : List Bytes → List Bytes} (value : Bytes) (hne : p ≠ q)
    (hq : Queues ks p q)
    (hf : ∀ list v, (f list).count v = list.count v + if value = v then 1 else 0) :
    let ks' := onKey (Item.alter (.list []) (Item.changeList f)) p ks
    Queues ks' p q ∧ ∀ v, total ks' p q v + 0 = total ks p q v + if value = v then 1 else 0 := by
  obtain ⟨hitems, hp'⟩ := items_alter (f := f) hq.1
  refine total_change _ (fun _ => 0) hq (onKey_of_ne _ _ hne.symm) hp' fun v => ?_
  rw [hitems, hf, Nat.add_zero]

/-- Taking an element off the processing list. -/
theorem total_erase {ks : Keyspace} {value : Bytes} (hne : p ≠ q) (hq : Queues ks p q)
    (hmem : value ∈ items ks q) :
    let ks' := onKey (Item.onList fun list => list.erase value) q ks
    Queues ks' p q ∧ ∀ v, total ks' p q v + (if value = v then 1 else 0) = total ks p q v := by
  obtain ⟨hitems, hq'⟩ := items_onList (f := fun list => list.erase value) rfl hq.2
  obtain ⟨hqueues, htotal⟩ := total_change (q := p) (fun _ => 0)
    (fun v => if value = v then 1 else 0) ⟨hq.2, hq.1⟩ (onKey_of_ne _ _ hne) hq' fun v => by
      have hpos := List.count_pos_iff.mpr hmem
      rw [hitems, List.count_erase]
      by_cases hv : value = v
      · subst hv
        simp
        omega
      · simp [hv]
  refine ⟨⟨hqueues.2, hqueues.1⟩, fun v => ?_⟩
  rw [total_comm, htotal v, total_comm]
  rfl

/-- Every command of the pattern ends, leaves queues behind and keeps the balance. -/
theorem queue_step {command : Command} (hne : p ≠ q) (hc : QueueCommand p q command)
    (hq : Queues (view env db) p q) :
    ∃ a db' logs, (handle env ctx command).run db = some (a, db', logs) ∧
      Queues (view env db') p q ∧
      ∀ v, total (view env db') p q v + command.removes v a =
        total (view env db) p q v + command.pushes v := by
  cases command with
  | lPush key value =>
    obtain rfl : key = p := hc
    obtain ⟨a, db', hrun⟩ := handleLPush_logs env value hq.1
    have hview := view_of_logs env (handleLPush_writes env key value).agrees hrun
    refine ⟨a, db', _, hrun, ?_⟩
    rw [hview]
    refine total_push (f := fun list => value :: list) value hne hq fun list v => ?_
    rw [List.count_cons]
    simp
  | rPush key value =>
    obtain rfl : key = p := hc
    obtain ⟨a, db', hrun⟩ := handleRPush_logs env value hq.1
    have hview := view_of_logs env (handleRPush_writes env key value).agrees hrun
    refine ⟨a, db', _, hrun, ?_⟩
    rw [hview]
    refine total_push (f := fun list => list ++ [value]) value hne hq fun list v => ?_
    rw [List.count_append, List.count_singleton]
    simp
  | rPopLPush source destination =>
    have hrun := handleRPopLPush_run env source destination db
    cases hlast : lastOf env source db with
    | none =>
      rw [hlast] at hrun
      exact ⟨_, _, _, hrun, hq, fun v => rfl⟩
    | some popped =>
      rw [hlast] at hrun
      have hview := view_of_logs env (handleRPopLPush_agrees env source destination) hrun
      refine ⟨_, _, _, hrun, ?_⟩
      rw [hview]
      rcases hc with ⟨rfl, rfl⟩ | ⟨rfl, rfl⟩
      · exact total_move hne hq
      · obtain ⟨hqueues, htotal⟩ := total_move hne.symm ⟨hq.2, hq.1⟩
        refine ⟨⟨hqueues.2, hqueues.1⟩, fun v => ?_⟩
        rw [total_comm]
        exact (htotal v).trans (total_comm _ _ _ _)
  | lRem key count value =>
    obtain rfl : key = q := hc
    rcases handleLRem_ends env key value db with ⟨db', hrun, hmem⟩ | hrun
    · have hview := view_of_logs env (handleLRem_writes env key value).agrees hrun
      refine ⟨_, db', _, hrun, ?_⟩
      rw [hview]
      obtain ⟨hqueues, htotal⟩ := total_erase hne hq hmem
      refine ⟨hqueues, fun v => ?_⟩
      rw [← htotal v]
      simp [Command.removes, Command.pushes]
      rfl
    · have hzero : lit ":0\r\n" ≠ lit ":1\r\n" := by decide
      refine ⟨_, _, _, hrun, hq, fun v => ?_⟩
      simp [Command.removes, Command.pushes, hzero]
  | _ => exact hc.elim

/-- The pushes of a value among the requests. -/
def pushesOf (v : Bytes) (requests : List Request) : Nat :=
  (requests.map fun request => request.command.pushes v).sum

/-- The requests that removed a value, by their replies. -/
def removesOf (v : Bytes) (requests : List Request) (replies : List Outcome) : Nat :=
  (List.zipWith (fun request reply => request.command.removes v reply) requests replies).sum

/-- Whatever the order the clients' commands take effect in, the two lists hold
what was there or was pushed and has not been removed. -/
theorem queue_conserved {requests : List Request} (hne : p ≠ q)
    (hc : ∀ request ∈ requests, QueueCommand p q request.command) (hq : Queues (view env db) p q) :
    ∃ replies db', execAll (Request.handle env) requests db = some (replies, db') ∧
      Queues (view env db') p q ∧
      ∀ v, total (view env db) p q v + pushesOf v requests =
        total (view env db') p q v + removesOf v requests replies := by
  induction requests generalizing db with
  | nil => exact ⟨[], db, rfl, hq, fun v => rfl⟩
  | cons request requests ih =>
    obtain ⟨a, db₁, logs, hrun, hq₁, hstep⟩ :=
      queue_step env request.ctx hne (hc request (by simp)) hq
    obtain ⟨replies, db', hexec, hq', hrest⟩ :=
      ih (fun r hr => hc r (List.mem_cons_of_mem _ hr)) hq₁
    have hhead : (request.handle env).run db = some (a, db₁, logs) := hrun
    refine ⟨a :: replies, db', by simp [execAll, hhead, hexec], hq', fun v => ?_⟩
    have hs := hstep v
    have hr := hrest v
    simp only [pushesOf, removesOf, List.map_cons, List.sum_cons, List.zipWith_cons_cons] at hr ⊢
    omega

theorem queue_conserved_worker :
    let requests : List Request :=
  [⟨plainCtx, .lPush [112] [120]⟩, ⟨plainCtx, .rPopLPush [112] [113]⟩,
      ⟨plainCtx, .lRem [113] 1 [120]⟩, ⟨plainCtx, .rPopLPush [113] [112]⟩]
    ∃ replies db', execAll (Request.handle plainEnv) requests newDb = some (replies, db') ∧
      Queues (view plainEnv db') [112] [113] ∧
      ∀ v, total (view plainEnv newDb) [112] [113] v + pushesOf v requests =
        total (view plainEnv db') [112] [113] v + removesOf v requests replies :=
  queue_conserved plainEnv (by decide) (by simp [QueueCommand]) ⟨Or.inl rfl, Or.inl rfl⟩

end Steps

end TitanKv
