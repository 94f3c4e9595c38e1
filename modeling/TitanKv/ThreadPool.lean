import TitanKv.Lib.Inevitable

/-! # The thread pool

Worker threads that share one receiver behind a mutex. A worker takes the mutex, waits
in `recv` while it holds it, and runs its job without it. Dropping the pool closes the
channel and joins the workers in their order; a job that panics ends its worker, and
joining that worker panics too.

`submitted`, `taken`, `completed` and `failed` record the jobs; no step reads them. -/

namespace TitanKv
open Runs

/-- A worker's thread: before the lock, in `recv`, in a job, past its loop, or ended by
a panic. -/
inductive Thread (Job : Type) where
  | locking
  | receiving
  | running (job : Job)
  | exited
  | panicked

/-- The owner of the pool: it may send jobs, is in `drop` with some workers joined, or
`drop` has returned or panicked. -/
inductive Owner where
  | holding
  | joining (joined : Nat)
  | dropped
  | unwound
  deriving DecidableEq

structure ThreadPool (Job : Type) where
  workers : List (Thread Job)
  sender : Bool
  queue : List Job
  owner : Owner
  submitted : List Job
  taken : List Job
  completed : List Job
  failed : List Job

inductive PoolEvent (Job : Type) where
  | execute (job : Job)
  | lock (i : Nat)
  | recv (i : Nat)
  | finish (i : Nat) (isOk : Bool)
  | drop
  | join

variable {Job : Type}

namespace Thread

def job? : Thread Job → Option Job
  | .running job => some job
  | _ => none

def isReceiving : Thread Job → Bool
  | .receiving => true
  | _ => false

def isPanicked : Thread Job → Bool
  | .panicked => true
  | _ => false

/-- The thread has ended, and dropped its share of the receiver. -/
def hasEnded : Thread Job → Bool
  | .exited | .panicked => true
  | _ => false

end Thread

namespace ThreadPool

/-- `assert!(size > 0)`. -/
def new (size : Nat) : Option (ThreadPool Job) :=
  if 0 < size then
    some
      { workers := List.replicate size .locking
        sender := true
        queue := []
        owner := .holding
        submitted := []
        taken := []
        completed := []
        failed := [] }
  else none

def setWorker (pool : ThreadPool Job) (i : Nat) (thread : Thread Job) : ThreadPool Job :=
  { pool with workers := pool.workers.set i thread }

/-- `send(job).unwrap()`, which panics once no worker holds the receiver. -/
def execute (pool : ThreadPool Job) (job : Job) : Option (ThreadPool Job) :=
  if pool.sender && !pool.workers.all Thread.hasEnded then
    some { pool with queue := pool.queue ++ [job], submitted := pool.submitted ++ [job] }
  else none

def lock (pool : ThreadPool Job) (i : Nat) : Option (ThreadPool Job) :=
  match pool.workers[i]? with
  | some .locking =>
    if pool.workers.any Thread.isReceiving then none else some (pool.setWorker i .receiving)
  | _ => none

/-- `recv` returns the next job, or an error once the channel is closed and empty. -/
def recv (pool : ThreadPool Job) (i : Nat) : Option (ThreadPool Job) :=
  match pool.workers[i]? with
  | some .receiving => match pool.queue with
    | job :: queue =>
      some { pool.setWorker i (.running job) with queue := queue, taken := pool.taken ++ [job] }
    | [] => if pool.sender then none else some (pool.setWorker i .exited)
  | _ => none

def finish (pool : ThreadPool Job) (i : Nat) (isOk : Bool) : Option (ThreadPool Job) :=
  match pool.workers[i]? with
  | some (.running job) =>
    if isOk then some { pool.setWorker i .locking with completed := pool.completed ++ [job] }
    else some { pool.setWorker i .panicked with failed := pool.failed ++ [job] }
  | _ => none

/-- `drop(self.sender.take())`. -/
def drop (pool : ThreadPool Job) : Option (ThreadPool Job) :=
  match pool.owner with
  | .holding => some { pool with sender := false, owner := .joining 0 }
  | _ => none

/-- `thread.join().unwrap()` of the next worker. -/
def join (pool : ThreadPool Job) : Option (ThreadPool Job) :=
  match pool.owner with
  | .joining joined => match pool.workers[joined]? with
    | none => some { pool with owner := .dropped }
    | some .exited => some { pool with owner := .joining (joined + 1) }
    | some .panicked => some { pool with owner := .unwound }
    | some _ => none
  | _ => none

def step (pool : ThreadPool Job) : PoolEvent Job → Option (ThreadPool Job)
  | .execute job => pool.execute job
  | .lock i => pool.lock i
  | .recv i => pool.recv i
  | .finish i isOk => pool.finish i isOk
  | .drop => pool.drop
  | .join => pool.join

/-- The steps of the workers. -/
def workStep (pool : ThreadPool Job) : PoolEvent Job → Option (ThreadPool Job)
  | .lock i => pool.lock i
  | .recv i => pool.recv i
  | .finish i isOk => pool.finish i isOk
  | _ => none

end ThreadPool

section Steps
variable {pool pool' : ThreadPool Job} {i : Nat} {job : Job} {thread : Thread Job}

namespace ThreadPool

theorem execute_some (h : pool.execute job = some pool') :
    pool.sender = true ∧ (∃ thread ∈ pool.workers, thread.hasEnded = false) ∧
      pool' = { pool with queue := pool.queue ++ [job], submitted := pool.submitted ++ [job] } := by
  unfold execute at h
  split at h
  · rename_i hopen
    rw [Bool.and_eq_true, Bool.not_eq_true', List.all_eq_false] at hopen
    obtain ⟨hsender, thread, hmem, hended⟩ := hopen
    exact ⟨hsender, ⟨thread, hmem, by simpa using hended⟩, (Option.some.inj h).symm⟩
  · cases h

theorem lock_some (h : pool.lock i = some pool') :
    pool.workers[i]? = some .locking ∧ pool.workers.any Thread.isReceiving = false ∧
      pool' = pool.setWorker i .receiving := by
  unfold lock at h
  split at h
  · rename_i hthread
    split at h
    · cases h
    · rename_i hfree
      exact ⟨hthread, by simpa using hfree, (Option.some.inj h).symm⟩
  · cases h

theorem recv_some (h : pool.recv i = some pool') : pool.workers[i]? = some .receiving ∧
    ((∃ job queue, pool.queue = job :: queue ∧
        pool' = { pool.setWorker i (.running job) with
          queue := queue, taken := pool.taken ++ [job] }) ∨
      pool.queue = [] ∧ pool.sender = false ∧ pool' = pool.setWorker i .exited) := by
  unfold recv at h
  split at h
  · rename_i hthread
    refine ⟨hthread, ?_⟩
    split at h
    · rename_i job queue hqueue
      exact Or.inl ⟨job, queue, hqueue, (Option.some.inj h).symm⟩
    · rename_i hqueue
      split at h
      · cases h
      · rename_i hsender
        exact Or.inr ⟨hqueue, by simpa using hsender, (Option.some.inj h).symm⟩
  · cases h

theorem finish_some {isOk : Bool} (h : pool.finish i isOk = some pool') :
    ∃ job, pool.workers[i]? = some (.running job) ∧
      (pool' = { pool.setWorker i .locking with completed := pool.completed ++ [job] } ∨
        pool' = { pool.setWorker i .panicked with failed := pool.failed ++ [job] }) := by
  unfold finish at h
  split at h
  · rename_i job hthread
    refine ⟨job, hthread, ?_⟩
    split at h
    · exact Or.inl (Option.some.inj h).symm
    · exact Or.inr (Option.some.inj h).symm
  · cases h

theorem drop_some (h : pool.drop = some pool') :
    pool.owner = .holding ∧ pool' = { pool with sender := false, owner := .joining 0 } := by
  unfold drop at h
  split at h
  · exact ⟨‹_›, (Option.some.inj h).symm⟩
  · cases h

theorem join_some (h : pool.join = some pool') : ∃ joined, pool.owner = .joining joined ∧
    (pool.workers[joined]? = none ∧ pool' = { pool with owner := .dropped } ∨
      pool.workers[joined]? = some .exited ∧ pool' = { pool with owner := .joining (joined + 1) } ∨
      pool.workers[joined]? = some .panicked ∧ pool' = { pool with owner := .unwound }) := by
  unfold join at h
  split at h
  · rename_i joined howner
    refine ⟨joined, howner, ?_⟩
    split at h
    · exact Or.inl ⟨‹_›, (Option.some.inj h).symm⟩
    · exact Or.inr (Or.inl ⟨‹_›, (Option.some.inj h).symm⟩)
    · exact Or.inr (Or.inr ⟨‹_›, (Option.some.inj h).symm⟩)
    · cases h
  · cases h

end ThreadPool

end Steps

/-- What the threads and the owner keep, whichever of them steps. -/
structure ThreadPool.Sound (size : Nat) (pool : ThreadPool Job) : Prop where
  size_eq : pool.workers.length = size
  inOrder : pool.submitted = pool.taken ++ pool.queue
  accounted : pool.taken.Perm (pool.workers.filterMap Thread.job? ++
    (pool.completed ++ pool.failed))
  oneReceives : pool.workers.countP Thread.isReceiving ≤ 1
  lost : pool.workers.countP Thread.isPanicked = pool.failed.length
  drained : Thread.exited ∈ pool.workers → pool.sender = false ∧ pool.queue = []
  isOpen : pool.sender = true ↔ pool.owner = .holding
  joined : ∀ k, pool.owner = .joining k → k ≤ size ∧ ∀ i < k, pool.workers[i]? = some .exited
  dropped : pool.owner = .dropped → ∀ thread ∈ pool.workers, thread = .exited
  unwound : pool.owner = .unwound → Thread.panicked ∈ pool.workers

namespace ThreadPool
variable {size : Nat} {pool pool' : ThreadPool Job}

theorem Sound.of_new (h : new size = some pool) : pool.Sound size := by
  unfold new at h
  split at h
  · obtain rfl := Option.some.inj h
    refine ⟨List.length_replicate, rfl, ?_, ?_, ?_, fun hmem => ?_, by simp, nofun, nofun, nofun⟩
    · simp [List.filterMap_replicate, Thread.job?]
    · simp [List.countP_replicate, Thread.isReceiving]
    · simp [List.countP_replicate, Thread.isPanicked]
    · cases List.eq_of_mem_replicate hmem
  · cases h

/-- What is known of the threads that have ended survives a step of another one. -/
theorem Sound.ended_setWorker {i : Nat} {old : Thread Job} (h : pool.Sound size)
    (hold : pool.workers[i]? = some old) (hlive : old.hasEnded = false) (thread : Thread Job) :
    (∀ k, pool.owner = .joining k → k ≤ size ∧ ∀ j < k, (pool.setWorker i thread).workers[j]? =
      some .exited) ∧
      (pool.owner = .dropped → False) ∧
      (pool.owner = .unwound → Thread.panicked ∈ (pool.setWorker i thread).workers) := by
  refine ⟨fun k hk => ⟨(h.joined k hk).1, fun j hj => ?_⟩, fun hdropped => ?_, fun hunwound => ?_⟩
  · have hj' := (h.joined k hk).2 j hj
    have hne : i ≠ j := fun heq => by
      rw [← heq, hold] at hj'
      obtain rfl := Option.some.inj hj'
      cases hlive
    rw [← hj']
    exact List.getElem?_set_ne hne
  · have := h.dropped hdropped old (List.mem_of_getElem? hold)
    subst this
    cases hlive
  · obtain ⟨rest, hperm, hset⟩ := exists_rest hold
    rcases List.mem_cons.mp (hperm.mem_iff.mp (h.unwound hunwound)) with rfl | hmem
    · cases hlive
    · exact (hset thread).mem_iff.mpr (List.mem_cons_of_mem _ hmem)

theorem Sound.execute (h : pool.Sound size) {job : Job} (he : pool.execute job = some pool') :
    pool'.Sound size := by
  obtain ⟨hopen, -, rfl⟩ := execute_some he
  refine ⟨h.size_eq, ?_, h.accounted, h.oneReceives, h.lost, fun hmem => ?_, h.isOpen, h.joined,
    h.dropped, h.unwound⟩
  · rw [h.inOrder, List.append_assoc]
  · rw [(h.drained hmem).1] at hopen
    cases hopen

theorem Sound.lock (h : pool.Sound size) {i : Nat} (he : pool.lock i = some pool') :
    pool'.Sound size := by
  obtain ⟨hold, hfree, rfl⟩ := lock_some he
  obtain ⟨hjoined, hdropped, hunwound⟩ := h.ended_setWorker hold rfl .receiving
  obtain ⟨rest, hperm, hset⟩ := exists_rest hold
  have hnone : pool.workers.countP Thread.isReceiving = 0 :=
    List.countP_eq_zero.mpr fun thread hmem => by simpa using List.any_eq_false.mp hfree thread hmem
  have hlost := h.lost
  rw [hperm.countP_eq] at hlost hnone
  refine ⟨(List.length_set ..).trans h.size_eq, h.inOrder, ?_, ?_, ?_, fun hmem => h.drained ?_,
    h.isOpen, hjoined, fun hd => (hdropped hd).elim, hunwound⟩
  · exact h.accounted.trans
      (((hperm.filterMap Thread.job?).trans
        ((hset .receiving).filterMap Thread.job?).symm).append_right _)
  · exact ((hset _).countP_eq _).le.trans
      (by rw [List.countP_cons_of_pos rfl]; exact Nat.succ_le_succ hnone.le)
  · exact ((hset _).countP_eq _).trans hlost
  · rw [hperm.mem_iff]
    simpa using (hset _).mem_iff.mp hmem

theorem Sound.recv (h : pool.Sound size) {i : Nat} (he : pool.recv i = some pool') :
    pool'.Sound size := by
  obtain ⟨hold, hcases⟩ := recv_some he
  have hthread := h.ended_setWorker hold rfl
  obtain ⟨rest, hperm, hset⟩ := exists_rest hold
  have hjobs := h.accounted.trans ((hperm.filterMap Thread.job?).append_right _)
  have hone := h.oneReceives
  have hlost := h.lost
  rw [hperm.countP_eq] at hone hlost
  have hnone : rest.countP Thread.isReceiving = 0 := by
    rw [List.countP_cons_of_pos rfl] at hone
    omega
  rcases hcases with ⟨job, queue, hqueue, rfl⟩ | ⟨hempty, hclosed, rfl⟩
  · obtain ⟨hjoined, hdropped, hunwound⟩ := hthread (.running job)
    refine ⟨(List.length_set ..).trans h.size_eq, ?_, ?_, ?_, ?_, fun hmem => ?_, h.isOpen, hjoined,
      fun hd => (hdropped hd).elim, hunwound⟩
    · show pool.submitted = pool.taken ++ [job] ++ queue
      rw [h.inOrder, hqueue, List.append_assoc, List.singleton_append]
    · have hmoved :=
        ((hset (.running job)).filterMap Thread.job?).append_right (pool.completed ++ pool.failed)
      exact (List.perm_append_singleton job _).trans ((hjobs.cons job).trans hmoved.symm)
    · exact (((hset _).countP_eq _).trans hnone).le.trans (Nat.zero_le 1)
    · exact ((hset _).countP_eq _).trans hlost
    · have hmem' : Thread.exited ∈ pool.workers := by
        rw [hperm.mem_iff]
        simpa using (hset _).mem_iff.mp hmem
      have hnil := (h.drained hmem').2
      rw [hqueue] at hnil
      cases hnil
  · obtain ⟨hjoined, hdropped, hunwound⟩ := hthread .exited
    refine ⟨(List.length_set ..).trans h.size_eq, h.inOrder, ?_, ?_, ?_, fun _ => ⟨hclosed, hempty⟩,
      h.isOpen, hjoined, fun hd => (hdropped hd).elim, hunwound⟩
    · exact hjobs.trans (((hset .exited).filterMap Thread.job?).append_right _).symm
    · exact (((hset _).countP_eq _).trans hnone).le.trans (Nat.zero_le 1)
    · exact ((hset _).countP_eq _).trans hlost

theorem Sound.finish (h : pool.Sound size) {i : Nat} {isOk : Bool}
    (he : pool.finish i isOk = some pool') : pool'.Sound size := by
  obtain ⟨job, hold, hcases⟩ := finish_some he
  have hthread := h.ended_setWorker hold rfl
  obtain ⟨rest, hperm, hset⟩ := exists_rest hold
  have hjobs : pool.taken.Perm (rest.filterMap Thread.job? ++
      (pool.completed ++ pool.failed ++ [job])) := by
    rw [← List.append_assoc]
    exact (h.accounted.trans ((hperm.filterMap Thread.job?).append_right _)).trans
      (List.perm_append_singleton job _).symm
  have hone := h.oneReceives
  have hlost := h.lost
  rw [hperm.countP_eq] at hone hlost
  have hexited : ∀ thread, thread ≠ .exited → Thread.exited ∈ (pool.setWorker i thread).workers →
      Thread.exited ∈ pool.workers := by
    intro thread hne hmem
    rw [hperm.mem_iff]
    simpa [hne.symm] using (hset _).mem_iff.mp hmem
  rcases hcases with rfl | rfl
  · obtain ⟨hjoined, hdropped, hunwound⟩ := hthread .locking
    refine ⟨(List.length_set ..).trans h.size_eq, h.inOrder, ?_, ?_, ?_,
      fun hmem => h.drained (hexited .locking nofun hmem),
      h.isOpen, hjoined, fun hd => (hdropped hd).elim, hunwound⟩
    · have hmoved : (pool.completed ++ pool.failed ++ [job]).Perm
          (pool.completed ++ [job] ++ pool.failed) := by
        rw [List.append_assoc, List.append_assoc]
        exact List.perm_append_comm.append_left _
      exact (hjobs.trans (hmoved.append_left _)).trans
        (((hset .locking).filterMap Thread.job?).append_right _).symm
    · exact ((hset _).countP_eq _).le.trans hone
    · exact ((hset _).countP_eq _).trans hlost
  · obtain ⟨hjoined, hdropped, hunwound⟩ := hthread .panicked
    refine ⟨(List.length_set ..).trans h.size_eq, h.inOrder, ?_, ?_, ?_,
      fun hmem => h.drained (hexited .panicked nofun hmem),
      h.isOpen, hjoined, fun hd => (hdropped hd).elim, hunwound⟩
    · rw [List.append_assoc] at hjobs
      exact hjobs.trans (((hset .panicked).filterMap Thread.job?).append_right _).symm
    · exact ((hset _).countP_eq _).le.trans hone
    · show (pool.setWorker i .panicked).workers.countP Thread.isPanicked =
        (pool.failed ++ [job]).length
      refine ((hset _).countP_eq _).trans ?_
      rw [List.countP_cons_of_pos rfl, List.length_append, ← hlost]
      rfl

theorem Sound.drop (h : pool.Sound size) (he : pool.drop = some pool') : pool'.Sound size := by
  obtain ⟨-, rfl⟩ := drop_some he
  refine ⟨h.size_eq, h.inOrder, h.accounted, h.oneReceives, h.lost,
    fun hmem => ⟨rfl, (h.drained hmem).2⟩, by simp, fun k hk => ?_, nofun, nofun⟩
  obtain rfl := Owner.joining.inj hk
  exact ⟨Nat.zero_le _, nofun⟩

theorem Sound.join (h : pool.Sound size) (he : pool.join = some pool') : pool'.Sound size := by
  obtain ⟨joined, howner, hcases⟩ := join_some he
  obtain ⟨hle, hbefore⟩ := h.joined joined howner
  have hclosed : pool.sender = false := Bool.eq_false_iff.mpr fun hopen => by
    rw [h.isOpen.mp hopen] at howner
    cases howner
  rcases hcases with ⟨hnone, rfl⟩ | ⟨hexited, rfl⟩ | ⟨hpanicked, rfl⟩
  · refine ⟨h.size_eq, h.inOrder, h.accounted, h.oneReceives, h.lost, h.drained,
      by simp [hclosed], nofun, fun _ thread hmem => ?_, nofun⟩
    obtain ⟨i, hi, rfl⟩ := List.getElem_of_mem hmem
    have hlt : i < joined := hi.trans_le (List.getElem?_eq_none_iff.mp hnone)
    exact Option.some.inj ((List.getElem?_eq_getElem hi).symm.trans (hbefore i hlt))
  · refine ⟨h.size_eq, h.inOrder, h.accounted, h.oneReceives, h.lost, h.drained,
      by simp [hclosed], fun k hk => ?_, nofun, nofun⟩
    obtain rfl := Owner.joining.inj hk
    have hlt := (List.getElem?_eq_some_iff.mp hexited).1
    rw [h.size_eq] at hlt
    refine ⟨hlt, fun i hi => ?_⟩
    rcases Nat.lt_succ_iff_lt_or_eq.mp hi with hi | rfl
    · exact hbefore i hi
    · exact hexited
  · exact ⟨h.size_eq, h.inOrder, h.accounted, h.oneReceives, h.lost, h.drained,
      by simp [hclosed], nofun, nofun, fun _ => List.mem_of_getElem? hpanicked⟩

theorem Sound.step (h : pool.Sound size) {e : PoolEvent Job} (he : pool.step e = some pool') :
    pool'.Sound size := by
  cases e with
  | execute job => exact h.execute he
  | lock i => exact h.lock he
  | recv i => exact h.recv he
  | finish i isOk => exact h.finish he
  | drop => exact h.drop he
  | join => exact h.join he

theorem sound_reachable {init : ThreadPool Job} (hnew : new size = some init)
    (h : Reachable step anyStep init pool) :
    pool.Sound size :=
  h.inv (Sound.of_new hnew) fun _ _ _ hs _ he => hs.step he

/-- Every job sent is in one place: in the channel, with one worker, or done with; the
workers take the jobs in the order they were sent. -/
theorem jobs_once {init : ThreadPool Job} (hnew : new size = some init)
    (h : Reachable step anyStep init pool) :
    pool.taken ++ pool.queue = pool.submitted ∧
      pool.submitted.Perm (pool.queue ++
        (pool.workers.filterMap Thread.job? ++ (pool.completed ++ pool.failed))) := by
  have hsound := sound_reachable hnew h
  refine ⟨hsound.inOrder.symm, ?_⟩
  rw [hsound.inOrder]
  exact (hsound.accounted.append_right _).trans List.perm_append_comm

/-- Two jobs among two workers, one of them done. -/
theorem jobs_once_shared : ∃ init pool : ThreadPool Nat, new 2 = some init ∧
    run step init [.execute 7, .execute 8, .lock 1, .recv 1, .lock 0, .recv 0, .finish 1 true,
      .execute 9] = some pool ∧
    pool.taken ++ pool.queue = pool.submitted ∧
    pool.submitted.Perm (pool.queue ++
      (pool.workers.filterMap Thread.job? ++ (pool.completed ++ pool.failed))) :=
  ⟨_, _, rfl, rfl,
    jobs_once (show new 2 = some _ from rfl) (Reachable.init.run
      [.execute 7, .execute 8, .lock 1, .recv 1, .lock 0, .recv 0, .finish 1 true, .execute 9] rfl)⟩

/-- How many steps a thread has yet to take before the next job. -/
def weight : Thread Job → Nat
  | .locking => 2
  | .receiving => 1
  | .running _ => 3
  | .exited | .panicked => 0

def measure (size : Nat) (pool : ThreadPool Job) : Nat :=
  3 * pool.queue.length + (pool.workers.map weight).sum +
    match pool.owner with
    | .holding => size + 3
    | .joining joined => size + 2 - joined
    | .dropped | .unwound => 0

/-- Only sending a job raises the measure. -/
theorem step_measure {e : PoolEvent Job} (h : pool.Sound size) (he : pool.step e = some pool')
    (hsend : pool.sender = true → workStep pool e = some pool') :
    pool'.measure size < pool.measure size := by
  cases e with
  | execute job =>
    obtain ⟨hopen, -, -⟩ := execute_some he
    cases hsend hopen
  | lock i =>
    obtain ⟨hthread, -, rfl⟩ := lock_some he
    obtain ⟨others, hold, hnew⟩ := exists_others weight hthread
    simp only [measure, setWorker, hold, hnew, weight]
    omega
  | recv i =>
    obtain ⟨hthread, hcases⟩ := recv_some he
    obtain ⟨others, hold, hnew⟩ := exists_others weight hthread
    rcases hcases with ⟨job, queue, hqueue, rfl⟩ | ⟨-, -, rfl⟩
    · simp only [measure, setWorker, hold, hnew, weight, hqueue, List.length_cons]
      omega
    · simp only [measure, setWorker, hold, hnew, weight]
      omega
  | finish i isOk =>
    obtain ⟨job, hthread, hcases⟩ := finish_some he
    obtain ⟨others, hold, hnew⟩ := exists_others weight hthread
    rcases hcases with rfl | rfl
    · simp only [measure, setWorker, hold, hnew, weight]
      omega
    · simp only [measure, setWorker, hold, hnew, weight]
      omega
  | drop =>
    obtain ⟨howner, rfl⟩ := drop_some he
    simp only [measure, howner]
    omega
  | join =>
    obtain ⟨joined, howner, hcases⟩ := join_some he
    have hle := (h.joined joined howner).1
    rcases hcases with ⟨-, rfl⟩ | ⟨-, rfl⟩ | ⟨-, rfl⟩ <;> simp only [measure, howner] <;> omega

theorem step_of_workStep {e : PoolEvent Job} (he : pool.workStep e = some pool') :
    pool.step e = some pool' := by
  cases e with
  | lock i | recv i | finish i isOk => exact he
  | execute job | drop | join => cases he

/-- A thread that has not ended can step, or waits for one that can, unless all of them
wait for a job. -/
theorem exists_workStep {i : Nat} {thread : Thread Job} (hthread : pool.workers[i]? = some thread)
    (hlive : thread.hasEnded = false)
    (hwork : pool.queue ≠ [] ∨ pool.sender = false) : ∃ e pool', pool.workStep e = some pool' := by
  have hrecv : ∀ j, pool.workers[j]? = some .receiving → ∃ pool', pool.recv j = some pool' := by
    intro j hj
    unfold recv
    rw [hj]
    cases hqueue : pool.queue with
    | cons job queue => exact ⟨_, rfl⟩
    | nil => exact ⟨_, if_neg (by simpa [hqueue] using hwork)⟩
  cases thread with
  | locking =>
    by_cases hheld : pool.workers.any Thread.isReceiving = true
    · obtain ⟨holder, hmem, hholder⟩ := List.any_eq_true.mp hheld
      obtain ⟨j, hj⟩ := List.getElem?_of_mem hmem
      cases holder <;> try cases hholder
      obtain ⟨pool', he⟩ := hrecv j hj
      exact ⟨.recv j, pool', he⟩
    · refine ⟨.lock i, pool.setWorker i .receiving, ?_⟩
      show pool.lock i = _
      unfold lock
      rw [hthread]
      exact if_neg hheld
  | receiving =>
    obtain ⟨pool', he⟩ := hrecv i hthread
    exact ⟨.recv i, pool', he⟩
  | running job =>
    refine ⟨.finish i true, { pool.setWorker i .locking with completed := pool.completed ++ [job] },
      ?_⟩
    show pool.finish i true = _
    unfold finish
    rw [hthread]
    rfl
  | exited | panicked => cases hlive

theorem Sound.all_panicked (h : pool.Sound size) (hopen : pool.sender = true) :
    pool.workers.all Thread.hasEnded = true ↔ pool.failed.length = size := by
  rw [← h.lost, ← h.size_eq, List.countP_eq_length, List.all_eq_true]
  refine forall₂_congr fun thread hmem => ?_
  cases thread with
  | exited =>
    have := (h.drained hmem).1
    rw [hopen] at this
    cases this
  | locking | receiving | running _ | panicked => rfl

/-- `execute` panics when every worker has run a job that panicked, and only then: each
such job costs the pool one worker for good. -/
theorem execute_none_iff {init : ThreadPool Job} (hnew : new size = some init)
    (h : Reachable step anyStep init pool)
    (hopen : pool.owner = .holding) (job : Job) :
    pool.execute job = none ↔ pool.failed.length = size := by
  have hsound := sound_reachable hnew h
  have hsender := hsound.isOpen.mpr hopen
  rw [← hsound.all_panicked hsender]
  unfold execute
  simp [hsender]

/-- One worker, lost to its first job: the second job still goes in its channel, no third. -/
theorem execute_none_lost : ∃ init pool : ThreadPool Nat, new 1 = some init ∧
    run step init [.execute 7, .lock 0, .recv 0, .execute 8, .finish 0 false] = some pool ∧
      pool.execute 9 = none :=
  ⟨_, _, rfl, rfl,
    (execute_none_iff (show new 1 = some _ from rfl)
      (Reachable.init.run [.execute 7, .lock 0, .recv 0, .execute 8, .finish 0 false] rfl)
      rfl 9).mpr rfl⟩

theorem size_pos {init : ThreadPool Job} (hnew : new size = some init) : 0 < size := by
  unfold new at hnew
  split at hnew
  · assumption
  · cases hnew

/-- Once the owner has begun to drop the pool it goes on, and no job is sent. -/
theorem step_closed {e : PoolEvent Job} (hsound : pool.Sound size) (he : pool.step e = some pool')
    (hclosed : pool.owner ≠ .holding) :
    pool'.owner ≠ .holding ∧ pool'.submitted = pool.submitted := by
  cases e with
  | execute job => exact absurd (hsound.isOpen.mp (execute_some he).1) hclosed
  | lock i =>
    obtain ⟨-, -, rfl⟩ := lock_some he
    exact ⟨hclosed, rfl⟩
  | recv i =>
    rcases (recv_some he).2 with ⟨job, queue, -, rfl⟩ | ⟨-, -, rfl⟩ <;> exact ⟨hclosed, rfl⟩
  | finish i isOk =>
    obtain ⟨job, -, rfl | rfl⟩ := finish_some he <;> exact ⟨hclosed, rfl⟩
  | drop => exact absurd (drop_some he).1 hclosed
  | join =>
    obtain ⟨joined, -, ⟨-, rfl⟩ | ⟨-, rfl⟩ | ⟨-, rfl⟩⟩ := join_some he <;> exact ⟨nofun, rfl⟩

theorem workStep_holding {e : PoolEvent Job} (he : pool.workStep e = some pool') :
    pool'.owner = pool.owner ∧ pool'.submitted = pool.submitted := by
  cases e with
  | execute job | drop | join => cases he
  | lock i =>
    obtain ⟨-, -, rfl⟩ := lock_some he
    exact ⟨rfl, rfl⟩
  | recv i =>
    rcases (recv_some he).2 with ⟨job, queue, -, rfl⟩ | ⟨-, -, rfl⟩ <;> exact ⟨rfl, rfl⟩
  | finish i isOk =>
    obtain ⟨job, -, rfl | rfl⟩ := finish_some he <;> exact ⟨rfl, rfl⟩

/-- `drop` has returned: every job sent was run to its end. -/
theorem Sound.completed_perm (h : pool.Sound size) (hsize : 0 < size)
    (hdropped : pool.owner = .dropped) :
    pool.completed.Perm pool.submitted ∧ pool.failed = [] := by
  have hexited := h.dropped hdropped
  have hworker : pool.workers[0]? = some .exited := by
    have hlt : 0 < pool.workers.length := h.size_eq ▸ hsize
    rw [List.getElem?_eq_getElem hlt, hexited _ (List.getElem_mem hlt)]
  have hqueue : pool.queue = [] := (h.drained (List.mem_of_getElem? hworker)).2
  have hfailed : pool.failed = [] := by
    rw [← List.length_eq_zero_iff, ← h.lost, List.countP_eq_zero]
    intro thread hmem
    rw [hexited thread hmem]
    exact Bool.false_ne_true
  have hidle : pool.workers.filterMap Thread.job? = [] := by
    rw [List.filterMap_eq_nil_iff]
    intro thread hmem
    rw [hexited thread hmem]
    rfl
  refine ⟨?_, hfailed⟩
  have hjobs := h.accounted
  rw [hidle, hfailed, List.append_nil, List.nil_append] at hjobs
  rw [h.inOrder, hqueue, List.append_nil]
  exact hjobs.symm

theorem Sound.join_enabled (h : pool.Sound size) {joined : Nat}
    (howner : pool.owner = .joining joined) :
    ∃ e pool', pool.step e = some pool' := by
  have hclosed : pool.sender = false := Bool.eq_false_iff.mpr fun hopen => by
    rw [h.isOpen.mp hopen] at howner
    cases howner
  by_cases hlive : ∃ thread, pool.workers[joined]? = some thread ∧ thread.hasEnded = false
  · obtain ⟨thread, hthread, hended⟩ := hlive
    obtain ⟨e, pool', he⟩ := exists_workStep hthread hended (Or.inr hclosed)
    exact ⟨e, pool', step_of_workStep he⟩
  · refine ⟨.join, Option.isSome_iff_exists.mp ?_⟩
    show pool.join.isSome = true
    unfold ThreadPool.join
    rw [howner]
    cases hthread : pool.workers[joined]? with
    | none => simp only [hthread, Option.isSome_some]
    | some thread => cases thread with
      | exited | panicked => simp only [hthread, Option.isSome_some]
      | locking | receiving | running _ => exact absurd ⟨_, hthread, rfl⟩ hlive

/-- Once the owner drops the pool every run comes to an end: `drop` returns with all jobs
that were sent completed, or it panics since a job did. -/
theorem drop_ends {init : ThreadPool Job} (hnew : new size = some init)
    (h : Reachable step anyStep init pool) (hclosed : pool.owner ≠ .holding) :
    Inevitable step (fun t => (t.owner = .dropped ∧ t.completed.Perm pool.submitted ∧
      t.failed = []) ∨
      (t.owner = .unwound ∧ t.failed ≠ [])) pool := by
  refine Inevitable.of_measure (fun t => t.Sound size ∧ t.owner ≠ .holding ∧
    t.submitted = pool.submitted)
    (InvImage.wf (measure size) Nat.lt_wfRel.wf) ?_ ?_ ?_ ⟨sound_reachable hnew h, hclosed, rfl⟩
  · rintro t e t' ⟨hsound, ht, hsent⟩ he
    obtain ⟨ht', hsent'⟩ := step_closed hsound he ht
    exact ⟨hsound.step he, ht', hsent'.trans hsent⟩
  · rintro t e t' ⟨hsound, ht, -⟩ he
    exact step_measure hsound he fun hopen => absurd (hsound.isOpen.mp hopen) ht
  · rintro t ⟨hsound, ht, hsent⟩ hdone
    cases howner : t.owner with
    | holding => exact absurd howner ht
    | joining joined => exact hsound.join_enabled howner
    | dropped =>
      obtain ⟨hperm, hfailed⟩ := hsound.completed_perm (size_pos hnew) howner
      exact absurd (Or.inl ⟨howner, hsent ▸ hperm, hfailed⟩) hdone
    | unwound =>
      refine absurd (Or.inr ⟨howner, fun hnil => ?_⟩) hdone
      have hlost := hsound.lost
      rw [hnil, List.length_nil, List.countP_eq_zero] at hlost
      exact hlost _ (hsound.unwound howner) rfl

/-- The pool is dropped with one job running and one in the channel. -/
theorem drop_ends_busy : ∃ init pool : ThreadPool Nat, new 2 = some init ∧
    run step init [.execute 7, .execute 8, .lock 1, .recv 1, .drop] = some pool ∧
    Inevitable step (fun t => (t.owner = .dropped ∧ t.completed.Perm pool.submitted ∧
      t.failed = []) ∨
      (t.owner = .unwound ∧ t.failed ≠ [])) pool :=
  ⟨_, _, rfl, rfl,
    drop_ends (show new 2 = some _ from rfl)
      (Reachable.init.run [.execute 7, .execute 8, .lock 1, .recv 1, .drop] rfl) nofun⟩

/-- While the pool is held, its workers alone come to have taken every job sent so far,
or have all been lost to jobs that panicked. -/
theorem work_ends {init : ThreadPool Job} (hnew : new size = some init)
    (h : Reachable step anyStep init pool) (hopen : pool.owner = .holding) :
    Inevitable workStep (fun t => t.taken = pool.submitted ∨ t.failed.length = size) pool := by
  refine Inevitable.of_measure (fun t => t.Sound size ∧ t.owner = .holding ∧
    t.submitted = pool.submitted)
    (InvImage.wf (measure size) Nat.lt_wfRel.wf) ?_ ?_ ?_ ⟨sound_reachable hnew h, hopen, rfl⟩
  · rintro t e t' ⟨hsound, ht, hsent⟩ he
    obtain ⟨howner, hsent'⟩ := workStep_holding he
    exact ⟨hsound.step (step_of_workStep he), howner.trans ht, hsent'.trans hsent⟩
  · rintro t e t' ⟨hsound, -, -⟩ he
    exact step_measure hsound (step_of_workStep he) fun _ => he
  · rintro t ⟨hsound, ht, hsent⟩ hdone
    rw [not_or, ← hsound.all_panicked (hsound.isOpen.mpr ht), Bool.not_eq_true, List.all_eq_false]
      at hdone
    obtain ⟨hwaiting, thread, hmem, hlive⟩ := hdone
    obtain ⟨i, hi⟩ := List.getElem?_of_mem hmem
    refine exists_workStep hi (by simpa using hlive) (Or.inl fun hnil => hwaiting ?_)
    rw [← hsent, hsound.inOrder, hnil, List.append_nil]

/-- One of two workers has been lost, with two jobs to run. -/
theorem work_ends_lost : ∃ init pool : ThreadPool Nat, new 2 = some init ∧
    run step init [.execute 7, .lock 0, .recv 0, .finish 0 false, .execute 8, .execute 9] =
      some pool ∧
    Inevitable workStep (fun t => t.taken = pool.submitted ∨ t.failed.length = 2) pool :=
  ⟨_, _, rfl, rfl,
    work_ends (show new 2 = some _ from rfl) (Reachable.init.run
      [.execute 7, .lock 0, .recv 0, .finish 0 false, .execute 8, .execute 9] rfl) rfl⟩

end ThreadPool

end TitanKv
