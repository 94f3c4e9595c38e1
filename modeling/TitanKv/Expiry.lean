import TitanKv.Restarts

/-! # Expiry against the clock

The running server with a clock that does not go back: every step has a time, a
pass of the sweeper reads the clock when it starts, `GET` when it holds its
guard, and any other command at its step or before. Whatever is removed for its
age has passed its deadline at that moment. -/

namespace TitanKv
open TwoPhase Runs

structure Timed where
  system : System
  clock : SystemTime

structure TimedEvent where
  time : SystemTime
  event : Event

/-- The clock readings of an event at a time. -/
def Event.readsAt (time : SystemTime) : Event → Bool
  | .command request => match request.command with
    | .get _ => decide (request.ctx.now = time)
    | _ => decide (request.ctx.now ≤ time)
  | .startSweep now => decide (now = time)
  | _ => true

def timedStep (env : Env) (s : Timed) (e : TimedEvent) : Option Timed :=
  if s.clock ≤ e.time ∧ e.event.readsAt e.time then
    (step env s.system e.event).map fun system => ⟨system, e.time⟩
  else none

section Clock
variable {env : Env} {s s' : Timed} {e : TimedEvent}

theorem timedStep_some (h : timedStep env s e = some s') :
    s.clock ≤ e.time ∧ e.event.readsAt e.time = true ∧
      step env s.system e.event = some s'.system ∧ s'.clock = e.time := by
  unfold timedStep at h
  split at h
  · rename_i hclock
    obtain ⟨system, hstep, rfl⟩ := Option.map_eq_some_iff.mp h
    exact ⟨hclock.1, hclock.2, hstep, rfl⟩
  · cases h

/-- A pass of the sweeper keeps the reading it started with. -/
theorem step_sweeping {s s' : System} {e : Event} {now : SystemTime} {swept : Nat}
    {keys : List Bytes} (he : step env s e = some s') (h : s'.sweeper = .sweeping now swept keys) :
    e = .startSweep now ∨ ∃ swept keys, s.sweeper = .sweeping now swept keys := by
  obtain ⟨t, ht, rfl⟩ := step_some he
  cases e with
  | command request =>
    obtain ⟨_, _, _, -, ⟨-, rfl⟩ | ⟨-, rfl⟩⟩ := stepCommand_some ht <;> exact Or.inr ⟨_, _, h⟩
  | sendLate n => obtain ⟨_, rfl⟩ := stepSendLate_some ht; exact Or.inr ⟨_, _, h⟩
  | receive => obtain ⟨_, _, -, rfl | ⟨-, rfl⟩⟩ := stepReceive_some ht <;> exact Or.inr ⟨_, _, h⟩
  | tick => obtain ⟨-, rfl⟩ | rfl := stepTick_some ht <;> exact Or.inr ⟨_, _, h⟩
  | startCompaction => obtain ⟨-, rfl⟩ := stepStartCompaction_some ht; exact Or.inr ⟨_, _, h⟩
  | readShard now => obtain ⟨_, _, -, rfl⟩ := stepReadShard_some ht; exact Or.inr ⟨_, _, h⟩
  | writeTemp isOk => obtain ⟨_, -, rfl | rfl⟩ := stepWriteTemp_some ht <;> exact Or.inr ⟨_, _, h⟩
  | rename isOk => obtain ⟨-, ⟨-, rfl⟩ | ⟨-, rfl⟩⟩ := stepRename_some ht <;> exact Or.inr ⟨_, _, h⟩
  | startSweep started =>
    obtain ⟨-, rfl⟩ := stepStartSweep_some ht
    obtain ⟨rfl, -⟩ := Sweeper.sweeping.inj h
    exact Or.inl rfl
  | sweepShard =>
    obtain ⟨_, _, _, _, hsweeper, rfl⟩ := stepSweepShard_some ht
    obtain ⟨rfl, -⟩ := Sweeper.sweeping.inj h
    exact Or.inr ⟨_, _, hsweeper⟩
  | openLog =>
    obtain ⟨_, _, _, -, ⟨-, rfl⟩ | rfl⟩ := stepOpenLog_some ht <;> cases h
  | appendDel =>
    obtain ⟨_, _, rest, -, rfl⟩ := stepAppendDel_some ht
    cases rest <;> cases h

/-- The sweeper's reading is not in the future. -/
def SweepsPast (s : Timed) : Prop :=
  ∀ now swept keys, s.system.sweeper = .sweeping now swept keys → now ≤ s.clock

theorem SweepsPast.step (h : SweepsPast s) (he : timedStep env s e = some s') : SweepsPast s' := by
  obtain ⟨hclock, hreads, hstep, htime⟩ := timedStep_some he
  intro now swept keys hsweeper
  rw [htime]
  rcases step_sweeping hstep hsweeper with hstart | ⟨swept', keys', hbefore⟩
  · rw [hstart] at hreads
    obtain rfl := of_decide_eq_true hreads
    exact Int.le_refl _
  · exact Int.le_trans (h now swept' keys' hbefore) hclock

end Clock

section Removals
variable {env : Env} {s s' : Timed} {e : TimedEvent} {entry : Entry} {key : Bytes} {i : Index}

/-- The entry carries a deadline before the time. -/
def Entry.PastAt (time : SystemTime) (entry : Entry) : Prop :=
  ∃ expiration, entry.expiresAt = some expiration ∧ expiration < time

/-- What a visit of the sweeper removes has passed its deadline at the visit. -/
theorem sweep_removes_past (h : SweepsPast s) (he : timedStep env s e = some s')
    (hevent : e.event = .sweepShard)
    (hl : (s.system.db i).lookup key = some entry)
    (hgone : (s'.system.db i).lookup key ≠ some entry) :
    entry.PastAt e.time := by
  obtain ⟨hclock, -, hstep, -⟩ := timedStep_some he
  rw [hevent] at hstep
  obtain ⟨request, a, logs, hne, -⟩ | ⟨now, swept, keys, hlt, -, hsweeper, hdb⟩ | hdb :=
    step_db hstep
  · cases hne
  · rw [hdb, lookup_update_removeKeys] at hgone
    split at hgone
    · rename_i hremoved
      obtain ⟨rfl, hkey⟩ := hremoved
      have hexpired := (List.mem_filter.mp hkey).2
      rw [hl] at hexpired
      obtain ⟨found, expiration, heq, hexpires, hpast⟩ := isExpired_iff.mp hexpired
      obtain rfl := Option.some.inj heq
      have hnow : now ≤ s.clock := h now swept keys hsweeper
      exact ⟨expiration, hexpires, Int.lt_of_lt_of_le hpast (Int.le_trans hnow hclock)⟩
    · exact absurd hl hgone
  · rw [hdb] at hgone
    exact absurd hl hgone

/-- What `GET` removes has passed its deadline when it holds its guard. -/
theorem get_removes_past (he : timedStep env s e = some s') {ctx : Ctx} {name : Bytes}
    (hevent : e.event = .command ⟨ctx, .get name⟩)
    (hl : (s.system.db i).lookup key = some entry)
    (hgone : (s'.system.db i).lookup key ≠ some entry) :
    entry.PastAt e.time := by
  obtain ⟨-, hreads, hstep, -⟩ := timedStep_some he
  rw [hevent] at hreads hstep
  have hnow : ctx.now = e.time := of_decide_eq_true hreads
  obtain ⟨request, a, logs, heq, hrun⟩ | ⟨_, _, _, _, hne, -⟩ | hdb := step_db hstep
  · obtain rfl := Event.command.inj heq
    obtain ⟨hexpired, -, hdb, -⟩ | ⟨-, -, hdb, -⟩ := get_cases hrun
    · have hframe : TouchesOnly env [name] s.system.db s'.system.db := by
        rw [hdb]
        exact .onShard fun _ _ hne => AList.lookup_erase_ne hne
      by_cases hkey : key ∈ [name] ∧ i = calculateShardIndex env key
      · obtain ⟨hname, rfl⟩ := hkey
        obtain rfl := List.mem_singleton.mp hname
        obtain ⟨found, expiration, hfound, hexpires, hpast⟩ := isExpired_iff.mp hexpired
        obtain rfl := Option.some.inj (hl.symm.trans hfound)
        exact ⟨expiration, hexpires, hnow ▸ hpast⟩
      · exact absurd ((hframe i key hkey).trans hl) hgone
    · rw [hdb] at hgone
      exact absurd hl hgone
  · cases hne
  · rw [hdb] at hgone
    exact absurd hl hgone

/-- A `GET` that does not reply nil replies with an entry in its time. -/
theorem get_replies_in_time {ctx : Ctx} {db db' : Memory} {a : Outcome} {logs : List Command}
    (hrun : (handle env ctx (.get key)).run db = some (a, db', logs)) (ha : a ≠ .reply nilReply) :
    ∃ entry, entryAt env db key = some entry ∧ a = .reply (getReply (some entry.value)) ∧
      ¬ entry.PastAt ctx.now := by
  obtain ⟨-, rfl, -, -⟩ | ⟨hlive, rfl, -, -⟩ := get_cases hrun
  · exact absurd rfl ha
  · cases hl : entryAt env db key with
    | none =>
      rw [stored_eq, hl] at ha
      exact absurd rfl ha
    | some entry =>
      refine ⟨entry, rfl, by rw [stored_of_entryAt hl rfl], ?_⟩
      intro hpast
      obtain ⟨expiration, hexpires, hlt⟩ := hpast
      rw [isExpired_iff.mpr ⟨entry, expiration, hl, hexpires, hlt⟩] at hlive
      cases hlive

/-- In every run of the server under a clock that does not go back, from any
database: the sweeper and `GET` remove only entries whose deadline has passed at
that moment, and `GET` replies with no value whose deadline has passed. -/
theorem expiry_in_time {db : Memory} {log : File} {temp : Option File} {start : SystemTime}
    (h : Reachable (timedStep env) anyStep ⟨.start db log temp, start⟩ s)
    (he : timedStep env s e = some s') :
    ((e.event = .sweepShard ∨ ∃ ctx name, e.event = .command ⟨ctx, .get name⟩) →
      ∀ i key entry, (s.system.db i).lookup key = some entry →
        (s'.system.db i).lookup key ≠ some entry →
        entry.PastAt e.time) ∧
    ∀ ctx key, e.event = .command ⟨ctx, .get key⟩ → ∀ a db logs,
      (handle env ctx (.get key)).run s.system.db = some (a, db, logs) → a ≠ .reply nilReply →
        ∃ entry, entryAt env s.system.db key = some entry ∧
          a = .reply (getReply (some entry.value)) ∧
          ¬ entry.PastAt e.time := by
  have hpast : SweepsPast s := by
    refine h.inv ?_ fun _ _ _ hs _ he => hs.step he
    intro now swept keys hsweeper
    cases hsweeper
  constructor
  · intro hevent i key entry hl hgone
    rcases hevent with hsweep | ⟨ctx, name, hget⟩
    · exact sweep_removes_past hpast he hsweep hl hgone
    · exact get_removes_past he hget hl hgone
  · intro ctx key hget a db logs hrun ha
    obtain ⟨-, hreads, -, -⟩ := timedStep_some he
    rw [hget] at hreads
    have hnow : ctx.now = e.time := of_decide_eq_true hreads
    rw [← hnow]
    exact get_replies_in_time hrun ha

/-- A number of seconds after the epoch. -/
def atSecond (n : Fin 100) : SystemTime := ⟨(n : Nat) * 10 ^ 9, by have := n.isLt; omega⟩

/-- A key of one second, and a pass of the sweeper two seconds later. -/
def latePass : List TimedEvent :=
  [⟨atSecond 0, .command ⟨⟨atSecond 0, []⟩, .setEx [107] 1 [118]⟩⟩,
    ⟨atSecond 2, .startSweep (atSecond 2)⟩]

theorem expiry_in_time_latePass :
    ∃ s s', run (timedStep plainEnv) ⟨.start newDb ⟨[], []⟩ none, atSecond 0⟩ latePass = some s ∧
      timedStep plainEnv s ⟨atSecond 3, .sweepShard⟩ = some s' ∧
      entryAt plainEnv s.system.db [107] ≠ none ∧ entryAt plainEnv s'.system.db [107] = none ∧
      ∀ i key entry, (s.system.db i).lookup key = some entry →
        (s'.system.db i).lookup key ≠ some entry →
        entry.PastAt (atSecond 3) := by
  obtain ⟨s, hrun, s', hstep, hthere, hgone⟩ : ∃ s,
      run (timedStep plainEnv) ⟨.start newDb ⟨[], []⟩ none, atSecond 0⟩ latePass = some s ∧
      ∃ s', timedStep plainEnv s ⟨atSecond 3, .sweepShard⟩ = some s' ∧
        (entryAt plainEnv s.system.db [107]).isSome = true ∧
        (entryAt plainEnv s'.system.db [107]).isSome = false := ⟨_, rfl, _, rfl, rfl, rfl⟩
  exact ⟨s, s', hrun, hstep, Option.isSome_iff_ne_none.mp hthere, by simpa using hgone,
    (expiry_in_time (.run .init _ hrun) hstep).1 (Or.inl rfl)⟩

end Removals

end TitanKv
