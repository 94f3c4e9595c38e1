import TitanKv.Agreement
import TitanKv.Lib.Linear

/-! # Clients running at once

Any number of clients run keyed commands over the locked shards, one lock,
map read, map update, release or send at a time. Every such run is
linearizable. Its log is a legal serialisation of the memory updates as long as
no send overtakes an earlier command's unsent line that names one of its keys;
only `RPOPLPUSH`, which sends after it releases, can be overtaken. -/

namespace TitanKv
open Local TwoPhase Runs

/-- Requests for commands that name one or two keys. -/
def KeyedRequest := {request : Request // request.command.keyArgs ≠ []}

/-- Those replay has an arm for, or that log nothing. -/
def LoggedRequest :=
  {request : Request // request.command.keyArgs ≠ [] ∧ request.command.isTrim = false}

variable (env : Env) {n : Nat}

def keyedProg (request : KeyedRequest) : Handler := request.1.handle env
def loggedProg (request : LoggedRequest) : Handler := request.1.handle env

theorem keyedProg_disciplined (request : KeyedRequest) : Disciplined [] (keyedProg env request) :=
  disciplined_handle env request.1.ctx request.2

theorem loggedProg_disciplined (request : LoggedRequest) :
    Disciplined [] (loggedProg env request) :=
  disciplined_handle env request.1.ctx request.2.1

section Requests

def rPushRequest (key value : Bytes) : LoggedRequest :=
  ⟨⟨plainCtx, .rPush key value⟩, by simp [Command.keyArgs, Command.isTrim]⟩

def moveRequest (source destination : Bytes) : LoggedRequest :=
  ⟨⟨plainCtx, .rPopLPush source destination⟩, by simp [Command.keyArgs, Command.isTrim]⟩

def racingCalls : Fin 2 → List LoggedRequest
  | 0 => [rPushRequest [112] [120], moveRequest [112] [113]]
  | 1 => [rPushRequest [112] [121]]

/-- Client 0 moves `x` from `p` to `q` and releases; client 1 pushes and logs `y`
on `p`; client 0 logs its move. -/
def racingSchedule : List (Fin 2) := List.replicate 16 0 ++ List.replicate 8 1 ++ [0, 0]

end Requests

/-- A state of clients running requests over the shards. -/
abbrev Clients (n : Nat) (κ : Type) := Sys n Index Shard Command κ Outcome

/-- In every quiet state the executed commands have a sequential order that
respects the commands that did not overlap and gives all replies and maps. -/
theorem commands_linearizable (mem₀ : Memory) (calls : Fin n → List KeyedRequest)
    (s : Clients n KeyedRequest)
    (hreach : Reachable (Sys.step (keyedProg env)) anyStep (Sys.init mem₀ calls) s) (hq : s.Quiet) :
    ∃ order : List (Executed n KeyedRequest Outcome), order.Perm s.executed ∧
      (∀ e ∈ order, ∀ e' ∈ order, s.Precedes e e' → [e, e'].Sublist order) ∧
      execAll (keyedProg env) (order.map (·.call)) mem₀ = some (order.map (·.reply), s.mem) :=
  linearizable (keyedProg_disciplined env) hreach hq

def keyedCalls (t : Fin 2) : List KeyedRequest := (racingCalls t).map fun r => ⟨r.1, r.2.1⟩

def keyedRun : Option (Clients 2 KeyedRequest) :=
  run (Sys.step (keyedProg plainEnv)) (Sys.init newDb keyedCalls) racingSchedule

theorem keyedRun_isSome : keyedRun.isSome = true := rfl

theorem keyedRun_quiet : (keyedRun.get keyedRun_isSome).Quiet := by
  intro t
  match t with
  | 0 => rfl
  | 1 => rfl

theorem commands_linearizable_race :
    ∃ order : List (Executed 2 KeyedRequest Outcome),
      order.Perm (keyedRun.get keyedRun_isSome).executed ∧
      (∀ e ∈ order, ∀ e' ∈ order, (keyedRun.get keyedRun_isSome).Precedes e e' →
        [e, e'].Sublist order) ∧
      execAll (keyedProg plainEnv) (order.map (·.call)) newDb =
        some (order.map (·.reply), (keyedRun.get keyedRun_isSome).mem) :=
  commands_linearizable plainEnv newDb keyedCalls _
    (Reachable.run .init racingSchedule (Option.some_get keyedRun_isSome).symm) keyedRun_quiet

/-- Two commands that name no common key. -/
def KeyDisjoint (command command' : Command) : Prop :=
  ∀ key ∈ command.keyArgs, key ∉ command'.keyArgs

/-- In every quiet state of a run whose sends overtake no earlier command's
unsent line with a common key, replaying the channel rebuilds the keyspace. -/
theorem log_order (calls : Fin n → List LoggedRequest) (s : Clients n LoggedRequest)
    (clock : Nat → SystemTime)
    (hreach : Reachable (Sys.step (loggedProg env)) (SendOk KeyDisjoint) (Sys.init newDb calls) s)
    (hq : s.Quiet) (hfits : FitsAll clock 0 s.sent) :
    ∃ db', replayAll env clock 0 s.sent newDb = some db' ∧ view env db' = view env s.mem := by
  have hview : ∀ (c : LoggedRequest) mem a mem' logs,
      (loggedProg env c).run mem = some (a, mem', logs) →
      view env mem' = TwoPhase.applyAll Keyspace.apply logs (view env mem) := by
    intro c mem a mem' logs hrun
    obtain ⟨b, mem₁, logs₁, hrun₁, hv⟩ := request_agrees env c.2.2 mem
    rw [show (loggedProg env c).run mem = _ from hrun₁] at hrun
    obtain ⟨rfl, rfl, rfl⟩ := by simpa using hrun
    exact hv
  have hlog := log_serial (loggedProg_disciplined env)
    (fun x y (hxy : KeyDisjoint x y) d => Keyspace.apply_commute hxy d) hview hreach hq
  obtain ⟨db', hreplay⟩ := Option.isSome_iff_exists.mp
    ((replayAll_isSome env 0 newDb).mpr hfits)
  exact ⟨db', hreplay, (view_replayAll env hreplay).trans hlog⟩

section Overtaken

instance (command command' : Command) : Decidable (KeyDisjoint command command') :=
  inferInstanceAs (Decidable (∀ key ∈ command.keyArgs, key ∉ command'.keyArgs))

def timelyCalls : Fin 2 → List LoggedRequest
  | 0 => [rPushRequest [112] [120], moveRequest [112] [113]]
  | 1 => [rPushRequest [114] [121], rPushRequest [112] [122]]

/-- While client 0 owes the line of its move from `p` to `q`, client 1 pushes and logs
on `r`; on `p` it pushes when the line is sent. -/
def timelySchedule : List (Fin 2) := racingSchedule ++ List.replicate 8 1

def timelyRun : Option (Clients 2 LoggedRequest) :=
  run (Sys.step (loggedProg plainEnv)) (Sys.init newDb timelyCalls) timelySchedule

theorem timelyRun_isSome : timelyRun.isSome = true := rfl

theorem timelyRun_quiet : (timelyRun.get timelyRun_isSome).Quiet := fun t =>
  match t with
  | 0 => rfl
  | 1 => rfl

theorem log_order_timely :
    (timelyRun.get timelyRun_isSome).sent =
      [.rPush [112] [120], .rPush [114] [121], .rPopLPush [112] [113], .rPush [112] [122]] ∧
    ∃ db',
      replayAll plainEnv (fun _ => SystemTime.unixEpoch) 0 (timelyRun.get timelyRun_isSome).sent
        newDb = some db' ∧
      view plainEnv db' = view plainEnv (timelyRun.get timelyRun_isSome).mem := by
  have hok : AllOk (Sys.step (loggedProg plainEnv)) (SendOk KeyDisjoint)
      (Sys.init newDb timelyCalls) timelySchedule := by
    decide +kernel
  exact ⟨rfl, log_order plainEnv _ _ _
    (Reachable.run_ok .init timelySchedule hok (Option.some_get timelyRun_isSome).symm)
    timelyRun_quiet ⟨trivial, trivial, trivial, trivial, trivial⟩⟩

def racingRun : Option (Clients 2 LoggedRequest) :=
  run (Sys.step (loggedProg plainEnv)) (Sys.init newDb racingCalls) racingSchedule

theorem racingRun_isSome : racingRun.isSome = true := rfl

def raced : Clients 2 LoggedRequest := racingRun.get racingRun_isSome

theorem raced_quiet : raced.Quiet := by
  intro t
  match t with
  | 0 => rfl
  | 1 => rfl

theorem log_order_fails : ¬ ∀ (env : Env) (n : Nat) (calls : Fin n → List LoggedRequest)
    (s : Clients n LoggedRequest) (clock : Nat → SystemTime),
    Reachable (Sys.step (loggedProg env)) anyStep (Sys.init newDb calls) s → s.Quiet →
    FitsAll clock 0 s.sent →
    ∃ db', replayAll env clock 0 s.sent newDb = some db' ∧ view env db' = view env s.mem := by
  intro h
  have hreach :
      Reachable (Sys.step (loggedProg plainEnv)) anyStep (Sys.init newDb racingCalls) raced :=
    Reachable.run .init racingSchedule (Option.some_get racingRun_isSome).symm
  have hsent : raced.sent = [.rPush [112] [120], .rPush [112] [121], .rPopLPush [112] [113]] := rfl
  obtain ⟨db', hreplay, hview⟩ := h plainEnv 2 racingCalls raced (fun _ => SystemTime.unixEpoch)
    hreach raced_quiet (by rw [hsent]; exact ⟨trivial, trivial, trivial, trivial⟩)
  have hlive : Item.last? (view plainEnv raced.mem [112]) = some [121] := rfl
  have hlog : (replayAll plainEnv (fun _ => SystemTime.unixEpoch) 0 raced.sent newDb).map
      (fun db => Item.last? (view plainEnv db [112])) = some (some [120]) := rfl
  rw [hreplay, Option.map_some, hview, hlive] at hlog
  exact absurd hlog (by decide)

end Overtaken

end TitanKv
