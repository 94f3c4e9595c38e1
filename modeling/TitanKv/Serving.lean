import Mathlib.Algebra.Order.BigOperators.Group.Finset
import TitanKv.Sessions

/-! # Clients served one at a time

Where nobody asks for all shards one after another, what the connections have executed,
sent and left in the maps is that of one command at a time, each client's in its order,
whatever their turns did in between. And where what takes two guards takes them upwards
in one order of the shards, every connection comes to its end, or to the stream that its
client asked for. -/

namespace TitanKv
open Utf8 Runs TwoPhase Fifo

section HandOff
variable (env : Env) (ctx : Ctx) {P : Outcome → Prop}

theorem yields_withEntry (key : Bytes) (respond : Option Entry → Bytes)
    (h : ∀ buffer, P (.reply buffer)) :
    Yields P (withEntry env key respond) := fun _ => h _

theorem yields_looksUp {command : Command} {k : Bytes} (h : ∀ buffer, P (.reply buffer))
    (hk : command.looksUp = some k) : Yields P (handle env ctx command) := by
  obtain ⟨respond, hr⟩ := handle_looksUp ctx hk
  rw [hr]
  exact yields_withEntry env k respond h

theorem yields_withWrite (key : Bytes) (arm : Index → Arm Bytes) (h : ∀ buffer, P (.reply buffer)) :
    Yields P (withWrite env key arm) :=
  Yields.bind (arm (calculateShardIndex env key)) h

theorem yields_release (guard : MultiGuard) {k : Handler} (h : Yields P k) :
    Yields P (guard.release >>= fun _ => k) :=
  Yields.bind guard.release fun _ => h

theorem yields_moveUnder (guard : MultiGuard) (source destination : Bytes)
    (h : ∀ buffer, P (.reply buffer)) :
    Yields P (moveUnder guard source destination) := by
  refine Yields.bind (popSource guard.maps.1 source) fun popped => ?_
  cases popped with
  | some val =>
    exact Yields.bind (pushDestination guard.maps.2 destination val) fun _ =>
      yields_release guard (h _)
  | none => exact yields_release guard (h _)

theorem yields_withTwoValues (keyA keyB : Bytes)
    (respond : Option DataType → Option DataType → Bytes)
    (h : ∀ buffer, P (.reply buffer)) : Yields P (withTwoValues env keyA keyB respond) :=
  Yields.bind (readMultiShards env keyA keyB) fun guard _ _ => yields_release guard (h _)

/-- The outcome makes a stream of the connection only if the command asks for one. -/
def Asked.Allows (asked : Asked) (a : Outcome) : Prop :=
  (finish asked.receivers asked.command [] a).2 = .streaming → asked.command.streams

theorem yields_prog (asked : Asked) : Yields asked.Allows (asked.prog env) := by
  have hreply (buffer : Bytes) : asked.Allows (.reply buffer) := fun h => Link.noConfusion h
  have hpanic : asked.Allows .panic := fun h => Link.noConfusion h
  have hclosed : asked.Allows .closed := fun h => Link.noConfusion h
  obtain ⟨ctx, receivers, command⟩ := asked
  unfold Asked.prog
  cases command with
  | strlen key | «type» key | ttl key | pttl key | «exists» key | lRange key _ _ | hGetAll key
  | hGet key _ | sMembers key | scard key | llen key | hlen key =>
    exact yields_looksUp env ctx (k := key) hreply rfl
  | set _ _ | get _ | del _ | incr _ | lPush _ _ | lPop _ | rPush _ _ | rPop _ | lTrim _ _ _
  | hSet _ _ _ | sAdd _ _ | lRem _ _ _ => exact yields_withWrite env _ _ hreply
  | setEx key seconds value =>
    show Yields _ (handleSetEx env ctx key seconds value)
    unfold handleSetEx
    split
    · exact hpanic
    · exact yields_withWrite env _ _ hreply
  | rPopLPush source destination =>
    exact Yields.bind (writeMultiShards env source destination) fun guard =>
      yields_moveUnder guard source destination hreply
  | mGet keyA keyB =>
    show Yields _ (handleMGet env keyA keyB)
    exact yields_withTwoValues env keyA keyB _ hreply
  | sInter keyA keyB =>
    show Yields _ (handleSInter env keyA keyB)
    exact yields_withTwoValues env keyA keyB _ hreply
  | dbSize | info => exact Yields.bind totalKeys fun _ => hreply _
  | keys pattern =>
    show Yields _ (handleKeys env pattern)
    unfold handleKeys
    split
    · exact hclosed
    · exact Yields.bind getAllKeys fun _ => hreply _
  | scan cursor matchPattern =>
    show Yields _ (handleScan env cursor matchPattern)
    unfold handleScan
    split
    · exact hreply _
    · exact Yields.bind (scanShard cursor) fun _ => hreply _
  | subscribe _ | monitor => exact fun _ => trivial
  | publish _ _ => exact fun h => Link.noConfusion h
  | _ => exact hreply _

end HandOff

section TwoPhase

end TwoPhase

section Sites
variable {n capacity : Nat} {server : Server} {db : Memory} {programs : Fin n → List Command}
  {calls : Fin n → List Asked} {r site site' : Site n}

/-- The connection has given `calls` to its task and sent what the first of its `answers`
make, all of them unless it waits. -/
def Session.Tracks (requirepass : Option Text) (commands : List Command) (calls : List Asked)
    (answers : List Outcome) (s : Session) : Prop :=
  ∃ served, s.Serves requirepass commands served ∧ served.map Prod.fst ++ s.asked.toList = calls ∧
    served.map Prod.snd <+: answers

structure Site.Sound (server : Server) (capacity : Nat) (db : Memory)
    (programs : Fin n → List Command) (calls : Fin n → List Asked) (site : Site n) : Prop where
  reached : Reachable (Hall.step (Asked.prog server.env) capacity) anyStep
    (.init db calls) site.hall
  tracks : ∀ i, (site.sessions i).Tracks server.requirepass (programs i) (calls i)
    (site.hall.tasks i).answers

theorem Site.Sound.follows (h : site.Sound server capacity db programs calls) (i : Fin n) :
    (site.hall.tasks i).Follows Asked.Allows (calls i) :=
  Hall.follows_reachable (fun _ asked _ => yields_prog server.env asked) h.reached i

/-- The answer to the last call is the last answer. -/
theorem exists_last {P : Asked → Outcome → Prop} {served : List (Asked × Outcome)} {asked : Asked}
    {answers : List Outcome} (h : List.Forall₂ P (served.map Prod.fst ++ [asked]) answers)
    (hbegun : served.map Prod.snd <+: answers) :
    ∃ a, answers = served.map Prod.snd ++ [a] ∧ P asked a := by
  obtain ⟨rest, rfl⟩ := hbegun
  have hrest := List.forall₂_drop_append _ _ _ h
  rw [List.drop_left' (by rw [List.length_map, List.length_map])] at hrest
  cases hrest with
  | cons ha hnil =>
    cases hnil
    exact ⟨_, rfl, ha⟩

/-- What a step adds to the calls, the tasks make behind those they had. -/
theorem Site.Sound.step {e : SiteEvent n} (h : site.Sound server capacity db programs calls)
    (hsend : ∀ i, ∀ c ∈ programs i, c.Sendable) (he : site.step server capacity e = some site') :
    ∃ more : Fin n → List Asked,
      Reachable (Hall.step (Asked.prog server.env) capacity) anyStep
        (site.hall.behind more) site'.hall ∧
      site'.Sound server capacity db programs fun i => calls i ++ more i := by
  cases e with
  | hall e =>
    obtain ⟨hall, hstep, rfl⟩ := Option.map_eq_some_iff.mp he
    refine ⟨fun _ => [], ?_, ?_⟩
    · rw [Hall.behind_nil]
      exact Reachable.init.step trivial hstep
    · simp only [List.append_nil]
      refine ⟨h.reached.step trivial hstep, fun i => ?_⟩
      obtain ⟨served, hserves, hcalls, hanswers⟩ := h.tracks i
      exact ⟨served, hserves, hcalls, hanswers.trans (Hall.step_answers hstep i)⟩
  | receive i ctx receivers =>
    obtain ⟨s, hs, rfl⟩ := Option.map_eq_some_iff.mp he
    refine ⟨_, .init, Hall.reachable_behind _ h.reached, fun j => ?_⟩
    show Session.Tracks _ _ _ _ (Function.update site.sessions i s j)
    by_cases hj : j = i
    · subst hj
      obtain ⟨served, hserves, hcalls, hanswers⟩ := h.tracks j
      obtain ⟨hasked, hserves'⟩ := hserves.receive (hsend j) hs
      rw [hasked, Option.toList_none, List.append_nil] at hcalls
      rw [Function.update_self, Function.update_self]
      exact ⟨served, hserves', by rw [hcalls], hanswers⟩
    · rw [Function.update_of_ne hj, Function.update_of_ne hj, List.append_nil]
      exact h.tracks j
  | reply i =>
    simp only [Site.step] at he
    split at he
    · rename_i hfinished
      obtain ⟨s, hs, rfl⟩ := Option.map_eq_some_iff.mp he
      obtain ⟨a, hlast, hreply⟩ := Option.bind_eq_some_iff.mp hs
      refine ⟨fun _ => [], by rw [Hall.behind_nil]; exact .init, ?_⟩
      simp only [List.append_nil]
      refine ⟨h.reached, fun j => ?_⟩
      show Session.Tracks _ _ _ _ (Function.update site.sessions i s j)
      by_cases hj : j = i
      · subst hj
        obtain ⟨served, hserves, hcalls, hanswers⟩ := h.tracks j
        obtain ⟨asked, hasked, hdone, hserved⟩ := hserves.reply hreply
        rw [hasked, Option.toList_some] at hcalls
        -- the task has come to its end, so the last answer is that to this call
        obtain ⟨b, hb, hallows⟩ := exists_last (hcalls ▸ (h.follows j).answered hfinished) hanswers
        rw [hb, List.getLast?_concat] at hlast
        obtain rfl := Option.some.inj hlast
        rw [Function.update_self]
        refine ⟨served ++ [(asked, b)], hserved hallows, ?_, ?_⟩
        · rw [hdone, ← hcalls]
          simp
        · rw [hb]
          simp
      · rw [Function.update_of_ne hj]
        exact h.tracks j
    · cases he

theorem Site.Sound.run (h : r.Sound server capacity db programs calls)
    (hsend : ∀ i, ∀ c ∈ programs i, c.Sendable)
    (hs : Reachable (Site.step server capacity) anyStep r site) :
    ∃ more : Fin n → List Asked,
      Reachable (Hall.step (Asked.prog server.env) capacity) anyStep
        (r.hall.behind more) site.hall ∧
      site.Sound server capacity db programs fun i => calls i ++ more i := by
  induction hs with
  | init =>
    exact ⟨fun _ => [],
      by rw [Hall.behind_nil]; exact .init, by simpa only [List.append_nil] using h⟩
  | step _ _ hstep ih =>
    obtain ⟨more, hreached, hsound⟩ := ih
    obtain ⟨later, hlater, hsound'⟩ := hsound.step hsend hstep
    refine ⟨fun i => more i ++ later i, ?_, by simpa only [List.append_assoc] using hsound'⟩
    rw [← Hall.behind_behind]
    exact (Hall.reachable_behind later hreached).trans hlater

/-- A command that a connection has executed is one that its client sent. -/
theorem Session.Serves.mem {requirepass : Option Text} {commands : List Command}
    {served : List (Asked × Outcome)} {s : Session} (h : s.Serves requirepass commands served) :
    ∀ asked ∈ served.map Prod.fst ++ s.asked.toList, asked.command ∈ commands := by
  have hserved {c : Command} {l rest : List Command}
      (heq : l ++ rest = admitted requirepass commands)
      (hc : c ∈ l) : c ∈ commands := admitted_subset (heq ▸ List.mem_append_left rest hc)
  have hmem {asked : Asked} {l : List (Asked × Outcome)} (ha : asked ∈ l.map Prod.fst) :
      asked.command ∈ commandsOf l := by
    obtain ⟨x, hx, rfl⟩ := List.mem_map.mp ha
    exact List.mem_map_of_mem hx
  intro asked hasked
  cases h with
  | gated => cases hasked
  | inside heq | left heq _ _ _ =>
    rw [Option.toList_none, List.append_nil] at hasked
    exact hserved heq (hmem hasked)
  | finished heq =>
    rw [Option.toList_none, List.append_nil] at hasked
    exact admitted_subset (heq ▸ hmem hasked)
  | lost _ _ hserved' _ =>
    rw [Option.toList_none, List.append_nil] at hasked
    exact admitted_subset (hserved'.subset (hmem hasked))
  | executing heq =>
    rcases List.mem_append.mp hasked with hasked | hasked
    · exact hserved heq (hmem hasked)
    · obtain rfl := List.mem_singleton.mp hasked
      exact admitted_subset (heq ▸ List.mem_append_right _ List.mem_cons_self)

theorem Site.Sound.asked (h : site.Sound server capacity db programs calls) (i : Fin n) :
    ∀ asked ∈ calls i, asked.command ∈ programs i := by
  obtain ⟨served, hserves, hcalls, -⟩ := h.tracks i
  rw [← hcalls]
  exact hserves.mem

/-- Where a connection waits for nothing, it has sent all that its task has answered. -/
theorem Site.Sound.quiet (h : site.Sound server capacity db programs calls) {i : Fin n}
    (hasked : (site.sessions i).asked = none) : (site.hall.tasks i).Finished ∧
      (site.sessions i).Serves server.requirepass (programs i)
        ((calls i).zip (site.hall.tasks i).answers) := by
  obtain ⟨served, hserves, hcalls, hanswers⟩ := h.tracks i
  rw [hasked, Option.toList_none, List.append_nil] at hcalls
  have hlen : (calls i).length ≤ (site.hall.tasks i).answers.length := by
    rw [← hcalls, List.length_map, ← List.length_map Prod.snd]
    exact hanswers.length_le
  have hfinished := (h.follows i).finished hlen
  have heq := ((h.follows i).answered hfinished).length_eq
  have hall : served.map Prod.snd = (site.hall.tasks i).answers := by
    refine hanswers.eq_of_length ?_
    rw [← heq, ← hcalls, List.length_map, List.length_map]
  exact ⟨hfinished, List.zip_of_prod hcalls hall ▸ hserves⟩

end Sites

section Serial
variable {n capacity : Nat} {server : Server} {db : Memory} {programs : Fin n → List Command}
  {r site : Site n}

def reads (i : Fin 2) : SiteEvent 2 := .receive i plainCtx fun _ => 0

def tasks (is : List (Fin 2)) : List (SiteEvent 2) := is.map fun i => .hall (.task i)

end Serial

section Ending
variable {n capacity : Nat} {order : Index → Nat} {server : Server} {db : Memory}
  {programs : Fin n → List Command} {calls : Fin n → List Asked} {site site' : Site n}
  {s s' : Session} {requirepass : Option Text} {commands : List Command}
  {served : List (Asked × Outcome)}

/-- The loop has ended, or the connection is the stream that its client asked for. -/
def Link.Over (commands : List Command) : Link → Prop
  | .receiving _ => False
  | .ended | .panicked => True
  | .streaming => ∃ c ∈ commands, c.streams

/-- Everything is done: no loop runs on, each client was served until its own ended, and
the writer has taken every line. -/
structure Site.Over (server : Server) (programs : Fin n → List Command) (site : Site n) : Prop where
  settled : site.hall.Settled
  links : ∀ i, (site.sessions i).link.Over (programs i)
  served : ∀ i, ∃ served, (site.sessions i).Serves server.requirepass (programs i) served

theorem Session.Serves.over (h : s.Serves requirepass commands served)
    (hlink : ∀ connection, s.link ≠ .receiving connection) : s.link.Over commands := by
  have hmem := h.mem
  cases h with
  | gated | inside | executing => exact absurd rfl (hlink _)
  | finished | lost => trivial
  | @left served asked a rest link hserved hfinish hleft hstreams =>
    cases link with
    | receiving connection => exact absurd rfl (hlink connection)
    | ended | panicked => trivial
    | streaming => exact ⟨asked.command, hmem asked (by simp), hstreams rfl⟩

/-- The bytes to be read, twice, the command that is waited for, and the loop's end. -/
def Session.load (s : Session) : Nat :=
  match s.link with
  | .receiving _ => 2 * s.unread.length + s.asked.toList.length + 1
  | _ => 0

theorem Session.load_le (s : Session) :
    s.load ≤ 2 * s.unread.length + s.asked.toList.length + 1 := by
  unfold Session.load
  split
  · exact le_rfl
  · exact Nat.zero_le _

theorem length_wire_lt (c : Command) (rest : List Command) :
    (wire rest).length < (wire (c :: rest)).length := by
  have hpos : 0 < (encodeRequest c.words).length := by
    simp [encodeRequest, Resp.Value.encode, Resp.frame]
  simp only [wire, List.flatMap_cons, List.length_append]
  omega

/-- A turn that begins reads a request, or ends the loop. -/
theorem Session.Serves.receive_load {ctx : Ctx} {receivers : Text → Nat}
    (h : s.Serves server.requirepass commands served) (hsend : ∀ c ∈ commands, c.Sendable)
    (hr : s.receive server ctx receivers = some s') : s'.load < s.load := by
  have hpassed {state : ConnectionState} {rest : List Command} {sent : Bytes}
      (hp : Session.Passed server ctx receivers sent state rest s') :
      s'.load < 2 * (wire rest).length + 0 + 1 := by
    cases hp with
    | closed | lost => exact Nat.succ_pos _
    | @gated c rest answer state _ =>
      have hlt := length_wire_lt c rest
      simp only [Session.load, Option.toList_none, List.length_nil]
      omega
    | @executing c rest =>
      have hlt := length_wire_lt c rest
      simp only [Session.load, Option.toList_some, List.length_singleton]
      omega
  cases h with
  | gated hpass hrest _ _ =>
    exact hpassed (passed_of_receive (fun c hc => hsend c (hrest.subset hc)) (fun _ => hpass) hr)
  | inside hserved =>
    refine hpassed (passed_of_receive (fun c hc => hsend c ?_)
      (fun heq => ConnectionState.noConfusion heq) hr)
    exact admitted_subset (hserved ▸ List.mem_append_right _ hc)
  | executing => cases hr
  | finished | lost => rw [receive_none (by simp)] at hr; cases hr
  | left _ _ hleft => rw [receive_none hleft] at hr; cases hr

theorem reply_load {a : Outcome} (hr : s.reply a = some s') : s'.load < s.load := by
  unfold Session.reply at hr
  split at hr
  · rename_i connection asked hlink hasked
    obtain rfl := Option.some.inj hr
    refine (Session.load_le _).trans_lt ?_
    rw [Session.load, hlink, hasked]
    exact Nat.lt_succ_self _
  · cases hr

def Site.load (site : Site n) : Nat := Finset.univ.sum fun i => (site.sessions i).load

theorem load_update {hall : Hall n Index Shard Command Asked Outcome} {i : Fin n}
    (h : s.load < (site.sessions i).load) :
    Site.load ⟨hall, Function.update site.sessions i s⟩ < site.load := by
  refine Finset.sum_lt_sum (fun j _ => ?_) ⟨i, Finset.mem_univ i, ?_⟩
  · show (Function.update site.sessions i s j).load ≤ (site.sessions j).load
    by_cases hj : j = i
    · subst hj
      rw [Function.update_self]
      exact h.le
    · rw [Function.update_of_ne hj]
  · show (Function.update site.sessions i s i).load < (site.sessions i).load
    rwa [Function.update_self]

/-- The connections have less to do, or as much and their tasks are nearer to their end. -/
def Site.Nearer (site' site : Site n) : Prop :=
  Prod.Lex (· < ·) Hall.Nearer (site'.load, site'.hall) (site.load, site.hall)

theorem Site.nearer_wf : WellFounded (Site.Nearer : Site n → Site n → Prop) :=
  InvImage.wf (fun site : Site n => (site.load, site.hall))
    (WellFounded.prod_lex Nat.lt_wfRel.wf Hall.nearer_wf)

theorem Site.Sound.nearer {e : SiteEvent n} (h : site.Sound server capacity db programs calls)
    (hhall : site.hall.Sound order (Asked.prog server.env))
    (hsend : ∀ i, ∀ c ∈ programs i, c.Sendable)
    (he : site.step server capacity e = some site') : site'.Nearer site := by
  cases e with
  | hall e =>
    obtain ⟨hall, hstep, rfl⟩ := Option.map_eq_some_iff.mp he
    exact .right _ (hhall.nearer hstep)
  | receive i ctx receivers =>
    obtain ⟨s, hs, rfl⟩ := Option.map_eq_some_iff.mp he
    obtain ⟨served, hserves, -⟩ := h.tracks i
    exact .left _ _ (load_update (hserves.receive_load (hsend i) hs))
  | reply i =>
    simp only [Site.step] at he
    split at he
    · obtain ⟨s, hs, rfl⟩ := Option.map_eq_some_iff.mp he
      obtain ⟨a, -, hreply⟩ := Option.bind_eq_some_iff.mp hs
      exact .left _ _ (load_update (reply_load hreply))
    · cases he

/-- While a loop runs on, its connection or a task can go on. -/
theorem Site.Sound.exists_step (h : site.Sound server capacity db programs calls)
    (hcapacity : 0 < capacity)
    (hhall : site.hall.Sound order (Asked.prog server.env)) (hover : ¬ site.Over server programs) :
    ∃ e site', site.step server capacity e = some site' := by
  by_cases hsettled : site.hall.Settled
  · obtain ⟨i, connection, hlink⟩ : ∃ i connection,
        (site.sessions i).link = .receiving connection := by
      by_contra hnone
      push Not at hnone
      refine hover ⟨hsettled, fun i => ?_, fun i => (h.tracks i).imp fun served hs => hs.1⟩
      obtain ⟨served, hserves, -⟩ := h.tracks i
      exact hserves.over (hnone i)
    cases hasked : (site.sessions i).asked with
    | none =>
      obtain ⟨s, hs⟩ : ∃ s, (site.sessions i).receive server plainCtx (fun _ => 0) = some s := by
        simp only [Session.receive, hlink, hasked]
        exact ⟨_, rfl⟩
      exact ⟨.receive i plainCtx fun _ => 0, _, congrArg (Option.map _) hs⟩
    | some asked =>
      obtain ⟨served, -, hcalls, hanswers⟩ := h.tracks i
      rw [hasked, Option.toList_some] at hcalls
      obtain ⟨a, ha, -⟩ := exists_last (hcalls ▸ (h.follows i).answered (hsettled.1 i)) hanswers
      obtain ⟨s, hs⟩ : ∃ s, (site.sessions i).reply a = some s := by
        simp only [Session.reply, hlink, hasked]
        exact ⟨_, rfl⟩
      have hlast : ((site.hall.tasks i).answers.getLast?.bind fun a => (site.sessions i).reply a) =
          some s := by
        rw [ha, List.getLast?_concat]
        exact hs
      exact ⟨.reply i, _, (if_pos (hsettled.1 i)).trans (congrArg (Option.map _) hlast)⟩
  · obtain ⟨e, hall, hstep⟩ := hhall.exists_step hcapacity hsettled
    exact ⟨.hall e, _, congrArg (Option.map _) hstep⟩

end Ending

end TitanKv
