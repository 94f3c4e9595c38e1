import TitanKv.Waiting
import TitanKv.Wire

/-! # Clients at the same time

Any number of connections, each fed with the requests of its client. A connection reads a
request, passes it through the gate and gives the command to its task, which waits for the
shards among the tasks of the others and goes on operation by operation; when the task has
come to its end, the connection sends the reply and reads on. So the turns of the
connections overlap. What a connection has executed is what its client sent once it was
let in, in that order, and it was sent what this came to. -/

namespace TitanKv
open Utf8 Runs TwoPhase Fifo

section Sessions

/-- A command that a connection executes, with the clock, the client table and the
receivers of each channel. -/
structure Asked where
  ctx : Ctx
  receivers : Text → Nat
  command : Command

def Asked.prog (env : Env) (asked : Asked) : Handler := handle env asked.ctx asked.command

/-- How a turn goes on behind the gate: it is over, or it executes a command. -/
inductive Passage where
  | over (sent : Bytes) (link : Link)
  | execute (command : Command)

/-- A turn up to the dispatch. -/
def passGate (server : Server) (connection : Connection) : Except Failure (List Bytes) → Passage
  | .error .panic => .over [] .panicked
  | .error .err => .over [] .ended
  | .ok parts =>
    if parts = [] then .over [] .ended
    else if parts.any summaryPanics then .over [] .panicked
    else match connection.state with
      | .unauthorized => match gate server.requirepass (parseCommand parts) with
        | some answer => .over (connection.writeBuffer ++ answer.1) (.receiving ⟨answer.2, []⟩)
        | none => .over [] .panicked
      | .authenticated => .execute (parseCommand parts)

/-- The rest of a turn that nobody comes between. -/
def Passage.alone (server : Server) (connection : Connection) (received : Received) (db : Memory) :
    Passage → Option Turn
  | .over sent link => some ⟨sent, link, db, []⟩
  | .execute command => ((handle server.env received.ctx command).run db).map fun r =>
    let done := finish received.receivers command connection.writeBuffer r.1
    ⟨done.1, done.2, r.2.1, r.2.2⟩

theorem turn_eq_passGate (server : Server) (connection : Connection) (received : Received)
    (db : Memory) :
    turn server connection received db =
      (passGate server connection received.read).alone server connection received db := by
  unfold turn passGate
  cases received.read with
  | error failure => cases failure <;> rfl
  | ok parts =>
    dsimp only
    split
    · rfl
    · split
      · rfl
      · cases connection.state with
        | authenticated => rfl
        | unauthorized => cases gate server.requirepass (parseCommand parts) <;> rfl

/-- A connection: the bytes it has yet to read, where its loop is, what it was sent, and
the command whose end it waits for. -/
structure Session where
  unread : Bytes
  link : Link
  sent : Bytes
  asked : Option Asked

/-- The connections and their tasks, with the maps, the guards and the channel of the log. -/
structure Site (n : Nat) where
  hall : Hall n Index Shard Command Asked Outcome
  sessions : Fin n → Session

inductive SiteEvent (n : Nat) where
  | hall (e : Action n)
  | receive (i : Fin n) (ctx : Ctx) (receivers : Text → Nat)
  | reply (i : Fin n)

def Session.pass (ctx : Ctx) (receivers : Text → Nat) (s : Session) (unread : Bytes) :
    Passage → Session
  | .over sent link => ⟨unread, link, s.sent ++ sent, none⟩
  | .execute command => ⟨unread, s.link, s.sent, some ⟨ctx, receivers, command⟩⟩

/-- The next request is read, and is over at the gate or becomes a command. -/
def Session.receive (server : Server) (ctx : Ctx) (receivers : Text → Nat) (s : Session) :
    Option Session :=
  match s.link, s.asked with
  | .receiving connection, none =>
    let read := readResp s.unread
    let unread := (read.map Prod.snd).toOption.getD []
    some (s.pass ctx receivers unread (passGate server connection (read.map Prod.fst)))
  | _, _ => none

/-- The command has come to its end. -/
def Session.reply (a : Outcome) (s : Session) : Option Session :=
  match s.link, s.asked with
  | .receiving connection, some asked =>
    let done := finish asked.receivers asked.command connection.writeBuffer a
    some ⟨s.unread, done.2, s.sent ++ done.1, none⟩
  | _, _ => none

namespace Site
variable {n : Nat} (server : Server) (capacity : Nat)

/-- Every client has connected, and what it is going to send is to be read. -/
def opened (db : Memory) (programs : Fin n → List Command) : Site n where
  hall := .init db fun _ => []
  sessions i := ⟨wire (programs i), .receiving (.opened server), [], none⟩

def step (site : Site n) : SiteEvent n → Option (Site n)
  | .hall e =>
    (site.hall.step (Asked.prog server.env) capacity e).map fun hall => ⟨hall, site.sessions⟩
  | .receive i ctx receivers => ((site.sessions i).receive server ctx receivers).map fun s =>
    ⟨site.hall.behind (Function.update (fun _ => []) i s.asked.toList),
      Function.update site.sessions i s⟩
  | .reply i =>
    if (site.hall.tasks i).current = none ∧ (site.hall.tasks i).todo = [] then
      ((site.hall.tasks i).answers.getLast?.bind fun a => (site.sessions i).reply a).map fun s =>
        ⟨site.hall, Function.update site.sessions i s⟩
    else none

end Site

end Sessions

section Served

/-- Commands that were executed, and what they came to. -/
def commandsOf (served : List (Asked × Outcome)) : List Command := served.map fun x => x.1.command

def repliesTo (served : List (Asked × Outcome)) : Bytes :=
  served.flatMap fun x => (finish x.1.receivers x.1.command [] x.2).1

/-- The commands that get past the gate: those behind the first `AUTH` with the password. -/
def admitted : Option Text → List Command → List Command
  | none, commands => commands
  | some password, commands => (commands.dropWhile fun c => c ≠ .auth password).tail

def refusal : Command → Bytes
  | .auth _ => lit "-ERR invalid password\r\n"
  | _ => lit "-NOAUTH Authentication required.\r\n"

/-- What the gate itself replies. -/
def gateReplies : Option Text → List Command → Bytes
  | none, _ => []
  | some password, commands => (commands.takeWhile fun c => c ≠ .auth password).flatMap refusal ++
    if .auth password ∈ commands then lit "+OK\r\n" else []

/-- What became of a client's commands: those of `served` were executed, in the order
they were sent, and it was sent what they came to. -/
inductive Session.Serves (requirepass : Option Text) (commands : List Command) :
    List (Asked × Outcome) → Session → Prop
  | gated {rest : List Command} {sent : Bytes} : requirepass.isSome → rest <:+ commands →
    admitted requirepass rest = admitted requirepass commands →
    sent ++ gateReplies requirepass rest = gateReplies requirepass commands →
    Serves requirepass commands [] ⟨wire rest, .receiving ⟨.unauthorized, []⟩, sent, none⟩
  | inside {served : List (Asked × Outcome)} {rest : List Command} :
    commandsOf served ++ rest = admitted requirepass commands →
    Serves requirepass commands served ⟨wire rest, .receiving ⟨.authenticated, []⟩,
      gateReplies requirepass commands ++ repliesTo served, none⟩
  | executing {served : List (Asked × Outcome)} {asked : Asked} {rest : List Command} :
    commandsOf served ++ asked.command :: rest = admitted requirepass commands →
    Serves requirepass commands served ⟨wire rest, .receiving ⟨.authenticated, []⟩,
      gateReplies requirepass commands ++ repliesTo served, some asked⟩
  | finished {served : List (Asked × Outcome)} : commandsOf served = admitted requirepass commands →
    Serves requirepass commands served
      ⟨[], .ended, gateReplies requirepass commands ++ repliesTo served, none⟩
  | lost {served : List (Asked × Outcome)} {c : Command} {rest : List Command} {sent : Bytes} :
    c ∈ commands → c.words.any summaryPanics = true →
    commandsOf served <+: admitted requirepass commands →
    sent <+: gateReplies requirepass commands ++ repliesTo served →
    Serves requirepass commands served ⟨wire rest, .panicked, sent, none⟩
  | left {served : List (Asked × Outcome)} {asked : Asked} {a : Outcome} {rest : List Command}
      {link : Link} :
    commandsOf (served ++ [(asked, a)]) ++ rest = admitted requirepass commands →
    (finish asked.receivers asked.command [] a).2 = link →
    (∀ connection, link ≠ .receiving connection) →
    (link = .streaming → asked.command.streams) →
    Serves requirepass commands (served ++ [(asked, a)])
      ⟨wire rest, link, gateReplies requirepass commands ++ repliesTo (served ++ [(asked, a)]),
        none⟩

section Gate
variable {password : Text} {c : Command} {commands : List Command}

theorem gate_some (password : Text) (c : Command) : gate (some password) c =
    some (if c = .auth password then (lit "+OK\r\n", .authenticated)
      else (refusal c, .unauthorized)) := by
  cases c with
  | auth provided => simp only [gate, Option.map_some, Command.auth.injEq, refusal]
  | _ => rfl

theorem admitted_auth : admitted (some password) (.auth password :: commands) = commands := by
  simp [admitted]

theorem admitted_of_ne (h : c ≠ .auth password) :
    admitted (some password) (c :: commands) = admitted (some password) commands := by
  simp [admitted, h]

theorem gateReplies_auth :
    gateReplies (some password) (.auth password :: commands) = lit "+OK\r\n" := by
  simp [gateReplies]

theorem gateReplies_of_ne (h : c ≠ .auth password) :
    gateReplies (some password) (c :: commands) =
      refusal c ++ gateReplies (some password) commands := by
  simp [gateReplies, h, Ne.symm h]

theorem admitted_subset {requirepass : Option Text} (h : c ∈ admitted requirepass commands) :
    c ∈ commands := by
  cases requirepass with
  | none => exact h
  | some password => exact (List.dropWhile_suffix _).subset (List.mem_of_mem_tail h)

end Gate

section Turn
variable {server : Server} {ctx : Ctx} {receivers : Text → Nat} {requirepass : Option Text}
  {commands : List Command} {served : List (Asked × Outcome)} {s s' : Session}

theorem commandsOf_concat (served : List (Asked × Outcome)) (asked : Asked) (a : Outcome) :
    commandsOf (served ++ [(asked, a)]) = commandsOf served ++ [asked.command] :=
  List.map_append

theorem repliesTo_concat (served : List (Asked × Outcome)) (asked : Asked) (a : Outcome) :
    repliesTo (served ++ [(asked, a)]) =
      repliesTo served ++ (finish asked.receivers asked.command [] a).1 := by
  simp [repliesTo]

/-- Where a connection comes to that `rest` is left of, with what it was sent before. -/
inductive Session.Passed (server : Server) (ctx : Ctx) (receivers : Text → Nat) (sent : Bytes) :
    ConnectionState → List Command → Session → Prop
  | closed {state : ConnectionState} :
      Passed server ctx receivers sent state [] ⟨[], .ended, sent, none⟩
  | lost {state : ConnectionState} {c : Command} {rest : List Command} :
    c.words.any summaryPanics = true →
    Passed server ctx receivers sent state (c :: rest) ⟨wire rest, .panicked, sent, none⟩
  | gated {c : Command} {rest : List Command} {answer : Bytes} {state : ConnectionState} :
    gate server.requirepass c = some (answer, state) →
    Passed server ctx receivers sent .unauthorized (c :: rest)
      ⟨wire rest, .receiving ⟨state, []⟩, sent ++ answer, none⟩
  | executing {c : Command} {rest : List Command} :
    Passed server ctx receivers sent .authenticated (c :: rest)
      ⟨wire rest, .receiving ⟨.authenticated, []⟩, sent, some ⟨ctx, receivers, c⟩⟩

theorem receive_of_read {bytes unread sent : Bytes} {parts : List Bytes} {connection : Connection}
    (hread : readResp bytes = .ok (parts, unread)) :
    Session.receive server ctx receivers ⟨bytes, .receiving connection, sent, none⟩ =
      some (Session.pass ctx receivers ⟨bytes, .receiving connection, sent, none⟩ unread
        (passGate server connection (.ok parts))) := by
  simp only [Session.receive, hread]
  rfl

theorem passed_of_receive {state : ConnectionState} {rest : List Command} {sent : Bytes}
    (hsend : ∀ c ∈ rest, c.Sendable) (hpass : state = .unauthorized → server.requirepass.isSome)
    (h : Session.receive server ctx receivers ⟨wire rest, .receiving ⟨state, []⟩, sent, none⟩ =
      some s') :
    Session.Passed server ctx receivers sent state rest s' := by
  cases rest with
  | nil =>
    rw [show wire [] = [] from rfl, receive_of_read readResp_nil] at h
    obtain rfl := by simpa [passGate, Session.pass] using h
    exact .closed
  | cons c rest =>
    have hc := hsend c List.mem_cons_self
    rw [receive_of_read (readResp_wire hc rest), passGate] at h
    simp only [if_neg (words_ne_nil c), parseCommand_words hc.1] at h
    split at h
    · rename_i hsum
      obtain rfl := by simpa [Session.pass] using h
      exact .lost hsum
    · cases state with
      | unauthorized =>
        obtain ⟨password, hpassword⟩ := Option.isSome_iff_exists.mp (hpass rfl)
        have hgate := gate_some password c
        rw [← hpassword] at hgate
        simp only [hgate] at h
        obtain rfl := Option.some.inj h
        exact .gated hgate
      | authenticated =>
        obtain rfl := Option.some.inj h
        exact .executing

theorem receive_none (h : ∀ connection, s.link ≠ .receiving connection) :
    s.receive server ctx receivers = none := by
  unfold Session.receive
  split
  · rename_i connection hlink _
    exact absurd hlink (h connection)
  · rfl

theorem reply_none (a : Outcome) (h : s.asked = none) : s.reply a = none := by
  unfold Session.reply
  split
  · rename_i hasked
    rw [h] at hasked
    cases hasked
  · rfl

theorem finish_link (receivers : Text → Nat) (c : Command) (a : Outcome) :
    (finish receivers c [] a).2 = .receiving ⟨.authenticated, []⟩ ∨
      ∀ connection, (finish receivers c [] a).2 ≠ .receiving connection := by
  cases a with
  | reply buffer => exact Or.inl rfl
  | panic | closed => exact Or.inr fun _ => by simp [finish]
  | handOff =>
    cases c with
    | publish channel message => exact Or.inl rfl
    | _ => exact Or.inr fun _ => by simp [finish]

/-- A request is read where no command is waited for, and nothing is executed by it. -/
theorem Session.Serves.receive (h : s.Serves server.requirepass commands served)
    (hsend : ∀ c ∈ commands, c.Sendable) (hr : s.receive server ctx receivers = some s') :
    s.asked = none ∧ s'.Serves server.requirepass commands served := by
  cases h with
  | @gated rest sent hpass hrest hadmitted hreplies =>
    refine ⟨rfl, ?_⟩
    have hpassed := passed_of_receive (fun c hc => hsend c (hrest.subset hc)) (fun _ => hpass) hr
    obtain ⟨password, hpassword⟩ := Option.isSome_iff_exists.mp hpass
    rw [hpassword] at hadmitted hreplies ⊢
    cases hpassed with
    | closed =>
      have hsent : sent = gateReplies (some password) commands ++ repliesTo [] := by
        simpa [gateReplies, repliesTo] using hreplies
      rw [hsent]
      exact .finished (by simpa [commandsOf, admitted] using hadmitted)
    | lost hsum =>
      have hsent : sent <+: gateReplies (some password) commands := ⟨_, hreplies⟩
      exact .lost (hrest.subset List.mem_cons_self) hsum List.nil_prefix
        (hsent.trans (List.prefix_append _ _))
    | @gated c rest answer state hgate =>
      rw [hpassword, gate_some, Option.some.injEq] at hgate
      by_cases hc : c = .auth password
      · rw [if_pos hc] at hgate
        obtain ⟨rfl, rfl⟩ := Prod.mk.inj hgate
        rw [hc, gateReplies_auth] at hreplies
        rw [hc, admitted_auth] at hadmitted
        rw [hreplies, ← List.append_nil (gateReplies _ _)]
        exact .inside (show commandsOf [] ++ rest = _ from hadmitted)
      · rw [if_neg hc] at hgate
        obtain ⟨rfl, rfl⟩ := Prod.mk.inj hgate
        rw [gateReplies_of_ne hc, ← List.append_assoc] at hreplies
        rw [admitted_of_ne hc] at hadmitted
        exact .gated rfl ((List.suffix_cons c rest).trans hrest) hadmitted hreplies
  | @inside served rest hserved =>
    refine ⟨rfl, ?_⟩
    have hrest : ∀ c ∈ rest, c ∈ commands := fun c hc =>
      admitted_subset (hserved ▸ List.mem_append_right _ hc)
    have hopen : ConnectionState.authenticated = .unauthorized → server.requirepass.isSome :=
      fun heq => ConnectionState.noConfusion heq
    cases passed_of_receive (fun c hc => hsend c (hrest c hc)) hopen hr with
    | closed => exact .finished (by rwa [List.append_nil] at hserved)
    | lost hsum =>
      exact .lost (hrest _ List.mem_cons_self) hsum (hserved ▸ List.prefix_append _ _)
        List.prefix_rfl
    | executing => exact .executing hserved
  | executing => cases hr
  | finished | lost => rw [receive_none (by simp)] at hr; cases hr
  | left _ _ hleft => rw [receive_none hleft] at hr; cases hr

/-- The command that the connection waits for is the next one served. -/
theorem Session.Serves.reply {a : Outcome} (h : s.Serves requirepass commands served)
    (hr : s.reply a = some s') : ∃ asked, s.asked = some asked ∧ s'.asked = none ∧
      (((finish asked.receivers asked.command [] a).2 = .streaming → asked.command.streams) →
        s'.Serves requirepass commands (served ++ [(asked, a)])) := by
  cases h with
  | @executing served asked rest hserved =>
    obtain rfl := Option.some.inj hr
    refine ⟨asked, rfl, rfl, fun hstreams => ?_⟩
    rw [List.append_cons, ← commandsOf_concat served asked a] at hserved
    rw [List.append_assoc, ← repliesTo_concat]
    rcases finish_link asked.receivers asked.command a with hlink | hlink
    · rw [hlink]
      exact .inside hserved
    · exact .left hserved rfl hlink hstreams
  | gated | inside | finished | lost | left => rw [reply_none a rfl] at hr; cases hr

end Turn

end Served

end TitanKv
