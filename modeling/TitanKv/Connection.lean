import TitanKv.Effects
import TitanKv.Reader

/-! # One client's connection

The receive loop of a connection: it reads a request, passes it through the
password gate and, once authenticated, to the dispatcher, whose reply it flushes
before it reads on. What the loop prints and what it broadcasts to monitoring
clients is left out, but for the panic of cutting a long argument short within a
character. -/

namespace TitanKv
open Utf8 TwoPhase

inductive ConnectionState where
  | unauthorized
  | authenticated
  deriving DecidableEq

/-- The loop's own variables. -/
structure Connection where
  state : ConnectionState
  writeBuffer : Bytes
  deriving DecidableEq

structure Server where
  env : Env
  requirepass : Option Text

/-- What a turn of the loop gets from outside: what `read_resp` returned, the
clock and the client table, and the number of subscribers of each channel. -/
structure Received where
  read : Except Failure (List Bytes)
  ctx : Ctx
  receivers : Text → Nat

/-- Where a turn leaves the connection. -/
inductive Link where
  | receiving (connection : Connection)
  | ended
  | panicked
  | streaming
  deriving DecidableEq

structure Turn where
  sent : Bytes
  link : Link
  db : Memory
  logs : List Command

section Loop

/-- `&s[..15]` of an argument longer than 30 bytes, in the middle of a character. -/
def summaryPanics (part : Bytes) : Bool :=
  let s := encode (bytesToStr part)
  30 < s.length && (s[15]?).any isContinuation

def Connection.opened (server : Server) : Connection where
  state := if server.requirepass.isSome then .unauthorized else .authenticated
  writeBuffer := []

/-- The gate's answer and the state after it; `unwrap` panics without a password. -/
def gate (requirepass : Option Text) : Command → Option (Bytes × ConnectionState)
  | .auth providedPassword => requirepass.map fun actualPassword =>
    if providedPassword = actualPassword then (lit "+OK\r\n", .authenticated)
    else (lit "-ERR invalid password\r\n", .unauthorized)
  | _ => some (lit "-NOAUTH Authentication required.\r\n", .unauthorized)

/-- `handle_publish`: the reply with the number of receivers. -/
def publishReply (receivers : Text → Nat) (channel : Bytes) : Bytes :=
  integerReply (receivers (bytesToStr channel))

/-- The first message of `handle_subscribe`. -/
def subscribeAck (channel : Bytes) : Bytes :=
  lit "*3\r\n$9\r\nsubscribe\r\n" ++ writeBulk (encode (bytesToStr channel)) ++ lit ":1\r\n"

/-- What an arm's outcome makes of the connection. -/
def finish (receivers : Text → Nat) (command : Command) (writeBuffer : Bytes) :
    Outcome → Bytes × Link
  | .reply buffer => (writeBuffer ++ buffer, .receiving ⟨.authenticated, []⟩)
  | .panic => ([], .panicked)
  | .closed => ([], .ended)
  | .handOff => match command with
    | .publish channel _ =>
      (writeBuffer ++ publishReply receivers channel, .receiving ⟨.authenticated, []⟩)
    | .subscribe channel => (writeBuffer ++ subscribeAck channel, .streaming)
    | _ => (writeBuffer ++ okReply, .streaming)

/-- One turn of the loop; nothing where the arm never ends. -/
def turn (server : Server) (connection : Connection) (received : Received) (db : Memory) :
    Option Turn :=
  match received.read with
  | .error .panic => some ⟨[], .panicked, db, []⟩
  | .error .err => some ⟨[], .ended, db, []⟩
  | .ok parts =>
    if parts = [] then some ⟨[], .ended, db, []⟩
    else if parts.any summaryPanics then some ⟨[], .panicked, db, []⟩
    else
      let command := parseCommand parts
      match connection.state with
      | .unauthorized => match gate server.requirepass command with
        | some answer =>
          some ⟨connection.writeBuffer ++ answer.1, .receiving ⟨answer.2, []⟩, db, []⟩
        | none => some ⟨[], .panicked, db, []⟩
      | .authenticated => ((handle server.env received.ctx command).run db).map fun r =>
        let done := finish received.receivers command connection.writeBuffer r.1
        ⟨done.1, done.2, r.2.1, r.2.2⟩

/-- The loop: what each turn sent, and how the connection ended up. -/
def converse (server : Server) : Connection → List Received → Memory →
    Option (List Bytes × Link × Memory × List Command)
  | connection, [], db => some ([], .receiving connection, db, [])
  | connection, received :: rest, db => (turn server connection received db).bind fun t =>
    match t.link with
    | .receiving connection' => (converse server connection' rest t.db).map fun q =>
      (t.sent :: q.1, q.2.1, q.2.2.1, t.logs ++ q.2.2.2)
    | link => some ([t.sent], link, t.db, t.logs)

end Loop

section Gate
variable {server : Server} {password : Text} {parts : List Bytes} {received : Received}
  {requests : List Received}

/-- A two-part `AUTH` with the password, decoded as the server decodes it. -/
def Unlocks (password : Text) (parts : List Bytes) : Prop :=
  ∃ word arg, parts = [word, arg] ∧ uppercase word = lit "AUTH" ∧ fromUtf8Lossy arg = password

theorem unlocks_of_auth (h : parseCommand parts = .auth password) : Unlocks password parts := by
  cases parts with
  | nil => cases h
  | cons word rest =>
    have hparsed := parsedFrom_parseArgs (Verb.of? (uppercase word)) rest
    rw [parseCommand] at h
    rw [h] at hparsed
    obtain ⟨hv, arg, rfl, hpass⟩ := hparsed
    exact ⟨word, arg, rfl, Verb.of?_eq_some hv, hpass⟩

/-- The gate stays shut for every other request. -/
theorem gate_locked (h : ¬ Unlocks password parts) :
    ∃ answer, gate (some password) (parseCommand parts) = some (answer, .unauthorized) := by
  unfold gate
  split
  · rename_i provided hauth
    have hne : provided ≠ password := by
      rintro rfl
      exact h (unlocks_of_auth hauth)
    exact ⟨_, by rw [Option.map_some, if_neg hne]⟩
  · exact ⟨_, rfl⟩

/-- No request of the client unlocks the connection. -/
def Locked (password : Text) (requests : List Received) : Prop :=
  ∀ received ∈ requests, ∀ parts, received.read = .ok parts → ¬ Unlocks password parts

/-- A turn before the gate is the same over every database. -/
theorem turn_locked (hpass : server.requirepass = some password)
    (h : ∀ parts, received.read = .ok parts → ¬ Unlocks password parts) :
    ∃ sent link, (link = .receiving ⟨.unauthorized, []⟩ ∨ link = .ended ∨ link = .panicked) ∧
      ∀ db, turn server ⟨.unauthorized, []⟩ received db = some ⟨sent, link, db, []⟩ := by
  unfold turn
  cases hread : received.read with
  | error failure =>
    cases failure with
    | err => exact ⟨[], .ended, by simp, fun _ => rfl⟩
    | panic => exact ⟨[], .panicked, by simp, fun _ => rfl⟩
  | ok parts =>
    dsimp only
    split
    · exact ⟨[], .ended, by simp, fun _ => rfl⟩
    · split
      · exact ⟨[], .panicked, by simp, fun _ => rfl⟩
      · obtain ⟨answer, hgate⟩ := gate_locked (h parts hread)
        rw [hpass, hgate]
        exact ⟨_, _, Or.inl rfl, fun _ => rfl⟩

theorem converse_locked (hpass : server.requirepass = some password)
    (h : Locked password requests) :
    ∃ sent link, link ≠ .streaming ∧
      ∀ db, converse server ⟨.unauthorized, []⟩ requests db = some (sent, link, db, []) := by
  induction requests with
  | nil => exact ⟨[], _, by simp, fun _ => rfl⟩
  | cons received requests ih =>
    obtain ⟨sent, link, hlink, hturn⟩ := turn_locked hpass (h received (by simp))
    obtain ⟨sents, final, hfinal, hrest⟩ := ih fun r hr => h r (List.mem_cons_of_mem _ hr)
    rcases hlink with rfl | rfl | rfl
    · exact ⟨sent :: sents, final, hfinal, fun db => by simp [converse, hturn, hrest]⟩
    · exact ⟨[sent], .ended, by simp, fun db => by simp [converse, hturn]⟩
    · exact ⟨[sent], .panicked, by simp, fun db => by simp [converse, hturn]⟩

/-- Before the gate opens, a client sees nothing of the database and leaves no
trace in it. -/
theorem gate_noninterference (hpass : server.requirepass = some password)
    (h : Locked password requests) (db db' : Memory) :
    ∃ sent link, link ≠ .streaming ∧
      converse server (.opened server) requests db = some (sent, link, db, []) ∧
      converse server (.opened server) requests db' = some (sent, link, db', []) := by
  obtain ⟨sent, link, hlink, hrun⟩ := converse_locked hpass h
  have hopened : Connection.opened server = ⟨.unauthorized, []⟩ := by
    simp [Connection.opened, hpass]
  rw [hopened]
  exact ⟨sent, link, hlink, hrun db, hrun db'⟩

def receive (parts : List Bytes) : Received := ⟨.ok parts, plainCtx, fun _ => 0⟩

theorem gate_noninterference_attempt :
    let server : Server := ⟨plainEnv, some ['x']⟩
    let requests :=
      [receive [lit "auth", [121]], receive [lit "GET", [107]], receive [lit "MONITOR"]]
    ∃ sent link, link ≠ .streaming ∧
      converse server (.opened server) requests newDb = some (sent, link, newDb, []) ∧
      converse server (.opened server) requests (listDb [[120]]) =
        some (sent, link, listDb [[120]], []) := by
  refine gate_noninterference (show (Server.mk plainEnv (some ['x'])).requirepass =
    some ['x'] from rfl) ?_ _ _
  intro received hmem parts hread ⟨word, arg, hparts, hword, harg⟩
  rw [hparts] at hread
  simp only [List.mem_cons, List.not_mem_nil, or_false] at hmem
  rcases hmem with rfl | rfl | rfl
  · cases hread
    exact absurd harg (by decide)
  · cases hread
    exact absurd hword (by decide)
  · cases hread

end Gate

section Replies
variable (env : Env) (ctx : Ctx) {db db' : Memory} {a : Outcome} {logs : List Command}

/-- A command whose client gets no reply, or one whose header miscounts. -/
def Quiet (db : Memory) : Command → Prop
  | .rPush key _ => HoldsOther key (db (calculateShardIndex env key))
  | .keys pattern => env.regex (globRegex (bytesToStr pattern)) = none
  | .lRange key start stop =>
    ∃ list, stored env db key = some (.list list) ∧ Miscounts list start stop
  | _ => False

/-- The commands that turn the connection into a stream. -/
def Command.streams : Command → Prop
  | .subscribe _ | .monitor => True
  | _ => False

theorem isReply_withEntry {key : Bytes} {respond : Option Entry → Bytes}
    (h : ∀ entry, IsReply (respond entry))
    (hrun : (withEntry env key respond).run db = some (a, db', logs)) :
    ∃ r, a = .reply r ∧ IsReply r := by
  rw [run_withEntry] at hrun
  obtain ⟨rfl, -, -⟩ := Option.some.inj hrun
  exact ⟨_, rfl, h _⟩

theorem isReply_of_entry {respond : Option Entry → Bytes} (hnone : IsReply (respond none))
    (hsome : ∀ value expiresAt, IsReply (respond (some ⟨value, expiresAt⟩)))
    (entry : Option Entry) :
    IsReply (respond entry) := by
  cases entry with
  | none => exact hnone
  | some entry => exact hsome entry.value entry.expiresAt

theorem isReply_remaining (unit : Nat) (entry : Option Entry) :
    IsReply (remainingReply ctx unit entry) := by
  unfold remainingReply
  split
  · split
    · split
      · exact (IsAnswer.integer (-2)).isReply
      · exact (IsAnswer.integer _).isReply
    · exact (IsAnswer.integer (-1)).isReply
  · exact (IsAnswer.integer (-2)).isReply

theorem isReply_simple (name : String) (h : 13 ∉ lit name ∧ 10 ∉ lit name) :
    IsReply (lit "+" ++ lit name ++ crlf) := ⟨.simple (lit name), h, rfl⟩

theorem typeName_plain (value : DataType) :
    13 ∉ lit (typeName value) ∧ 10 ∉ lit (typeName value) := by
  cases value <;> simp only [typeName] <;> decide

/-- The lookups that count or describe what they find. -/
def Command.describes : Command → Option Bytes
  | .strlen key | .type key | .ttl key | .pttl key | .exists key | .scard key | .llen key
  | .hlen key =>
    some key
  | _ => none

theorem describes_replies {command : Command} {k : Bytes}
    (hrun : (handle env ctx command).run db = some (a, db', logs))
    (hk : command.describes = some k) : ∃ r, a = .reply r ∧ IsReply r := by
  cases command <;> cases hk <;>
    simp only [handle, handleStrlen, handleType, handleTtl, handlePttl, handleExists, handleScard,
      handleLlen, handleHlen] at hrun
  case ttl => exact isReply_withEntry env (isReply_remaining ctx _) hrun
  case pttl => exact isReply_withEntry env (isReply_remaining ctx _) hrun
  case «type» =>
    exact isReply_withEntry env (isReply_of_entry (isReply_simple "none" ⟨by decide, by decide⟩)
      fun value _ => isReply_simple _ (typeName_plain value)) hrun
  case «exists» =>
    exact isReply_withEntry env
      (isReply_of_entry IsAnswer.zero.isReply fun _ _ => IsAnswer.one.isReply) hrun
  case strlen =>
    refine isReply_withEntry env (isReply_of_entry IsAnswer.zero.isReply fun value _ => ?_) hrun
    cases value with
    | string val => exact (IsAnswer.integer _).isReply
    | _ => exact IsError.wrongKind.isReply
  case scard =>
    refine isReply_withEntry env (isReply_of_entry IsAnswer.zero.isReply fun value _ => ?_) hrun
    cases value with
    | set members => exact (IsAnswer.integer _).isReply
    | _ => exact IsError.wrongType.isReply
  case llen =>
    refine isReply_withEntry env (isReply_of_entry IsAnswer.zero.isReply fun value _ => ?_) hrun
    cases value with
    | list list => exact (IsAnswer.integer _).isReply
    | _ => exact IsError.wrongType.isReply
  case hlen =>
    refine isReply_withEntry env (isReply_of_entry IsAnswer.zero.isReply fun value _ => ?_) hrun
    cases value with
    | hash hmap => exact (IsAnswer.integer _).isReply
    | _ => exact IsError.wrongType.isReply

theorem lRange_replies_iff {key : Bytes} {start stop : Int} :
    (∃ r, (handleLRange env key start stop).run db = some (.reply r, db, []) ∧ IsReply r) ↔
      ¬ Quiet env db (.lRange key start stop) := by
  rw [handleLRange, run_withEntry]
  simp only [Quiet, stored, Shard.value?]
  cases hl : (db (calculateShardIndex env key)).lookup key with
  | none => exact iff_of_true ⟨_, rfl, (IsAnswer.array []).isReply⟩ (by simp)
  | some entry =>
    obtain ⟨value, expiresAt⟩ := entry
    cases value with
    | list list =>
      have hiff : IsReply (lRangeReply list start stop) ↔ ¬ Miscounts list start stop :=
        isReply_lRangeReply_iff
      constructor
      · rintro ⟨r, hr, hreply⟩ ⟨list', hlist, hmis⟩
        obtain rfl : list' = list := by simpa using hlist.symm
        obtain rfl : lRangeReply list' start stop = r :=
          Outcome.reply.inj (Prod.mk.inj (Option.some.inj hr)).1
        exact hiff.mp hreply hmis
      · intro hq
        exact ⟨lRangeReply list start stop, rfl, hiff.mpr fun hmis => hq ⟨list, rfl, hmis⟩⟩
    | _ => exact iff_of_true ⟨_, rfl, IsError.wrongKind.isReply⟩ (by simp)

theorem Says.replies {p : Handler} {value : Option Resp.Value} {r : Bytes}
    (h : Says (p.run db) value)
    (hp : p.run db = some (.reply r, db, [])) (hrun : p.run db = some (a, db', logs)) :
    ∃ r, a = .reply r ∧ IsReply r := by
  rw [hp] at hrun
  obtain ⟨rfl, -, -⟩ := Option.some.inj hrun
  exact ⟨r, rfl, h.isReply hp⟩

theorem run_handleScan (cursor : Nat) (matchPattern : Option Bytes) :
    ∃ r, (handleScan env cursor matchPattern).run db = some (.reply r, db, []) := by
  unfold handleScan
  split
  · exact ⟨_, rfl⟩
  · rw [Prog.run_bind, run_scanShard]
    exact ⟨_, rfl⟩

/-- A reading command replies, if it is not quiet and not about a channel. -/
theorem reads_reply {command : Command} (hr : command.reads) (hs : ¬ command.streams)
    (hq : ¬ Quiet env db command) (hp : ∀ channel message, command ≠ .publish channel message)
    (hrun : (handle env ctx command).run db = some (a, db', logs)) :
    ∃ r, a = .reply r ∧ IsReply r := by
  cases command with
  | auth password | unsubscribe channel | client =>
    obtain ⟨rfl, -, -⟩ := Option.some.inj hrun
    exact ⟨_, rfl, IsAnswer.ok.isReply⟩
  | ping =>
    obtain ⟨rfl, -, -⟩ := Option.some.inj hrun
    exact ⟨_, rfl, .simple (lit "PONG"), ⟨by decide, by decide⟩, rfl⟩
  | memory =>
    obtain ⟨rfl, -, -⟩ := Option.some.inj hrun
    exact ⟨_, rfl, (IsAnswer.integer 64).isReply⟩
  | unknown =>
    obtain ⟨rfl, -, -⟩ := Option.some.inj hrun
    exact ⟨_, rfl, .error (lit "ERR unknown command"), ⟨by decide, by decide⟩, rfl⟩
  | clientList =>
    obtain ⟨rfl, -, -⟩ := Option.some.inj hrun
    exact ⟨_, rfl, (IsAnswer.bulk _).isReply⟩
  | strlen k | «type» k | ttl k | pttl k | «exists» k | scard k | llen k | hlen k =>
    exact describes_replies env ctx hrun (k := k) rfl
  | lRange key start stop =>
    obtain ⟨r, hreply, hr⟩ := (lRange_replies_iff env).mpr hq
    simp only [handle] at hrun
    rw [hreply] at hrun
    obtain ⟨rfl, -, -⟩ := Option.some.inj hrun
    exact ⟨r, rfl, hr⟩
  | dbSize =>
    simp only [handle, handleDbSize, totalKeys] at hrun
    rw [Prog.run_bind, run_overShards] at hrun
    obtain ⟨rfl, -, -⟩ := Option.some.inj hrun
    exact ⟨_, rfl, (IsAnswer.integer _).isReply⟩
  | info =>
    simp only [handle, handleInfo, totalKeys] at hrun
    rw [Prog.run_bind, run_overShards] at hrun
    obtain ⟨rfl, -, -⟩ := Option.some.inj hrun
    exact ⟨_, rfl, (IsAnswer.bulk _).isReply⟩
  | hGet key field => exact (hGet_replies env ctx db key field).replies rfl hrun
  | hGetAll key => exact (hGetAll_replies env ctx db key).replies rfl hrun
  | sMembers key => exact (sMembers_replies env ctx db key).replies rfl hrun
  | mGet keyA keyB =>
    exact (mGet_replies env ctx db keyA keyB).replies (run_withTwoValues env db keyA keyB _) hrun
  | sInter keyA keyB =>
    exact (sInter_replies env ctx db keyA keyB).replies (run_withTwoValues env db keyA keyB _) hrun
  | keys pattern =>
    simp only [handle, handleKeys] at hrun
    cases hre : env.regex (globRegex (bytesToStr pattern)) with
    | none => exact absurd hre hq
    | some isMatch =>
      rw [hre, Prog.run_bind, run_getAllKeys] at hrun
      obtain ⟨rfl, -, -⟩ := Option.some.inj hrun
      exact ⟨_, rfl, (IsAnswer.array _).isReply⟩
  | scan cursor matchPattern =>
    obtain ⟨r, hreply⟩ := run_handleScan env cursor matchPattern
    exact (scan_replies env ctx db cursor matchPattern).replies hreply hrun
  | publish channel message => exact absurd rfl (hp channel message)
  | subscribe _ | monitor => exact absurd trivial hs
  | set _ _ | setEx _ _ _ | get _ | del _ | incr _ | lPush _ _ | lPop _ | rPush _ _ | rPop _
  | lTrim _ _ _ | hSet _ _ _ | sAdd _ _ | lRem _ _ _ | rPopLPush _ _ => exact hr.elim

variable (receivers : Text → Nat)

/-- A command that is not quiet and ends without a panic sends one reply. -/
theorem handle_replies {command : Command} (hs : ¬ command.streams) (hq : ¬ Quiet env db command)
    (hrun : (handle env ctx command).run db = some (a, db', logs)) (ha : a ≠ .panic) :
    IsReply (finish receivers command [] a).1 := by
  by_cases hpub : ∃ channel message, command = .publish channel message
  · obtain ⟨channel, message, rfl⟩ := hpub
    obtain ⟨rfl, -, -⟩ := Option.some.inj hrun
    exact (IsAnswer.integer _).isReply
  · by_cases hr : command.reads
    · obtain ⟨r, rfl, hreply⟩ := reads_reply env ctx hr hs hq
        (fun channel message h => hpub ⟨channel, message, h⟩) hrun
      exact hreply
    · cases handle_ended env ctx hr hrun with
      | kept _ hreply => exact hreply
      | logged _ hreply => exact hreply.isReply
      | silent hsilent =>
        cases command with
        | rPush key value => exact absurd hsilent hq
        | _ => exact hsilent.elim
      | panic _ => exact absurd rfl ha

/-- A quiet command ends without a panic and sends no reply. -/
theorem quiet_ends {command : Command} (hq : Quiet env db command) :
    ∃ a db' logs, (handle env ctx command).run db = some (a, db', logs) ∧ a ≠ .panic ∧
      ¬ IsReply (finish receivers command [] a).1 := by
  cases command with
  | rPush key value =>
    obtain ⟨a, db', logs, hrun, -⟩ := (handleRPush_writes env key value).agrees db
    refine ⟨a, db', logs, hrun, ?_⟩
    have hended : Ended (Silences env db (.rPush key value)) db a db' logs :=
      handle_ended env ctx id hrun
    cases hended with
    | silent _ => exact ⟨by simp, fun h => h.ne_nil rfl⟩
    | kept hs _ => exact absurd hq hs
    | logged hs _ => exact absurd hq hs
    | panic hs => exact absurd hq hs
  | keys pattern =>
    refine ⟨.closed, db, [], ?_, by simp, fun h => h.ne_nil rfl⟩
    simp only [handle, handleKeys]
    rw [show env.regex (globRegex (bytesToStr pattern)) = none from hq]
    rfl
  | lRange key start stop =>
    obtain ⟨r, hrun⟩ : ∃ r, (handleLRange env key start stop).run db = some (.reply r, db, []) :=
      ⟨_, run_withEntry env db key _⟩
    exact ⟨.reply r, db, [], hrun, by simp, fun h => (lRange_replies_iff env).mp ⟨r, hrun, h⟩ hq⟩
  | _ => exact hq.elim

end Replies

section Turns
variable {server : Server} {received : Received} {db : Memory} {parts : List Bytes}

/-- A request whose turn is not answered. -/
def Mute (server : Server) (db : Memory) (parts : List Bytes) : Prop :=
  parts.any summaryPanics = false ∧ Quiet server.env db (parseCommand parts)

/-- Whenever an authenticated connection's turn ends without a panic, it has sent
one complete reply. -/
def OneReply (server : Server) (received : Received) (db : Memory) : Prop :=
  ∀ t, turn server ⟨.authenticated, []⟩ received db = some t → t.link ≠ .panicked → IsReply t.sent

/-- A request of an authenticated connection that is to be answered. -/
def Expects (received : Received) (parts : List Bytes) : Prop :=
  received.read = .ok parts ∧ parts ≠ [] ∧ ¬ (parseCommand parts).streams

theorem turn_panics (h : Expects received parts) (hsum : parts.any summaryPanics = true)
    (connection : Connection) :
    turn server connection received db = some ⟨[], .panicked, db, []⟩ := by
  obtain ⟨hread, hne, -⟩ := h
  unfold turn
  rw [hread]
  dsimp only
  rw [if_neg hne, if_pos hsum]

theorem turn_authenticated (h : Expects received parts) (hsum : parts.any summaryPanics = false) :
    turn server ⟨.authenticated, []⟩ received db =
      ((handle server.env received.ctx (parseCommand parts)).run db).map fun r =>
        ⟨(finish received.receivers (parseCommand parts) [] r.1).1,
          (finish received.receivers (parseCommand parts) [] r.1).2, r.2.1, r.2.2⟩ := by
  obtain ⟨hread, hne, -⟩ := h
  unfold turn
  rw [hread]
  dsimp only
  rw [if_neg hne, if_neg (by rw [hsum]; exact Bool.false_ne_true)]

theorem finish_panicked {receivers : Text → Nat} {command : Command} {buffer : Bytes}
    {a : Outcome} :
    (finish receivers command buffer a).2 = .panicked ↔ a = .panic := by
  cases a with
  | reply _ | panic | closed => simp [finish]
  | handOff => cases command <;> simp [finish]

theorem not_oneReply_of_mute (h : Expects received parts) (hm : Mute server db parts) :
    ¬ OneReply server received db := by
  intro hone
  obtain ⟨a, db', logs, hrun, ha, hno⟩ := quiet_ends server.env received.ctx received.receivers hm.2
  have hturn : turn server ⟨.authenticated, []⟩ received db = _ := turn_authenticated h hm.1
  rw [hrun] at hturn
  exact hno (hone _ hturn (mt finish_panicked.mp ha))

theorem oneReply_of_not_mute (h : Expects received parts) (hm : ¬ Mute server db parts) :
    OneReply server received db := by
  intro t hturn hlink
  cases hsum : parts.any summaryPanics with
  | true =>
    rw [turn_panics h hsum] at hturn
    obtain rfl := Option.some.inj hturn
    exact absurd rfl hlink
  | false =>
    rw [turn_authenticated h hsum] at hturn
    obtain ⟨⟨a, db', logs⟩, hrun, rfl⟩ := Option.map_eq_some_iff.mp hturn
    exact handle_replies server.env received.ctx received.receivers h.2.2
      (fun hq => hm ⟨hsum, hq⟩) hrun
      (mt finish_panicked.mpr hlink)

/-- A turn of a pipelined run: the request, the database it meets and the turn. -/
structure Stage where
  received : Received
  db : Memory
  turn : Turn

/-- The turn is taken, without a panic, on a request that is not left unanswered. -/
def Stage.Taken (server : Server) (stage : Stage) : Prop :=
  (∃ parts, Expects stage.received parts ∧ ¬ Mute server stage.db parts) ∧
    TitanKv.turn server ⟨.authenticated, []⟩ stage.received stage.db = some stage.turn ∧
    stage.turn.link ≠ .panicked

/-- The replies of a pipelined run decode one by one, the k-th of them being what
the k-th turn sent, whatever other clients do to the database in between. -/
theorem pipelined {stages : List Stage} (h : ∀ stage ∈ stages, stage.Taken server) :
    ∃ values,
      List.Forall₂ (fun (stage : Stage) v => stage.turn.sent = Resp.Value.encode v) stages values ∧
      ∀ rest, Resp.decodeItems Resp.decode stages.length
        (stages.flatMap (fun stage => stage.turn.sent) ++ rest) = some (values, rest) := by
  induction stages with
  | nil => exact ⟨[], .nil, fun _ => rfl⟩
  | cons stage stages ih =>
    obtain ⟨values, hall, hdec⟩ := ih fun s hs => h s (List.mem_cons_of_mem _ hs)
    obtain ⟨⟨parts, hexpects, hmute⟩, hturn, hlink⟩ := h stage (by simp)
    obtain ⟨v, hsound, hv⟩ := oneReply_of_not_mute hexpects hmute _ hturn hlink
    refine ⟨v :: values, .cons hv hall, fun rest => ?_⟩
    rw [List.flatMap_cons, List.append_assoc, hv, List.length_cons, Resp.decodeItems,
      Resp.decode_encode hsound]
    simp [hdec]

/-- An authenticated connection answers every request with one reply, but for the
mute ones, and so a pipelined run without those is answered in order. -/
theorem oneReply_iff (server : Server) :
    (∀ received db parts, Expects received parts →
      (OneReply server received db ↔ ¬ Mute server db parts)) ∧
    ∀ stages : List Stage, (∀ stage ∈ stages, stage.Taken server) →
      ∃ values,
        List.Forall₂ (fun (stage : Stage) v => stage.turn.sent =
        Resp.Value.encode v) stages values ∧
        ∀ rest, Resp.decodeItems Resp.decode stages.length
          (stages.flatMap (fun stage => stage.turn.sent) ++ rest) = some (values, rest) :=
  ⟨fun _ _ _ h => ⟨fun hone hm => not_oneReply_of_mute h hm hone, oneReply_of_not_mute h⟩,
    fun _ h => pipelined h⟩

theorem not_oneReply_rPush :
    ¬ OneReply ⟨plainEnv, none⟩ (receive [lit "RPUSH", [107], [120]])
      (onShard plainEnv [107] (·.insert [107] ⟨.string [118], none⟩) newDb) :=
  not_oneReply_of_mute
    (show Expects (receive [lit "RPUSH", [107], [120]]) [lit "RPUSH", [107], [120]]
      from ⟨rfl, by simp, id⟩)
    ⟨rfl, .string [118], rfl, by simp⟩

end Turns

end TitanKv
