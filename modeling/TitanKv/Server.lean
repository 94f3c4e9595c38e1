import TitanKv.Protocol

/-! # The command dispatcher

One definition per arm of the connection handler's match. An arm is a program
over the shards that takes its guards, reads and updates the maps, sends log
entries and returns what it writes back; a log entry is the command the log
line names. Guards are dropped where their Rust scopes end, so every arm but
`RPOPLPUSH` sends before it releases. -/

namespace TitanKv
open Utf8 TwoPhase

structure ClientInfo where
  id : Nat
  addr : Text
  connectedAt : SystemTime

/-- What a command reads besides the shards: the clock and the client table. -/
structure Ctx where
  now : SystemTime
  clients : List ClientInfo

/-- How an arm ends: it leaves a buffer to be flushed, panics, returns without a
flush, or hands the connection to the pub/sub or monitor loops. -/
inductive Outcome where
  | reply (buffer : Bytes)
  | panic
  | closed
  | handOff
  deriving DecidableEq

abbrev Arm := Prog Index Shard Command
abbrev Handler := Arm Outcome

section Replies

def crlf : Bytes := lit "\r\n"
def decimal (z : Int) : Bytes := encode (Decimal.printInt z)
def okReply : Bytes := lit "+OK\r\n"
def nilReply : Bytes := lit "$-1\r\n"
def integerReply (z : Int) : Bytes := lit ":" ++ decimal z ++ crlf
def arrayHeader (n : Int) : Bytes := lit "*" ++ decimal n ++ crlf
def writeBulk (val : Bytes) : Bytes := lit "$" ++ decimal val.length ++ crlf ++ val ++ crlf
def wrongKind : Bytes :=
  lit "-WRONGTYPE Operation against a key holding the wrong kind of value\r\n"
def wrongType : Bytes := lit "-WRONGTYPE\r\n"

def bulkArray (vals : List Bytes) : Bytes := arrayHeader vals.length ++ vals.flatMap writeBulk

end Replies

/-- The decoded argument, empty if it is no UTF-8. -/
def bytesToStr (b : Bytes) : Text := (decode? b).getD []

section Arithmetic

def asI64 (z : Int) : Int := z.bmod (2 ^ 64)
def asI32 (z : Int) : Int := z.bmod (2 ^ 32)
def asU64 (z : Int) : Nat := (z % 2 ^ 64).toNat

/-- A list index as the client gave it, counted from the end if negative. -/
def resolveIndex (len index : Int) : Int := if index < 0 then asI32 (len + index) else index

end Arithmetic

def Shard.value? (map : Shard) (key : Bytes) : Option DataType := (map.lookup key).map Entry.value

def popBack (list : List Bytes) : Option (Bytes × List Bytes) :=
  list.getLast?.map fun val => (val, list.dropLast)

section Arms
variable (env : Env) (ctx : Ctx)

/-- An arm that looks one key up under a read guard. -/
def withEntry (key : Bytes) (respond : Option Entry → Bytes) : Handler := do
  let guard ← readShard env key
  let map ← Prog.get guard
  Prog.drop guard
  return .reply (respond (map.lookup key))

/-- An arm that holds the write guard of one key's shard to its end. -/
def withWrite (key : Bytes) (arm : Index → Arm Bytes) : Handler := do
  let guard ← writeShard env key
  let reply ← arm guard
  Prog.drop guard
  return .reply reply

/-- `map.remove(&key)`. -/
def remove (map : Index) (key : Bytes) : Arm (Option Entry) := do
  let before ← Prog.get map
  Prog.modify map (·.erase key)
  return before.lookup key

def handleStrlen (key : Bytes) : Handler := withEntry env key fun
  | some entry => match entry.value with
    | .string val => integerReply val.length
    | _ => wrongKind
  | none => lit ":0\r\n"

def typeName : DataType → String
  | .string _ => "string"
  | .list _ => "list"
  | .hash _ => "hash"
  | .set _ => "set"

def handleType (key : Bytes) : Handler := withEntry env key fun
  | some entry => lit "+" ++ lit (typeName entry.value) ++ crlf
  | none => lit "+none\r\n"

/-- `TTL` and `PTTL`, which differ in the unit of the remaining time. -/
def remainingReply (unit : Nat) : Option Entry → Bytes
  | some entry => match entry.expiresAt with
    | some expiration =>
      if expiration ≤ ctx.now then lit ":-2\r\n"
      else integerReply (((expiration.durationSince ctx.now).getD 0) / unit : Nat)
    | none => lit ":-1\r\n"
  | none => lit ":-2\r\n"

def handleTtl (key : Bytes) : Handler := withEntry env key (remainingReply ctx (10 ^ 9))
def handlePttl (key : Bytes) : Handler := withEntry env key (remainingReply ctx (10 ^ 6))

/-- The deadline is computed, and may overflow, before the guard is taken. -/
def handleSetEx (key : Bytes) (seconds : Int) (value : Bytes) : Handler :=
  match ctx.now.addSecs (asU64 seconds) with
  | none => return .panic
  | some expirationTime => withWrite env key fun map => do
    Prog.modify map (·.insert key ⟨.string value, some expirationTime⟩)
    Prog.emit (.setEx key seconds value)
    return okReply

def handleSet (key value : Bytes) : Handler := withWrite env key fun shard => do
  Prog.modify shard (·.insert key ⟨.string value, none⟩)
  Prog.emit (.set key value)
  return okReply

def isExpired (now : SystemTime) (entry : Option Entry) : Bool :=
  match entry.bind Entry.expiresAt with
  | some expiration => expiration < now
  | none => false

def handleGet (key : Bytes) : Handler := withWrite env key fun map => do
  let first ← Prog.get map
  if isExpired ctx.now (first.lookup key) then do
    let removed ← remove map key
    match removed with
    | some _ => do
      Prog.emit (.del key)
      return nilReply
    | none => return nilReply
  else do
    let second ← Prog.get map
    match second.value? key with
    | some (.string val) => return writeBulk val
    | some _ => return lit "-WRONGTYPE Operation against a key holding the wrong type of value\r\n"
    | none => return nilReply

def handleDel (key : Bytes) : Handler := withWrite env key fun map => do
  let removed ← remove map key
  match removed with
  | some _ => do
    Prog.emit (.del key)
    return lit ":1\r\n"
  | none => return lit ":0\r\n"

def handleExists (key : Bytes) : Handler := withEntry env key fun
  | some _ => lit ":1\r\n"
  | none => lit ":0\r\n"

/-- The number `INCR` starts from, or the error it replies with. -/
def currentNumber : Option DataType → Except Bytes Int
  | some (.string val) => match parseI64 val with
    | some num => .ok num
    | none => .error (lit "-ERR Value is not an integer or out of range\r\n")
  | some _ => .error wrongKind
  | none => .ok 0

def handleIncr (key : Bytes) : Handler := withWrite env key fun shard => do
  let map ← Prog.get shard
  match currentNumber (map.value? key) with
  | .error errMsg => return errMsg
  | .ok current => do
    let newNum := asI64 (current + 1)
    Prog.modify shard (·.insert key ⟨.string (decimal newNum), none⟩)
    Prog.emit (.incr key)
    return integerReply newNum

def emptyList : Entry := ⟨.list [], none⟩

def handleLPush (key value : Bytes) : Handler := withWrite env key fun shard => do
  Prog.modify shard (·.orInsertWith key emptyList)
  let map ← Prog.get shard
  match map.value? key with
  | some (.list list) => do
    Prog.modify shard (·.setValue key (.list (value :: list)))
    Prog.emit (.lPush key value)
    return integerReply (value :: list).length
  | _ => return lit "-WRONGTYPE Operation against a key holding the wrong kind of value \r\n"

def handleLPop (key : Bytes) : Handler := withWrite env key fun shard => do
  let map ← Prog.get shard
  match map.value? key with
  | some (.list (val :: rest)) => do
    Prog.modify shard (·.setValue key (.list rest))
    Prog.emit (.lPop key)
    return writeBulk val
  | some (.list []) => return nilReply
  | some _ => return wrongKind
  | none => return nilReply

/-- A wrong type leaves the buffer empty. -/
def handleRPush (key value : Bytes) : Handler := withWrite env key fun shard => do
  Prog.modify shard (·.orInsertWith key emptyList)
  let map ← Prog.get shard
  match map.value? key with
  | some (.list list) => do
    Prog.modify shard (·.setValue key (.list (list ++ [value])))
    Prog.emit (.rPush key value)
    return integerReply (list ++ [value]).length
  | _ => return []

def handleRPop (key : Bytes) : Handler := withWrite env key fun shard => do
  let map ← Prog.get shard
  match map.value? key with
  | some (.list list) => match popBack list with
    | some (val, rest) => do
      Prog.modify shard (·.setValue key (.list rest))
      Prog.emit (.rPop key)
      return writeBulk val
    | none => return nilReply
  | some _ => return wrongKind
  | none => return nilReply

/-- `while (list.len() as i32) > bound { list.pop_back(); }` on the reversed
list; popping an empty list does nothing, so a negative bound is never met. -/
def popBackWhile (bound : Int) : List Bytes → Option (List Bytes)
  | [] => if bound < 0 then none else some []
  | val :: rest =>
    if bound < asI32 (rest.length + 1) then popBackWhile bound rest else some (val :: rest)

def handleLTrim (key : Bytes) (start stop : Int) : Handler := withWrite env key fun shard => do
  let map ← Prog.get shard
  match map.value? key with
  | some (.list list) => do
    let len := asI32 list.length
    let s := resolveIndex len start
    let e := resolveIndex len stop
    if s > e ∨ s ≥ len then do
      let _ ← remove shard key
      Prog.emit (.lTrim key start stop)
      return okReply
    else match popBackWhile (asI32 (min e (asI32 (len - 1)) + 1)) list.reverse with
      | none => do
        Prog.modify shard (·.setValue key (.list []))
        Prog.hang
      | some kept => do
        let trimmed := kept.reverse.drop (max 0 s).toNat
        Prog.modify shard (·.setValue key (.list kept.reverse))
        Prog.modify shard (·.setValue key (.list trimmed))
        if trimmed = [] then do
          let _ ← remove shard key
          Prog.emit (.lTrim key start stop)
          return okReply
        else do
          Prog.emit (.lTrim key start stop)
          return okReply
  | some _ => return wrongKind
  | none => return okReply

def handleLRange (key : Bytes) (start stop : Int) : Handler := withEntry env key fun
  | some entry => match entry.value with
    | .list list =>
      let len := asI32 list.length
      let s := resolveIndex len start
      let e := resolveIndex len stop
      if s > e ∨ s ≥ len ∨ e < 0 then lit "*0\r\n"
      else
        let first := asU64 (max 0 s)
        let last := asU64 (min e (asI32 (len - 1)))
        arrayHeader (asU64 ((last : Int) - first + 1)) ++
          ((List.range' first (last + 1 - first)).filterMap fun i => list[i]?).flatMap writeBulk
    | _ => wrongKind
  | none => lit "*0\r\n"

def emptyHash : Entry := ⟨.hash ∅, none⟩

def handleHSet (key field value : Bytes) : Handler := withWrite env key fun shard => do
  Prog.modify shard (·.orInsertWith key emptyHash)
  let map ← Prog.get shard
  match map.value? key with
  | some (.hash hmap) => do
    Prog.modify shard (·.setValue key (.hash (hmap.insert field value)))
    Prog.emit (.hSet key field value)
    return okReply
  | _ => return wrongType

def handleHGetAll (key : Bytes) : Handler := withEntry env key fun
  | some entry => match entry.value with
    | .hash hmap => arrayHeader (hmap.entries.length * 2) ++
        hmap.entries.flatMap fun e => writeBulk e.1 ++ writeBulk e.2
    | _ => wrongType
  | none => lit "*0\r\n"

def handleHGet (key field : Bytes) : Handler := withEntry env key fun
  | some entry => match entry.value with
    | .hash hmap => match hmap.lookup field with
      | some val => writeBulk val
      | none => nilReply
    | _ => wrongType
  | none => nilReply

/-- The maps of the first and the second key under a two-key guard. -/
def MultiGuard.maps : MultiGuard → Index × Index
  | .single shard => (shard, shard)
  | .double shardA shardB => (shardA, shardB)

def popSource (shardSrc : Index) (source : Bytes) : Arm (Option Bytes) := do
  let map ← Prog.get shardSrc
  match map.value? source with
  | some (.list list) => match popBack list with
    | some (val, rest) => do
      Prog.modify shardSrc (·.setValue source (.list rest))
      return some val
    | none => return none
  | _ => return none

def pushDestination (shardDest : Index) (destination val : Bytes) : Arm Unit := do
  Prog.modify shardDest (·.orInsertWith destination emptyList)
  let map ← Prog.get shardDest
  match map.value? destination with
  | some (.list destList) =>
    Prog.modify shardDest (·.setValue destination (.list (val :: destList)))
  | _ => return ()

/-- The body of `RPOPLPUSH`, the same code on one map or on two. The guards end
with the match on them; the log line is sent after that. -/
def moveUnder (guard : MultiGuard) (source destination : Bytes) : Handler := do
  let poppedVal ← popSource guard.maps.1 source
  match poppedVal with
  | some val => do
    pushDestination guard.maps.2 destination val
    guard.release
    Prog.emit (.rPopLPush source destination)
    return .reply (writeBulk val)
  | none => do
    guard.release
    return .reply nilReply

def handleRPopLPush (source destination : Bytes) : Handler := do
  let guard ← writeMultiShards env source destination
  moveUnder guard source destination

def handleLRem (key valueToRemove : Bytes) : Handler := withWrite env key fun shard => do
  let map ← Prog.get shard
  match map.value? key with
  | some (.list list) =>
    if valueToRemove ∈ list then do
      Prog.modify shard (·.setValue key (.list (list.erase valueToRemove)))
      Prog.emit (.lRem key 1 valueToRemove)
      return lit ":1\r\n"
    else return lit ":0\r\n"
  | _ => return lit ":0\r\n"

/-- The two lookups of a command that reads two keys. -/
def withTwoValues (keyA keyB : Bytes) (respond : Option DataType → Option DataType → Bytes) :
    Handler := do
  let guard ← readMultiShards env keyA keyB
  let shardA ← Prog.get guard.maps.1
  let shardB ← Prog.get guard.maps.2
  guard.release
  return .reply (respond (shardA.value? keyA) (shardB.value? keyB))

def mGetItem : Option DataType → Bytes
  | some (.string s) => writeBulk s
  | _ => nilReply

def handleMGet (keyA keyB : Bytes) : Handler := withTwoValues env keyA keyB fun valA valB =>
  lit "*2\r\n" ++ mGetItem valA ++ mGetItem valB

def emptySet : Entry := ⟨.set ∅, none⟩

def handleSAdd (key member : Bytes) : Handler := withWrite env key fun shard => do
  Prog.modify shard (·.orInsertWith key emptySet)
  let map ← Prog.get shard
  match map.value? key with
  | some (.set set) =>
    if member ∈ set then return integerReply 0
    else do
      Prog.modify shard (·.setValue key (.set (set.insert member ())))
      Prog.emit (.sAdd key member)
      return integerReply 1
  | _ => return integerReply 0

def handleSMembers (key : Bytes) : Handler := withEntry env key fun
  | some entry => match entry.value with
    | .set set => bulkArray set.keys
    | _ => wrongType
  | none => lit "*0\r\n"

def handleScard (key : Bytes) : Handler := withEntry env key fun
  | some entry => match entry.value with
    | .set set => integerReply set.entries.length
    | _ => wrongType
  | none => lit ":0\r\n"

def handleLlen (key : Bytes) : Handler := withEntry env key fun
  | some entry => match entry.value with
    | .list list => integerReply list.length
    | _ => wrongType
  | none => lit ":0\r\n"

def handleHlen (key : Bytes) : Handler := withEntry env key fun
  | some entry => match entry.value with
    | .hash hmap => integerReply hmap.entries.length
    | _ => wrongType
  | none => lit ":0\r\n"

def setOrEmpty : Option DataType → HashSet
  | some (.set s) => s
  | _ => ∅

def handleSInter (keyA keyB : Bytes) : Handler := withTwoValues env keyA keyB fun valA valB =>
  bulkArray ((setOrEmpty valA).keys.filter fun item => item ∈ setOrEmpty valB)

def totalKeys : Arm Nat :=
  overShards (fun total shard => total + shard.entries.length) (List.finRange shardCount) 0

def handleDbSize : Handler := do
  let total ← totalKeys
  return .reply (integerReply total)

/-- `^…$` around the pattern with its wildcards replaced. -/
def globRegex (pattern : Text) : Text :=
  ['^'] ++ (pattern.flatMap fun ch =>
    if ch = '*' then ['.', '*'] else if ch = '?' then ['.'] else [ch]) ++ ['$']

def keyMatches (isMatch : Text → Bool) (key : Bytes) : Bool :=
  match decode? key with
  | some s => isMatch s
  | none => false

/-- An invalid pattern ends the connection with the error unflushed. -/
def handleKeys (pattern : Bytes) : Handler :=
  match env.regex (globRegex (bytesToStr pattern)) with
  | none => return .closed
  | some isMatch => do
    let allKeys ← getAllKeys
    return .reply (bulkArray (allKeys.filter (keyMatches isMatch)))

/-- An invalid pattern filters nothing. -/
def retainMatching (matchPattern : Option Bytes) (keys : List Bytes) : List Bytes :=
  match matchPattern.bind fun pattern => env.regex (globRegex (bytesToStr pattern)) with
  | some isMatch => keys.filter (keyMatches isMatch)
  | none => keys

def handleScan (cursor : Nat) (matchPattern : Option Bytes) : Handler :=
  if cursor ≥ 64 then return .reply (lit "*2\r\n$1\r\n0\r\n*0\r\n")
  else do
    let scanned ← scanShard cursor
    let keys := retainMatching env matchPattern scanned
    let nextCursor := if cursor = 63 then 0 else cursor + 1
    return .reply (lit "*2\r\n" ++ writeBulk (decimal nextCursor) ++ bulkArray keys)

def handleInfo : Handler := do
  let total ← totalKeys
  let info := lit "# Server\r\nredis_version:7.0.0\r\ntitan_version:3.0.0\r\n" ++
    lit "redis_mode:standalone\r\nos:" ++ encode env.os ++
    lit "\r\narch_bits:64\r\ntcp_port:6379\r\nuptime_in_seconds:0\r\nuptime_in_days:0\r\n" ++
    lit "hz:10\r\nexecutable:titan_kv\r\n\r\n# Clients\r\nconnected_clients:" ++
    decimal ctx.clients.length ++
    lit "\r\nblocked_clients:0\r\n\r\n# Memory\r\nused_memory:0\r\nused_memory_human:0B\r\n" ++
    lit "maxmemory:0\r\nmaxmemory_human:0B\r\nmaxmemory_policy:noeviction\r\n\r\n# Stats\r\n" ++
    lit "total_commands_processed:0\r\ntotal_connections_received:0\r\n\r\n# Replication\r\n" ++
    lit "role:master\r\nconnected_slaves:0\r\n" ++
    lit "master_replid:0000000000000000000000000000000000000000\r\nmaster_repl_offset:0\r\n\r\n" ++
    lit "# Keyspace\r\ndb0:keys=" ++ decimal total ++ lit ",expires=0,avg_ttl=0\r\n"
  return .reply (writeBulk info)

def clientLine (info : ClientInfo) : Bytes :=
  lit "id=" ++ decimal info.id ++ lit " addr=" ++ encode info.addr ++ lit " fd=-1 name= age=" ++
  decimal (((ctx.now.durationSince info.connectedAt).getD 0) / 10 ^ 9 : Nat) ++
  lit " idle=0 flags=N db=0 sub=0 psub=0 multi=-1 qbuf=0 qbuf-free=0 obl=0 oll=0 omem=0 " ++
  lit "events=r cmd=client\n"

def handleClientList : Handler :=
  return .reply (writeBulk (ctx.clients.flatMap (clientLine ctx)))

/-- The dispatch of an authenticated connection. -/
def handle : Command → Handler
  | .auth _ => return .reply okReply
  | .clientList => handleClientList ctx
  | .strlen key => handleStrlen env key
  | .dbSize => handleDbSize
  | .type key => handleType env key
  | .ttl key => handleTtl env ctx key
  | .pttl key => handlePttl env ctx key
  | .setEx key seconds value => handleSetEx env ctx key seconds value
  | .ping => return .reply (lit "+PONG\r\n")
  | .set key value => handleSet env key value
  | .get key => handleGet env ctx key
  | .del key => handleDel env key
  | .exists key => handleExists env key
  | .incr key => handleIncr env key
  | .lPush key value => handleLPush env key value
  | .lPop key => handleLPop env key
  | .rPush key value => handleRPush env key value
  | .rPop key => handleRPop env key
  | .lTrim key start stop => handleLTrim env key start stop
  | .lRange key start stop => handleLRange env key start stop
  | .hSet key field value => handleHSet env key field value
  | .hGetAll key => handleHGetAll env key
  | .hGet key field => handleHGet env key field
  | .rPopLPush source destination => handleRPopLPush env source destination
  | .lRem key _ value => handleLRem env key value
  | .mGet keyA keyB => handleMGet env keyA keyB
  | .sAdd key member => handleSAdd env key member
  | .sMembers key => handleSMembers env key
  | .scard key => handleScard env key
  | .llen key => handleLlen env key
  | .hlen key => handleHlen env key
  | .sInter keyA keyB => handleSInter env keyA keyB
  | .keys pattern => handleKeys env pattern
  | .scan cursor matchPattern => handleScan env cursor matchPattern
  | .publish _ _ => return .handOff
  | .subscribe _ => return .handOff
  | .unsubscribe _ => return .reply okReply
  | .monitor => return .handOff
  | .info => handleInfo env ctx
  | .memory => return .reply (lit ":64\r\n")
  | .client => return .reply okReply
  | .unknown => return .reply (lit "-ERR unknown command\r\n")

end Arms

/-- `verb arg … arg` and a newline. -/
def formatLine (verb : String) (args : List Text) : Text :=
  verb.toList ++ args.flatMap (fun arg => ' ' :: arg) ++ ['\n']

def quoted (arg : Text) : Text := '"' :: arg ++ ['"']

/-- The text an arm sends for the command it logs. -/
def logLine : Command → Text
  | .set key value => formatLine "SET" [bytesToStr key, bytesToStr value]
  | .setEx key seconds value =>
    formatLine "SETEX" [bytesToStr key, Decimal.printInt seconds, bytesToStr value]
  | .del key => formatLine "DEL" [bytesToStr key]
  | .incr key => formatLine "INCR" [bytesToStr key]
  | .lPush key value => formatLine "LPUSH" [bytesToStr key, quoted (bytesToStr value)]
  | .rPush key value => formatLine "RPUSH" [bytesToStr key, quoted (bytesToStr value)]
  | .lPop key => formatLine "LPOP" [bytesToStr key]
  | .rPop key => formatLine "RPOP" [bytesToStr key]
  | .lTrim key start stop =>
    formatLine "LTRIM" [bytesToStr key, Decimal.printInt start, Decimal.printInt stop]
  | .hSet key field value =>
    formatLine "HSET" [bytesToStr key, bytesToStr field, quoted (bytesToStr value)]
  | .sAdd key member => formatLine "SADD" [bytesToStr key, bytesToStr member]
  | .lRem key _ value =>
    formatLine "LREM" [bytesToStr key, Decimal.printInt 1, quoted (bytesToStr value)]
  | .rPopLPush source destination =>
    formatLine "RPOPLPUSH" [bytesToStr source, bytesToStr destination]
  | _ => []

end TitanKv
