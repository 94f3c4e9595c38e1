import TitanKv.Codec
import TitanKv.Connection
import TitanKv.Scanning

/-! # Commands on the wire

What a client writes for a command: its word and its arguments as one request. Where the
numbers fit the types that the parser reads them at, the server reads the requests back
one by one and parses each as its command. -/

namespace TitanKv
open Utf8

section Requests

/-- The word and the arguments a client sends for a command, if it is one. -/
def Command.sends : Command → Option (Verb × List Bytes)
  | .auth password => some (.auth, [encode password])
  | .ping => some (.ping, [])
  | .set key value => some (.set, [key, value])
  | .get key => some (.get, [key])
  | .del key => some (.del, [key])
  | .exists key => some (.exists, [key])
  | .incr key => some (.incr, [key])
  | .setEx key seconds value => some (.setEx, [key, decimal seconds, value])
  | .publish channel message => some (.publish, [channel, message])
  | .subscribe channel => some (.subscribe, [channel])
  | .unsubscribe channel => some (.unsubscribe, [channel])
  | .lPush key value => some (.lPush, [key, value])
  | .lPop key => some (.lPop, [key])
  | .rPop key => some (.rPop, [key])
  | .rPush key value => some (.rPush, [key, value])
  | .rPopLPush source destination => some (.rPopLPush, [source, destination])
  | .lRem key count value => some (.lRem, [key, decimal count, value])
  | .lTrim key start stop => some (.lTrim, [key, decimal start, decimal stop])
  | .lRange key start stop => some (.lRange, [key, decimal start, decimal stop])
  | .hSet key field value => some (.hSet, [key, field, value])
  | .hGetAll key => some (.hGetAll, [key])
  | .hGet key field => some (.hGet, [key, field])
  | .mGet keyA keyB => some (.mGet, [keyA, keyB])
  | .sAdd key member => some (.sAdd, [key, member])
  | .sInter keyA keyB => some (.sInter, [keyA, keyB])
  | .keys pattern => some (.keys, [pattern])
  | .scan cursor none => some (.scan, [decimal cursor])
  | .scan cursor (some pattern) => some (.scan, [decimal cursor, lit "MATCH", pattern])
  | .info => some (.info, [])
  | .type key => some (.type, [key])
  | .ttl key => some (.ttl, [key])
  | .pttl key => some (.pttl, [key])
  | .clientList => some (.client, [lit "LIST"])
  | .client => some (.client, [])
  | .monitor => some (.monitor, [])
  | .memory => some (.memory, [lit "USAGE"])
  | .llen key => some (.llen, [key])
  | .hlen key => some (.hlen, [key])
  | .scard key => some (.scard, [key])
  | .sMembers key => some (.sMembers, [key])
  | .strlen key => some (.strlen, [key])
  | .dbSize => some (.dbSize, [])
  | .unknown => none

def Command.words (c : Command) : List Bytes :=
  match c.sends with
  | some (verb, args) => lit verb.name :: args
  | none => [lit "UNKNOWN"]

/-- The numbers fit the types that the parser reads them at. -/
def Command.Fits : Command → Prop
  | .setEx _ z _ | .lRem _ z _ => -2 ^ 63 ≤ z ∧ z ≤ 2 ^ 63 - 1
  | .lTrim _ start stop | .lRange _ start stop =>
    (-2 ^ 31 ≤ start ∧ start ≤ 2 ^ 31 - 1) ∧ -2 ^ 31 ≤ stop ∧ stop ≤ 2 ^ 31 - 1
  | .scan cursor _ => cursor < 2 ^ 64
  | _ => True

/-- A command that can be sent: its numbers and its arguments' lengths fit. -/
def Command.Sendable (c : Command) : Prop := c.Fits ∧ Admissible c.words

/-- The words of a command parse as it. -/
theorem parseCommand_words {c : Command} (h : c.Fits) : parseCommand c.words = c := by
  have hverb (verb : Verb) (args : List Bytes) : parseCommand (lit verb.name :: args) =
      parseArgs (some verb) args := by
    rw [parseCommand, uppercase_name, Verb.of?_lit]
  cases c with
  | unknown => decide
  | auth password =>
    refine (hverb .auth [encode password]).trans ?_
    exact congrArg Command.auth (fromUtf8Lossy_encode password)
  | setEx key seconds value =>
    exact (hverb .setEx [key, decimal seconds, value]).trans
      (parseArgs_setEx_of_some (parseI64_decimal h))
  | lRem key count value =>
    refine (hverb .lRem [key, decimal count, value]).trans ?_
    show Command.lRem key ((parseI64 (decimal count)).getD 1) value = _
    rw [parseI64_decimal h, Option.getD_some]
  | lTrim key start stop =>
    exact (hverb .lTrim [key, decimal start, decimal stop]).trans
      (parseArgs_lTrim_of_some (parseI32_decimal h.1) (parseI32_decimal h.2))
  | lRange key start stop =>
    exact (hverb .lRange [key, decimal start, decimal stop]).trans
      (parseArgs_lRange_of_some (parseI32_decimal h.1) (parseI32_decimal h.2))
  | scan cursor matchPattern =>
    have hcursor : (parseUsize (decimal cursor)).getD 0 = cursor := by
      rw [parseUsize_decimal h, Option.getD_some]
    cases matchPattern with
    | none => exact (hverb .scan [decimal cursor]).trans (congrArg (Command.scan · none) hcursor)
    | some pattern =>
      exact (hverb .scan [decimal cursor, lit "MATCH", pattern]).trans
        (congrArg (Command.scan · (some pattern)) hcursor)
  | _ => exact hverb _ _

/-- What a client writes for its commands. -/
def wire (commands : List Command) : Bytes := commands.flatMap fun c => encodeRequest c.words

theorem words_ne_nil (c : Command) : c.words ≠ [] := by
  unfold Command.words
  split <;> exact List.cons_ne_nil _ _

theorem readResp_wire {c : Command} (h : c.Sendable) (rest : List Command) :
    readResp (wire (c :: rest)) = .ok (c.words, wire rest) :=
  readResp_encodeRequest h.2 (wire rest)

theorem readResp_nil : readResp [] = .ok ([], []) := rfl

end Requests

end TitanKv
