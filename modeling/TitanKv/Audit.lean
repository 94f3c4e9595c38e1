import TitanKv.Connection
import TitanKv.Lib.Slices

/-! # What the loop prints of a request

Before a request is executed, the loop makes two strings of it: a summary for
the log, where a long argument is cut after 15 bytes, and the line it broadcasts
to monitoring clients. The cut is a slice of a `str`, so within a character it
panics, and the request is lost. -/

namespace TitanKv
open Utf8

section Audit

/-- The summary of one argument; `none` where the slice panics. -/
def summaryPart (p : Bytes) : Option Text :=
  let s := bytesToStr p
  let len := (encode s).length
  if 30 < len then (sliceTo s 15).map fun head =>
    head ++ "...(".toList ++ Decimal.printNat len ++ "b)".toList
  else some s

/-- `summary_parts.join(" ")`. -/
def summary (parts : List Bytes) : Option Text :=
  (parts.mapM summaryPart).map (List.intercalate [' '])

/-- What is broadcast of a request: nothing of `MONITOR` itself, nor before the
epoch. How the seconds since then are printed is a parameter. -/
def monitorLine (printSecs : Nat → Text) (now : SystemTime) (addr : Text) (parts : List Bytes) :
    Option Text :=
  match parts with
  | [] => none
  | first :: _ =>
    if uppercase first = lit "MONITOR" then none
    else (now.durationSince .unixEpoch).map fun elapsed =>
      printSecs elapsed ++ " [0 ".toList ++ addr ++ "] ".toList ++
        List.intercalate [' '] (parts.map fun p => quoted (bytesToStr p))

/-- The strings made of a request before it is executed; `none` for a panic. -/
def audit (printSecs : Nat → Text) (now : SystemTime) (addr : Text) (parts : List Bytes) :
    Option (Text × Option Text) :=
  (summary parts).map fun line => (line, monitorLine printSecs now addr parts)

end Audit

section Cuts
variable {parts : List Bytes} {part : Bytes} {printSecs : Nat → Text} {now : SystemTime}
  {addr : Text}

/-- A text argument of more than 30 bytes with a character across its byte 15. -/
def CutWithin (part : Bytes) : Prop :=
  (decode? part).isSome ∧ 30 < part.length ∧ ∃ b, part[15]? = some b ∧ isContinuation b

theorem continues_iff {b : UInt8} : Continues b ↔ isContinuation b = true := by
  simp only [Continues, isContinuation, Bool.and_eq_true, decide_eq_true_eq, UInt8.le_iff_toNat_le]
  exact and_congr_right fun _ => Nat.lt_succ_iff

theorem summaryPart_isSome_iff : (summaryPart part).isSome ↔ ¬ CutWithin part := by
  unfold summaryPart CutWithin bytesToStr
  cases hd : decode? part with
  | none => exact iff_of_true rfl (by simp)
  | some text =>
    dsimp only [Option.getD_some]
    rw [encode_of_decode? hd]
    split
    · rename_i hlong
      have hb : part[15]? = some part[15] := List.getElem?_eq_getElem (by omega)
      rw [Option.isSome_map, sliceTo_isSome_iff (by rw [encode_of_decode? hd]; exact hb),
        continues_iff, hb]
      simp [hlong]
    · rename_i hshort
      exact iff_of_true rfl fun h => hshort h.2.1

theorem summary_isSome_iff : (summary parts).isSome ↔ ∀ part ∈ parts, ¬ CutWithin part := by
  rw [summary, Option.isSome_map]
  induction parts with
  | nil => exact iff_of_true rfl (by simp)
  | cons part parts ih =>
    rw [List.forall_mem_cons, ← summaryPart_isSome_iff, ← ih, List.mapM_cons]
    cases summaryPart part with
    | none => simp
    | some text => cases parts.mapM summaryPart <;> simp

/-- Exactly when the strings of a request are made: unless an argument is cut
within a character. -/
theorem audit_isSome_iff :
    (audit printSecs now addr parts).isSome ↔ ∀ part ∈ parts, ¬ CutWithin part := by
  rw [audit, Option.isSome_map, summary_isSome_iff]

theorem summaryPanics_iff : summaryPanics part = true ↔ CutWithin part := by
  unfold summaryPanics CutWithin bytesToStr
  cases hd : decode? part with
  | none => exact iff_of_false (by decide) (by simp)
  | some text =>
    dsimp only [Option.getD_some]
    rw [encode_of_decode? hd]
    cases part[15]? <;> simp

/-- A request without its strings ends the connection, before its command runs. -/
theorem turn_of_audit_none {server : Server} {connection : Connection} {received : Received}
    {db : Memory}
    (hread : received.read = .ok parts) (hne : parts ≠ [])
    (h : audit printSecs now addr parts = none) :
    turn server connection received db = some ⟨[], .panicked, db, []⟩ := by
  have hcut : ¬ ∀ part ∈ parts, ¬ CutWithin part := by
    rw [← summary_isSome_iff, Option.map_eq_none_iff.mp h]
    exact Bool.false_ne_true
  push Not at hcut
  obtain ⟨part, hmem, hpart⟩ := hcut
  unfold turn
  rw [hread]
  dsimp only
  rw [if_neg hne, if_pos (List.any_eq_true.mpr ⟨part, hmem, summaryPanics_iff.mpr hpart⟩)]

/-- `SET k` with a value of sixteen characters of two bytes. -/
def wideValue : List Bytes := [lit "SET", [107], encode (List.replicate 16 'é')]

/-- The value's summary is cut within its eighth character, and the write is lost. -/
theorem audit_panics :
    (¬ ∀ (printSecs : Nat → Text) (now : SystemTime) (addr : Text) (parts : List Bytes),
      (audit printSecs now addr parts).isSome) ∧
    turn ⟨plainEnv, none⟩ ⟨.authenticated, []⟩ ⟨.ok wideValue, plainCtx, fun _ => 0⟩ newDb =
      some ⟨[], .panicked, newDb, []⟩ := by
  have hdecoded := decode?_encode (List.replicate 16 'é')
  have hcut : CutWithin (encode (List.replicate 16 'é')) := by
    refine ⟨by rw [hdecoded]; rfl, ?_⟩
    decide
  have hnone : ∀ printSecs now addr, audit printSecs now addr wideValue = none := by
    intro printSecs now addr
    have hsummary : ¬ (summary wideValue).isSome :=
      fun h => summary_isSome_iff.mp h _ (by simp [wideValue]) hcut
    rw [audit, Option.map_eq_none_iff, ← Option.not_isSome_iff_eq_none]
    exact hsummary
  refine ⟨fun h => ?_,
    turn_of_audit_none rfl (by simp [wideValue]) (hnone (fun _ => []) .unixEpoch [])⟩
  have hsome := h (fun _ => []) .unixEpoch [] wideValue
  rw [hnone] at hsome
  cases hsome

end Cuts

end TitanKv
