import TitanKv.Restarts

/-! # Index ranges of lists

`LRANGE` and `LTRIM` resolve the same pair of signed indices, one to count and
copy elements and the other to pop them. On a list that a 32-bit index counts,
both work on the elements whose positions lie between the two; only an empty list
takes the arithmetic of `LRANGE` out of its types. -/

namespace TitanKv
open Local TwoPhase Runs

section Checked

/-- A result that an `i32` holds. -/
def checkI32 (z : Int) : Option Int := if -2 ^ 31 ≤ z ∧ z < 2 ^ 31 then some z else none

/-- A result that a `usize` holds. -/
def checkUsize (z : Int) : Option Nat := if 0 ≤ z ∧ z < 2 ^ 64 then some z.toNat else none

/-- The index counted from the end if negative, checked. -/
def checkIndex (len index : Int) : Option Int :=
  if index < 0 then checkI32 (len + index) else some index

/-- The arithmetic of `LRANGE` with every result checked: the announced count,
and the indices that the loop visits. -/
def checkedRange (length : Nat) (start stop : Int) : Option (Nat × List Nat) := do
  let len ← checkI32 length
  let s ← checkIndex len start
  let e ← checkIndex len stop
  if s > e ∨ s ≥ len ∨ e < 0 then return (0, [])
  else do
    let bound ← checkI32 (len - 1)
    let first ← checkUsize (max 0 s)
    let last ← checkUsize (min e bound)
    let gap ← checkUsize ((last : Int) - first)
    let count ← checkUsize (gap + 1)
    return (count, List.range' first (last + 1 - first))

variable {z len index start stop : Int} {list : List Bytes}

theorem checkI32_of_fits (hlo : -2 ^ 31 ≤ z) (hhi : z < 2 ^ 31) : checkI32 z = some z :=
  if_pos ⟨hlo, hhi⟩

theorem checkUsize_of_fits (hlo : 0 ≤ z) (hhi : z < 2 ^ 64) : checkUsize z = some z.toNat :=
  if_pos ⟨hlo, hhi⟩

theorem checkIndex_of_fits (hlen : 0 ≤ len ∧ len < 2 ^ 31)
    (hindex : -2 ^ 31 ≤ index ∧ index < 2 ^ 31) :
    checkIndex len index = some (resolveIndex len index) := by
  unfold checkIndex resolveIndex
  split
  · rw [checkI32_of_fits (by omega) (by omega), asI32_of_fits (by omega) (by omega)]
  · rfl

/-- The `LRANGE` of a list of fewer than 2^31 elements, with its checks. -/
theorem checkedRange_eq (hlen : list.length < 2 ^ 31) (hstart : -2 ^ 31 ≤ start ∧ start < 2 ^ 31)
    (hstop : -2 ^ 31 ≤ stop ∧ stop < 2 ^ 31) :
    checkedRange list.length start stop =
      if NoRange list start stop then some (0, [])
      else if list = [] then none
      else
        let first := (resolveIndex list.length start).toNat
        let last := (min (resolveIndex list.length stop) (list.length - 1)).toNat
        some (last + 1 - first, List.range' first (last + 1 - first)) := by
  have hwrap : asI32 list.length = list.length := asI32_of_fits (by omega) (by omega)
  obtain ⟨s, hs, -, hsrange⟩ := resolveIndex_cases hlen hstart
  obtain ⟨e, he, -, herange⟩ := resolveIndex_cases hlen hstop
  have hlength : checkI32 list.length = some (list.length : Int) :=
    checkI32_of_fits (by omega) (by omega)
  have hfirst : checkIndex list.length start = some s := by
    rw [checkIndex_of_fits ⟨by omega, by omega⟩ hstart, hs]
  have hlast : checkIndex list.length stop = some e := by
    rw [checkIndex_of_fits ⟨by omega, by omega⟩ hstop, he]
  simp only [checkedRange, NoRange, hwrap, hlength, hfirst, hlast, hs, he, Option.bind_eq_bind,
    Option.bind_some]
  split
  · rfl
  · rename_i hno
    rw [checkI32_of_fits (by omega) (by omega), Option.bind_some,
      checkUsize_of_fits (by omega) (by omega), Option.bind_some]
    split
    · rename_i hnil
      have hlast : min e ((list.length : Int) - 1) < 0 := by
        rw [hnil, List.length_nil]
        omega
      rw [checkUsize, if_neg (by omega)]
      rfl
    · rename_i hne
      have hpos := List.length_pos_iff.mpr hne
      rw [checkUsize_of_fits (by omega) (by omega), Option.bind_some,
        checkUsize_of_fits (by omega) (by omega),
        Option.bind_some, checkUsize_of_fits (by omega) (by omega), Option.bind_some]
      have hzero : (max 0 s).toNat = s.toNat := by omega
      have hcount : ((((min e ((list.length : Int) - 1)).toNat : Int) - (s.toNat : Int)).toNat +
          1 : Int).toNat =
          (min e ((list.length : Int) - 1)).toNat + 1 - s.toNat := by omega
      rw [hzero, hcount]
      rfl

end Checked

section Visits
variable {env : Env} {ctx : Ctx} {db : Memory} {key : Bytes} {list : List Bytes} {start stop : Int}

/-- `LRANGE` stays in range: no result leaves its type, its loop visits elements
of the list only, as many as the reply announces, and copies those. -/
def StaysInRange (env : Env) (ctx : Ctx) (db : Memory) (key : Bytes) (list : List Bytes)
    (start stop : Int) : Prop :=
  ∃ count indices, checkedRange list.length start stop = some (count, indices) ∧
    (∀ i ∈ indices, i < list.length) ∧ indices.length = count ∧
    (handle env ctx (.lRange key start stop)).run db =
      some (.reply (arrayHeader count ++ (indices.filterMap fun i => list[i]?).flatMap writeBulk),
        db, [])

/-- On the empty list, only a range from a negative index to another is none. -/
theorem noRange_nil (hstart : -2 ^ 31 ≤ start ∧ start < 2 ^ 31)
    (hstop : -2 ^ 31 ≤ stop ∧ stop < 2 ^ 31) :
    NoRange [] start stop ↔ 0 ≤ start ∨ stop < 0 := by
  have hzero : asI32 ([] : List Bytes).length = ([] : List Bytes).length := by decide
  obtain ⟨s, hs, hsdef, -⟩ :=
    resolveIndex_cases (show ([] : List Bytes).length < 2 ^ 31 by decide) hstart
  obtain ⟨e, he, hedef, -⟩ :=
    resolveIndex_cases (show ([] : List Bytes).length < 2 ^ 31 by decide) hstop
  unfold NoRange
  dsimp only
  rw [hzero, hs, he]
  rw [List.length_nil] at hsdef hedef ⊢
  omega

/-- On any other list that a 32-bit index counts, the range is there. -/
theorem stays_of_range (hlist : stored env db key = some (.list list)) (hlen : list.length < 2 ^ 31)
    (hstart : -2 ^ 31 ≤ start ∧ start < 2 ^ 31) (hstop : -2 ^ 31 ≤ stop ∧ stop < 2 ^ 31)
    (hne : list ≠ []) (hno : ¬ NoRange list start stop) :
    StaysInRange env ctx db key list start stop := by
  have hpos := List.length_pos_iff.mpr hne
  have hwrap : asI32 list.length = list.length := asI32_of_fits (by omega) (by omega)
  have hreply := lRangeReply_counted hno (by omega)
  have hrange := hno
  dsimp only [NoRange] at hrange
  rw [hwrap] at hreply hrange
  refine ⟨_, _,
    by rw [checkedRange_eq hlen hstart hstop, if_neg hno, if_neg hne], ?_, List.length_range', ?_⟩
  · intro i hi
    rw [List.mem_range'_1] at hi
    omega
  · rw [handle, handleLRange_run env db hlist, hreply, filterMap_range', bulkArray,
      List.length_take, List.length_drop, Nat.min_eq_left (by omega)]

/-- Exactly when `LRANGE` on a list stays in range. -/
theorem lRange_stays_iff (hlist : stored env db key = some (.list list))
    (hlen : list.length < 2 ^ 31)
    (hstart : -2 ^ 31 ≤ start ∧ start < 2 ^ 31) (hstop : -2 ^ 31 ≤ stop ∧ stop < 2 ^ 31) :
    StaysInRange env ctx db key list start stop ↔ list ≠ [] ∨ 0 ≤ start ∨ stop < 0 := by
  by_cases hno : NoRange list start stop
  · refine iff_of_true ⟨0, [],
      by rw [checkedRange_eq hlen hstart hstop, if_pos hno], by simp, rfl, ?_⟩ ?_
    · rw [handle, handleLRange_run env db hlist, lRangeReply_noRange hno]
      rfl
    · by_cases hnil : list = []
      · rw [hnil, noRange_nil hstart hstop] at hno
        exact Or.inr hno
      · exact Or.inl hnil
  · by_cases hnil : list = []
    · refine iff_of_false ?_ ?_
      · rintro ⟨count, indices, hchecked, -⟩
        rw [checkedRange_eq hlen hstart hstop, if_neg hno, if_pos hnil] at hchecked
        cases hchecked
      · rw [hnil, noRange_nil hstart hstop] at hno
        exact fun h => h.elim (fun hne => hne hnil) hno
    · exact iff_of_true (stays_of_range hlist hlen hstart hstop hnil hno) (Or.inl hnil)

theorem lRange_stays_iff_list :
    StaysInRange plainEnv plainCtx (listDb [[97], [98]]) [107] [[97], [98]] (-5) 7 ↔
      ([[97], [98]] : List Bytes) ≠ [] ∨ (0 : Int) ≤ -5 ∨ (7 : Int) < 0 :=
  lRange_stays_iff (stored_listDb _) (by decide) (by decide) (by decide)

/-- A list whose only element was popped. -/
def poppedList : List Request := [⟨plainCtx, .rPush [107] [97]⟩, ⟨plainCtx, .lPop [107]⟩]

/-- `LRANGE k -1 0` on an empty list: the end is -1, as a `usize` 2^64 - 1. -/
theorem lRange_leaves_range :
    ¬ ∀ (env : Env) (requests : List Request) (db : Memory), run (requestStep env) newDb requests =
      some db →
      ∀ (ctx : Ctx) (key : Bytes) (list : List Bytes) (start stop : Int),
        stored env db key = some (.list list) →
        list.length < 2 ^ 31 → -2 ^ 31 ≤ start ∧ start < 2 ^ 31 → -2 ^ 31 ≤ stop ∧ stop < 2 ^ 31 →
        StaysInRange env ctx db key list start stop := by
  intro h
  obtain ⟨db, hrun, hlist⟩ : ∃ db, run (requestStep plainEnv) newDb poppedList = some db ∧
      stored plainEnv db [107] = some (.list []) := ⟨_, rfl, rfl⟩
  obtain ⟨count, indices, hchecked, -⟩ :=
    h plainEnv poppedList db hrun plainCtx [107] [] (-1) 0 hlist (by decide) (by decide) (by decide)
  cases hchecked

end Visits

section Positions
variable {α : Type} {list : List α}

/-- Where an index points to, counted from the end if negative. -/
def position (length : Nat) (index : Int) : Int := if index < 0 then length + index else index

/-- The elements whose positions lie between the two indices, in order. -/
def between (list : List α) (start stop : Int) : List α :=
  (list.zipIdx.filter fun p => position list.length start ≤ p.2 ∧
    p.2 ≤ position list.length stop).map Prod.fst

/-- The positions of a list from `n` on that lie between `lo` and `hi`. -/
theorem filter_zipIdx (list : List α) (n : Nat) (lo hi : Int) :
    ((list.zipIdx n).filter fun p => lo ≤ p.2 ∧ p.2 ≤ hi).map Prod.fst =
      (list.drop (lo - n).toNat).take (hi + 1 - max lo n).toNat := by
  induction list generalizing n with
  | nil => simp
  | cons a list ih =>
    rw [List.zipIdx_cons, List.filter_cons]
    by_cases hlo : lo ≤ n
    · have hdrop : (lo - n).toNat = 0 := by omega
      have hrest : (lo - (n + 1 : Nat)).toNat = 0 := by omega
      by_cases hhi : (n : Int) ≤ hi
      · have htake : (hi + 1 - max lo n).toNat = (hi + 1 - max lo (n + 1 : Nat)).toNat + 1 := by
          omega
        rw [if_pos (by simpa using ⟨hlo, hhi⟩), List.map_cons, ih, hdrop, hrest, List.drop_zero,
          List.drop_zero, htake, List.take_succ_cons]
      · have htake : (hi + 1 - max lo n).toNat = 0 := by omega
        have hnone : (hi + 1 - max lo (n + 1 : Nat)).toNat = 0 := by omega
        rw [if_neg (by simpa using fun _ => not_le.mp hhi), ih, htake, hnone, List.take_zero,
          List.take_zero]
    · have hdrop : (lo - n).toNat = (lo - (n + 1 : Nat)).toNat + 1 := by omega
      have htake : max lo (n : Int) = max lo (n + 1 : Nat) := by omega
      rw [if_neg (by simpa using fun h => absurd h hlo), ih, hdrop, htake, List.drop_succ_cons]

theorem between_eq_slice (list : List Bytes) (start stop : Int) :
    between list start stop = slice list start stop := by
  have hfirst : (if start < 0 then max 0 ((list.length : Int) + start) else start) =
      max (position list.length start) 0 := by
    unfold position
    split <;> omega
  have hdrop : (position list.length start - (0 : Nat)).toNat =
      (max (position list.length start) 0).toNat := by omega
  rw [between, filter_zipIdx, slice, hfirst, hdrop]
  rfl

end Positions

section Trims
variable {env : Env} {ctx : Ctx} {db : Memory} {key : Bytes} {list rest : List Bytes}
  {start stop : Int}

/-- What the loop that pops leaves, on the reversed list. -/
theorem popBackWhile_eq_some {bound : Int} (hlen : list.length < 2 ^ 31) (hbound : 0 ≤ bound) :
    popBackWhile bound list = some (list.drop (list.length - bound.toNat)) := by
  induction list with
  | nil => rw [popBackWhile, if_neg (by omega), List.drop_nil]
  | cons val list ih =>
    have hshort : list.length + 1 < 2 ^ 31 := hlen
    have hwrap : asI32 (list.length + 1) = list.length + 1 := asI32_of_fits (by omega) (by omega)
    rw [popBackWhile, hwrap, List.length_cons]
    split
    · have hdrop : list.length + 1 - bound.toNat = list.length - bound.toNat + 1 := by omega
      rw [ih (by omega), hdrop, List.drop_succ_cons]
    · have hdrop : list.length + 1 - bound.toNat = 0 := by omega
      rw [hdrop, List.drop_zero]

theorem popBackWhile_reverse {bound : Int} (hlen : list.length < 2 ^ 31) (hbound : 0 ≤ bound) :
    popBackWhile bound list.reverse = some (list.take bound.toNat).reverse := by
  rw [popBackWhile_eq_some (by rwa [List.length_reverse]) hbound, List.drop_reverse,
    List.length_reverse, Option.some.injEq, List.reverse_inj, List.take_eq_take_iff]
  omega

/-- The two loops of a trim that ends leave the elements between its indices. -/
theorem trimmed_eq_slice (hlen : list.length < 2 ^ 31) (hstart : -2 ^ 31 ≤ start ∧ start < 2 ^ 31)
    (hstop : -2 ^ 31 ≤ stop ∧ stop < 2 ^ 31) (h : trimmed list start stop = some rest) :
    rest = slice list start stop := by
  have hwrap : asI32 list.length = list.length := asI32_of_fits (by omega) (by omega)
  rw [slice_resolved hlen hstart.1 hstop.1]
  obtain ⟨s, hs, -, hsrange⟩ := resolveIndex_cases hlen hstart
  obtain ⟨e, he, -, herange⟩ := resolveIndex_cases hlen hstop
  unfold trimmed at h
  dsimp only at h
  rw [hwrap, hs, he] at h
  rw [hs, he]
  split at h
  · rename_i hcut
    obtain rfl := Option.some.inj h
    refine (List.length_eq_zero_iff.mp ?_).symm
    rw [List.length_take, List.length_drop]
    omega
  · rename_i hkeep
    obtain ⟨kept, hkept, rfl⟩ := Option.map_eq_some_iff.mp h
    have hlast : asI32 (min e (asI32 (list.length - 1)) + 1) = min e (list.length - 1) + 1 := by
      rw [asI32_of_fits (z := (list.length : Int) - 1) (by omega) (by omega),
        asI32_of_fits (by omega) (by omega)]
    rw [hlast] at hkept
    have hbound : 0 ≤ min e ((list.length : Int) - 1) + 1 := by
      by_contra hneg
      rw [(popBackWhile_eq_none_iff (by rwa [List.length_reverse])).mpr (by omega)] at hkept
      cases hkept
    rw [popBackWhile_reverse hlen hbound, Option.some.injEq] at hkept
    have hfirst : (max 0 s).toNat = s.toNat := by omega
    rw [← hkept, List.reverse_reverse, hfirst, List.drop_take, List.take_eq_take_iff,
      List.length_drop]
    omega

/-- What a range shows of a list is what the trim to it leaves, and the key goes
with the last element. -/
theorem lTrim_keeps_lRange (hlist : stored env db key = some (.list list))
    (hlen : list.length < 2 ^ 31)
    (hstart : -2 ^ 31 ≤ start ∧ start < 2 ^ 31) (hstop : -2 ^ 31 ≤ stop ∧ stop < 2 ^ 31) :
    (handle env ctx (.lRange key start stop)).run db =
      some (.reply (bulkArray (between list start stop)), db, []) ∧
    ∀ ctx a db' logs, (handle env ctx (.lTrim key start stop)).run db = some (a, db', logs) →
      stored env db' key =
        if between list start stop = [] then none else some (.list (between list start stop)) := by
  rw [between_eq_slice]
  constructor
  · rw [handle, handleLRange_run env db hlist, lRangeReply_short hlen hstart.1 hstop.1]
  · intro ctx a db' logs hrun
    obtain ⟨hnone, -, -⟩ | ⟨other, rest, hother, hrest, hview, -⟩ := run_lTrim env hrun
    · exact absurd hlist (hnone list)
    · obtain rfl : list = other := DataType.list.inj (Option.some.inj (hlist.symm.trans hother))
      rw [← trimmed_eq_slice hlen hstart hstop hrest]
      obtain ⟨expires, hbefore⟩ := view_of_stored env hlist
      have hafter := congrFun hview key
      rw [onKey_self, hbefore] at hafter
      split
      · rename_i hnil
        rw [hnil, trimTo_nil] at hafter
        exact stored_of_view_none env hafter
      · rename_i hkept
        rw [trimTo_of_ne hkept] at hafter
        exact stored_of_view env hafter

theorem lTrim_keeps_lRange_list :
    (handle plainEnv plainCtx (.lRange [107] (-1) 5)).run (listDb [[97], [98]]) =
        some (.reply (bulkArray (between [[97], [98]] (-1) 5)), listDb [[97], [98]], []) ∧
      ∀ ctx a db' logs, (handle plainEnv ctx (.lTrim [107] (-1) 5)).run (listDb [[97], [98]]) =
        some (a, db', logs) →
        stored plainEnv db' [107] =
          if between [[97], [98]] (-1) 5 = ([] : List Bytes) then none
          else some (.list (between [[97], [98]] (-1) 5)) :=
  lTrim_keeps_lRange (stored_listDb _) (by decide) (by decide) (by decide)

example : between [[97], [98]] (-1) 5 = ([[98]] : List Bytes) := by decide

end Trims

end TitanKv
