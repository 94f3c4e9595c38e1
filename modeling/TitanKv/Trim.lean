import TitanKv.Replies
import TitanKv.Torn

/-! # Trims and the replay that skips them

`LTRIM` logs a line that replay has no arm for. A run of list commands comes back
from its log, at every step, exactly if each of its trims keeps the whole list. -/

namespace TitanKv
open Utf8 Local TwoPhase

section Trimming
variable {list kept : List Bytes} {start stop bound : Int}

/-- What `LTRIM` leaves of a list; `none` where its loop does not end. -/
def trimmed (list : List Bytes) (start stop : Int) : Option (List Bytes) :=
  let len := asI32 list.length
  let s := resolveIndex len start
  let e := resolveIndex len stop
  if s > e ∨ s ≥ len then some []
  else (popBackWhile (asI32 (min e (asI32 (len - 1)) + 1)) list.reverse).map fun kept =>
    kept.reverse.drop (max 0 s).toNat

/-- The trim keeps a list, and keeps all of it. -/
def KeepsAll (list : List Bytes) (start stop : Int) : Prop :=
  let len := asI32 list.length
  let s := resolveIndex len start
  let e := resolveIndex len stop
  list ≠ [] ∧ ¬ (s > e ∨ s ≥ len) ∧ s ≤ 0 ∧ len ≤ asI32 (min e (asI32 (len - 1)) + 1)

theorem popBackWhile_suffix (h : popBackWhile bound list = some kept) : kept <:+ list := by
  induction list with
  | nil =>
    unfold popBackWhile at h
    split at h
    · cases h
    · obtain rfl := Option.some.inj h
      exact List.suffix_refl _
  | cons val rest ih =>
    unfold popBackWhile at h
    split at h
    · exact (ih h).trans (List.suffix_cons val rest)
    · obtain rfl := Option.some.inj h
      exact List.suffix_refl _

theorem popBackWhile_self_iff (hne : list ≠ []) :
    popBackWhile bound list = some list ↔ asI32 list.length ≤ bound := by
  cases list with
  | nil => exact absurd rfl hne
  | cons val rest =>
    unfold popBackWhile
    rw [List.length_cons, Nat.cast_add, Nat.cast_one]
    split
    · rename_i hlt
      refine ⟨fun h => ?_, fun hle => absurd hlt (not_lt.mpr hle)⟩
      have hlen := (popBackWhile_suffix h).length_le
      rw [List.length_cons] at hlen
      omega
    · rename_i hge
      exact ⟨fun _ => not_lt.mp hge, fun _ => rfl⟩

/-- What a trim leaves is the list exactly if the trim keeps all of it. -/
theorem trimmed_self_iff (hne : list ≠ []) :
    trimmed list start stop = some list ↔ KeepsAll list start stop := by
  have hself : ∀ bound, popBackWhile bound list.reverse = some list.reverse ↔
      asI32 list.length ≤ bound := by
    intro bound
    rw [popBackWhile_self_iff (by simpa using hne), List.length_reverse]
  unfold trimmed KeepsAll
  dsimp only
  split
  · rename_i hcut
    simp [hcut, Ne.symm hne]
  · rename_i hcut
    rw [Option.map_eq_some_iff]
    constructor
    · rintro ⟨kept, hkept, heq⟩
      have hsuffix := popBackWhile_suffix hkept
      have hlen := congrArg List.length heq
      have hle := hsuffix.length_le
      have hpos := List.length_pos_iff.mpr hne
      simp only [List.length_drop, List.length_reverse] at hlen hle
      obtain rfl : kept = list.reverse := hsuffix.eq_of_length (by rw [List.length_reverse]; omega)
      exact ⟨hne, hcut, by omega, (hself _).mp hkept⟩
    · rintro ⟨-, -, hs, hle⟩
      refine ⟨_, (hself _).mpr hle, ?_⟩
      rw [List.reverse_reverse, max_eq_left hs]
      rfl

/-- On a list that a 32-bit index counts: from the first element at the latest to
the last at the earliest. -/
theorem keepsAll_short (h : list.length < 2 ^ 31) (hstop : -2 ^ 31 ≤ stop) :
    KeepsAll list start stop ↔ list ≠ [] ∧ resolveIndex list.length start ≤ 0 ∧
      (list.length : Int) - 1 ≤ resolveIndex list.length stop := by
  have hlen : asI32 list.length = list.length := asI32_of_fits (by omega) (by omega)
  have hlast : asI32 (list.length - 1) = list.length - 1 := asI32_of_fits (by omega) (by omega)
  have he : -2 ^ 31 ≤ resolveIndex list.length stop := by
    unfold resolveIndex
    split
    · exact (asI32_range _).1
    · exact hstop
  unfold KeepsAll
  dsimp only
  rw [hlen, hlast, asI32_of_fits (by omega) (by omega)]
  refine and_congr_right fun hne => ?_
  have hpos := List.length_pos_iff.mpr hne
  omega

example : KeepsAll [[97], [98]] 0 (-1) := (keepsAll_short (by decide) (by decide)).mpr (by decide)

/-- The loop does not end exactly if its bound is negative: it empties the list
and then pops nothing. -/
theorem popBackWhile_eq_none_iff (h : list.length < 2 ^ 31) :
    popBackWhile bound list = none ↔ bound < 0 := by
  induction list with
  | nil => simp [popBackWhile]
  | cons val rest ih =>
    have hrest : rest.length + 1 < 2 ^ 31 := h
    have hlen : asI32 (rest.length + 1) = rest.length + 1 := asI32_of_fits (by omega) (by omega)
    unfold popBackWhile
    rw [hlen]
    split
    · exact ih (by omega)
    · rename_i hge
      have hpos : ¬ bound < 0 := by omega
      simp [hpos]

theorem resolveIndex_cases {index : Int} (h : list.length < 2 ^ 31)
    (hindex : -2 ^ 31 ≤ index ∧ index < 2 ^ 31) :
    ∃ i, resolveIndex list.length index = i ∧
      (index < 0 ∧ i = list.length + index ∨ 0 ≤ index ∧ i = index) ∧ -2 ^ 31 ≤ i ∧ i < 2 ^ 31 := by
  refine ⟨_, rfl, ?_⟩
  unfold resolveIndex
  split
  · rw [asI32_of_fits (by omega) (by omega)]
    omega
  · omega

/-- On a list that a 32-bit index counts, a trim does not end exactly if both its
indices are normalised to positions before the first, the last of them at least
two before. -/
theorem trimmed_eq_none_iff (h : list.length < 2 ^ 31) (hstart : -2 ^ 31 ≤ start ∧ start < 2 ^ 31)
    (hstop : -2 ^ 31 ≤ stop ∧ stop < 2 ^ 31) :
    trimmed list start stop = none ↔ start ≤ stop ∧ stop < -list.length - 1 := by
  have hlen : asI32 list.length = list.length := asI32_of_fits (by omega) (by omega)
  have hlast : asI32 (list.length - 1) = list.length - 1 := asI32_of_fits (by omega) (by omega)
  obtain ⟨s, hs, hstart⟩ := resolveIndex_cases h hstart
  obtain ⟨e, he, hstop⟩ := resolveIndex_cases h hstop
  unfold trimmed
  dsimp only
  rw [hlen, hlast, hs, he, asI32_of_fits (by omega) (by omega)]
  split
  · rename_i hcut
    have hends : ¬ (start ≤ stop ∧ stop < -list.length - 1) := by omega
    simp [hends]
  · rename_i hcut
    rw [Option.map_eq_none_iff, popBackWhile_eq_none_iff (by rwa [List.length_reverse])]
    omega

end Trimming

section Step
variable (env : Env) (ctx : Ctx) {db db' : Memory} {key : Bytes} {start stop : Int}
  {list : List Bytes}
  {a : Outcome} {logs : List Command}

/-- The item of a trimmed list: an empty one is removed. -/
def Item.trimTo (rest : List Bytes) (item : Option Item) : Option Item :=
  if rest = [] then none else Item.onList (fun _ => rest) item

theorem trimTo_nil (item : Option Item) : Item.trimTo [] item = none := if_pos rfl

/-- Any other trim replaces the list. -/
theorem trimTo_of_ne {rest : List Bytes} (h : rest ≠ []) :
    Item.trimTo rest = Item.onList fun _ => rest :=
  funext fun _ => if_neg h

theorem items_setList {map : Shard} {rest : List Bytes} (hv : map.value? key = some (.list list)) :
    (map.setValue key (.list rest)).items key = Item.onList (fun _ => rest) (map.items key) := by
  rw [setValue_eq_editList (f := fun _ => rest) hv, editList_items]

theorem value?_setValue {map : Shard} {before value : DataType}
    (hv : map.value? key = some before) :
    (map.setValue key value).value? key = some value := by
  obtain ⟨entry, hl, -⟩ := Option.map_eq_some_iff.mp hv
  rw [Shard.value?, Shard.lookup_setValue hl]
  rfl

theorem onList_const (first rest : List Bytes) (item : Option Item) :
    Item.onList (fun _ => rest) (Item.onList (fun _ => first) item) =
      Item.onList (fun _ => rest) item := by
  cases item with
  | none => rfl
  | some item =>
    obtain ⟨value, expires⟩ := item
    cases value <;> rfl

/-- The arm on its map: no list, and nothing happens; or the list is trimmed, and
the trim logged. -/
theorem lTrim_cell {map map' : Shard}
    (h : (handleLTrim env key start stop).runCell map = some (a, map', logs)) :
    ((∀ list, map.value? key ≠ some (.list list)) ∧ map' = map ∧ logs = []) ∨
    ∃ list rest, map.value? key = some (.list list) ∧ trimmed list start stop = some rest ∧
      map'.items key = Item.trimTo rest (map.items key) ∧ logs = [.lTrim key start stop] := by
  unfold handleLTrim at h
  rw [runCell_withWrite] at h
  obtain ⟨⟨r, map₁, logs₁⟩, hcell, heq⟩ := Option.map_eq_some_iff.mp h
  obtain ⟨-, rfl, rfl⟩ := by simpa using heq
  simp only [remove, Prog.pure_eq, Prog.get_bind, Prog.read_bind, Prog.modify_bind,
    Prog.update_bind, Prog.done_bind, Prog.emit_bind, runCell_read] at hcell
  split at hcell
  · rename_i list hv
    refine Or.inr ⟨list, ?_⟩
    unfold trimmed
    dsimp only at hcell ⊢
    split at hcell
    · rename_i hcut
      obtain ⟨-, rfl, rfl⟩ := by simpa using hcell
      exact ⟨[], hv, if_pos hcut, by simp [Item.trimTo], rfl⟩
    · rename_i hcut
      rw [if_neg hcut]
      split at hcell
      · cases hcell
      · rename_i kept hkept
        rw [hkept]
        refine ⟨_, hv, rfl, ?_⟩
        simp only [runCell_update] at hcell
        have hkeep : (map.setValue key (.list kept.reverse)).value? key =
            some (.list kept.reverse) :=
          value?_setValue hv
        split at hcell
        · rename_i hnil
          obtain ⟨-, rfl, rfl⟩ := by simpa using hcell
          exact ⟨by simp [Item.trimTo, hnil], rfl⟩
        · rename_i hnil
          obtain ⟨-, rfl, rfl⟩ := by simpa using hcell
          refine ⟨?_, rfl⟩
          rw [items_setList hkeep, items_setList hv, trimTo_of_ne hnil, onList_const]
  · rename_i hne hv
    obtain ⟨-, rfl, rfl⟩ := by simpa using hcell
    exact Or.inl ⟨fun list hlist => hne list (Option.some.inj (hv.symm.trans hlist)), rfl, rfl⟩
  · rename_i hv
    obtain ⟨-, rfl, rfl⟩ := by simpa using hcell
    exact Or.inl ⟨fun list hlist => (by rw [hv] at hlist; cases hlist), rfl, rfl⟩

theorem run_lTrim (hrun : (handleLTrim env key start stop).run db = some (a, db', logs)) :
    ((∀ list, stored env db key ≠ some (.list list)) ∧ db' = db ∧ logs = []) ∨
    ∃ list rest, stored env db key = some (.list list) ∧ trimmed list start stop = some rest ∧
      view env db' = onKey (Item.trimTo rest) key (view env db) ∧
        logs = [.lTrim key start stop] := by
  have hwrites := handleLTrim_writes env key start stop
  rw [hwrites.run_eq] at hrun
  obtain ⟨⟨r, map', logs'⟩, hcell, heq⟩ := Option.map_eq_some_iff.mp hrun
  obtain ⟨rfl, rfl, rfl⟩ := by simpa using heq
  rcases lTrim_cell env hcell with ⟨hnone, rfl, rfl⟩ | ⟨list, rest, hlist, hrest, hitem, rfl⟩
  · exact Or.inl ⟨hnone, Function.update_eq_self _ _, rfl⟩
  · refine Or.inr ⟨list, rest, hlist, hrest, view_update env hitem fun k hk => ?_, rfl⟩
    obtain ⟨arm, harm, hframe⟩ := hwrites
    rw [harm, runCell_withWrite] at hcell
    obtain ⟨⟨reply, map₁, logs₁⟩, hends, heq⟩ := Option.map_eq_some_iff.mp hcell
    obtain ⟨-, rfl, -⟩ := by simpa using heq
    exact (hframe _).2 _ _ _ _ hends k hk

/-- The arm does not end exactly on a list whose trim does not. -/
theorem lTrim_run_eq_none_iff : (handleLTrim env key start stop).run db = none ↔
    ∃ list, stored env db key = some (.list list) ∧ trimmed list start stop = none := by
  rw [(handleLTrim_writes env key start stop).run_eq, Option.map_eq_none_iff]
  unfold handleLTrim stored
  rw [runCell_withWrite, Option.map_eq_none_iff]
  simp only [remove, Prog.pure_eq, Prog.get_bind, Prog.read_bind, Prog.modify_bind,
    Prog.update_bind, Prog.done_bind, Prog.emit_bind, runCell_read]
  split
  · rename_i list hv
    rw [hv]
    have hlist : ∀ P : List Bytes → Prop,
        (∃ other, some (DataType.list list) = some (.list other) ∧ P other) ↔
        P list := by simp
    rw [hlist]
    unfold trimmed
    dsimp only
    split
    · simp
    · split
      · rename_i hnone
        simp [hnone]
      · rename_i kept hkept
        rw [hkept]
        split <;> simp
  · rename_i hne hv
    simp only [hv, runCell_done, reduceCtorEq, false_iff]
    rintro ⟨list, hlist, -⟩
    exact hne list (Option.some.inj hlist)
  · rename_i hv
    simp [hv]

/-- Exactly when `LTRIM` on a list ends. -/
theorem lTrim_ends_iff (hlist : stored env db key = some (.list list)) (hlen : list.length < 2 ^ 31)
    (hstart : -2 ^ 31 ≤ start ∧ start < 2 ^ 31) (hstop : -2 ^ 31 ≤ stop ∧ stop < 2 ^ 31) :
    (handle env ctx (.lTrim key start stop)).run db ≠ none ↔
      stop < start ∨ -list.length - 1 ≤ stop := by
  show (handleLTrim env key start stop).run db ≠ none ↔ _
  rw [ne_eq, lTrim_run_eq_none_iff]
  have honly : (∃ other, stored env db key = some (.list other) ∧ trimmed other start stop = none) ↔
      trimmed list start stop = none := by
    simp [hlist]
  rw [honly, trimmed_eq_none_iff hlen hstart hstop]
  omega

theorem view_of_stored {value : DataType} (h : stored env db key = some value) :
    ∃ expires, view env db key = some ⟨value.toValue, expires⟩ := by
  obtain ⟨entry, hl, rfl⟩ := Option.map_eq_some_iff.mp h
  exact ⟨entry.expiresAt.isSome, by simp [view, Shard.items, hl, Entry.item]⟩

theorem stored_of_view {expires : Bool} (h : view env db key = some ⟨.list list, expires⟩) :
    stored env db key = some (.list list) := by
  obtain ⟨⟨value, expiresAt⟩, hl, hitem⟩ := Option.map_eq_some_iff.mp h
  rw [stored, Shard.value?, hl]
  cases value with
  | list other =>
    obtain rfl : other = list := Value.list.inj (Item.mk.inj hitem).1
    rfl
  | _ => cases hitem

theorem stored_of_view_none (h : view env db key = none) : stored env db key = none := by
  rw [stored, Shard.value?, Option.map_eq_none_iff.mp h]
  rfl

/-- A trim of a list leaves the keyspace alone exactly if it keeps all of the list. -/
theorem trimTo_self_iff {rest : List Bytes} (hlist : stored env db key = some (.list list))
    (hrest : trimmed list start stop = some rest) :
    onKey (Item.trimTo rest) key (view env db) = view env db ↔ KeepsAll list start stop := by
  obtain ⟨expires, hview⟩ := view_of_stored env hlist
  constructor
  · intro h
    have hkey := congrFun h key
    rw [onKey_self, hview, Item.trimTo] at hkey
    split at hkey
    · cases hkey
    · rename_i hne
      obtain rfl : rest = list := by simpa [Item.onList, DataType.toValue] using hkey
      exact (trimmed_self_iff hne).mp hrest
  · intro h
    obtain rfl : list = rest := Option.some.inj (((trimmed_self_iff h.1).mpr h).symm.trans hrest)
    funext k
    by_cases hk : k = key
    · subst hk
      rw [onKey_self, hview, trimTo_of_ne h.1]
      rfl
    · exact onKey_of_ne _ _ hk

/-- The step is no trim of a list, or one that keeps all of it. -/
def TrimKeeps (db : Memory) : Command → Prop
  | .lTrim key start stop =>
    ∀ list, stored env db key = some (.list list) → KeepsAll list start stop
  | _ => True

/-- A step's log does what the step does exactly if its trim, if it is one, keeps
the whole list. -/
theorem step_logged_iff {command : Command}
    (hrun : (handle env ctx command).run db = some (a, db', logs)) :
    Keyspace.applyAll logs (view env db) = view env db' ↔ TrimKeeps env db command := by
  by_cases htrim : ∀ key start stop, command ≠ .lTrim key start stop
  · obtain ⟨a₁, db₁, logs₁, hrun₁, hview⟩ := handle_agrees env ctx htrim db
    rw [hrun] at hrun₁
    obtain ⟨-, rfl, rfl⟩ := by simpa using hrun₁
    refine iff_of_true hview.symm ?_
    cases command with
    | lTrim key start stop => exact absurd rfl (htrim key start stop)
    | _ => trivial
  · push Not at htrim
    obtain ⟨key, start, stop, rfl⟩ := htrim
    rcases run_lTrim env hrun with ⟨hnone, rfl, rfl⟩ | ⟨list, rest, hlist, hrest, hview, rfl⟩
    · exact iff_of_true rfl fun list hlist => absurd hlist (hnone list)
    · rw [hview]
      show view env db = _ ↔ _
      rw [eq_comm, trimTo_self_iff env hlist hrest]
      refine ⟨fun h list' hlist' => ?_, fun h => h list hlist⟩
      obtain rfl : list = list' := by simpa using hlist.symm.trans hlist'
      exact h

end Step

/-- The empty database after one push. -/
def onePush : Memory := onShard plainEnv [107] (·.insert [107] ⟨.list [[97]], none⟩) newDb

theorem lTrim_ends_iff_one :
    (handle plainEnv plainCtx (.lTrim [107] (-5) (-4))).run onePush ≠ none ↔
    (-4 : Int) < -5 ∨ -(([[97]] : List Bytes).length : Int) - 1 ≤ -4 :=
  lTrim_ends_iff plainEnv plainCtx rfl (by decide) (by decide) (by decide)

/-- `LTRIM k -5 -4` on a list of one element never returns. -/
theorem lTrim_hangs : ¬ (∀ (db : Memory) (list : List Bytes) (start stop : Int),
    stored plainEnv db [107] = some (.list list) → list.length < 2 ^ 31 →
    -2 ^ 31 ≤ start ∧ start < 2 ^ 31 → -2 ^ 31 ≤ stop ∧ stop < 2 ^ 31 →
    (handle plainEnv plainCtx (.lTrim [107] start stop)).run db ≠ none) := by
  intro h
  exact h onePush [[97]] (-5) (-4) rfl (by decide) (by decide) (by decide) rfl

section Runs
variable (env : Env) (clock : Nat → SystemTime) {requests : List Request} {db db' : Memory}
  {logs : List Command}

/-- Every trim of the run keeps the whole list it finds. -/
def KeptTrims : List Request → Memory → Prop
  | [], _ => True
  | request :: requests, db => TrimKeeps env db request.command ∧
      ∀ a db' logs, (request.handle env).run db = some (a, db', logs) → KeptTrims requests db'

/-- The list commands. -/
def Command.isList : Command → Prop
  | .lPush _ _ | .rPush _ _ | .lPop _ | .rPop _ | .lTrim _ _ _ | .lRange _ _ _ | .lRem _ _ _
  | .rPopLPush _ _ | .llen _ => True
  | _ => False

/-- A list command whose line, if it may have one, has plain words. -/
def Command.PlainList (c : Command) : Prop := c.isList ∧ (¬ c.reads → c.PlainWords)

/-- The run's log, replayed, gives what the run left. -/
def Survives (requests : List Request) : Prop :=
  ∀ db logs, execute env requests newDb = some (db, logs) →
    ∃ db', replayAof env clock (logFile logs) = some db' ∧ view env db' = view env db

/-- At every step the log makes what the run has made, exactly if the trims keep. -/
theorem logged_iff_keptTrims (hrun : execute env requests db = some (db', logs)) :
    (∀ n db₁ logs₁, execute env (requests.take n) db = some (db₁, logs₁) →
      Keyspace.applyAll logs₁ (view env db) = view env db₁) ↔ KeptTrims env requests db := by
  induction requests generalizing db logs with
  | nil =>
    refine iff_of_true (fun n db₁ logs₁ h => ?_) trivial
    rw [List.take_nil] at h
    obtain ⟨rfl, rfl⟩ := Prod.mk.inj (Option.some.inj h)
    rfl
  | cons request requests ih =>
    obtain ⟨a, db₁, logs₁, logs₂, hhead, htail, rfl⟩ := execute_cons hrun
    have hstep := step_logged_iff env request.ctx hhead
    constructor
    · intro h
      have hfirst : Keyspace.applyAll logs₁ (view env db) = view env db₁ := by
        refine h 1 db₁ logs₁ ?_
        simp [execute, hhead]
      refine ⟨hstep.mp hfirst, fun a' db₁' logs₁' hhead' => ?_⟩
      rw [hhead] at hhead'
      obtain ⟨-, rfl, -⟩ := by simpa using hhead'
      refine (ih htail).mp fun n db₂ logs₂ hexec => ?_
      have hlater := h (n + 1) db₂ (logs₁ ++ logs₂) (by simp [execute, hhead, hexec])
      rw [← hlater, ← hfirst]
      exact (applyAll_append _ _ _ _).symm
    · rintro ⟨hkeeps, hrest⟩ n db₂ logs₂ hexec
      cases n with
      | zero =>
        obtain ⟨rfl, rfl⟩ := Prod.mk.inj (Option.some.inj hexec)
        rfl
      | succ n =>
        obtain ⟨a', db₁', logs₁', logs₃, hhead', hexec', rfl⟩ := execute_cons hexec
        rw [hhead] at hhead'
        obtain ⟨rfl, rfl, rfl⟩ := by simpa using hhead'
        rw [← (ih htail).mpr (hrest _ _ _ hhead) n db₂ logs₃ hexec', ← hstep.mpr hkeeps]
        exact applyAll_append _ _ _ _

theorem plainWords_entry {c : Command} (h : c.PlainWords) : c.entry.PlainWords := by
  obtain ⟨htyped, verb, args, hw, hargs⟩ := h
  cases c with
  | get key => cases hw
  | lRem key count value => exact ⟨trivial, verb, args, hw, hargs⟩
  | _ => exact ⟨htyped, verb, args, hw, hargs⟩

theorem fitsAll_of_forall {commands : List Command} (h : ∀ c ∈ commands, ∀ now, Fits now c)
    (n : Nat) :
    FitsAll clock n commands := by
  induction commands generalizing n with
  | nil => trivial
  | cons c commands ih =>
    exact ⟨h c (by simp) _, ih (fun c' hc' => h c' (List.mem_cons_of_mem _ hc')) (n + 1)⟩

theorem fits_list {c : Command} (h : c.isList) (now : SystemTime) : Fits now c.entry := by
  cases c <;> first | exact h.elim | trivial

variable {env}

/-- The log of a run of list commands with plain words replays as its commands. -/
theorem replayAof_list (hc : ∀ request ∈ requests, request.command.PlainList)
    (hrun : execute env requests newDb = some (db, logs)) :
    ∃ db', replayAof env clock (logFile logs) = some db' ∧
      view env db' = Keyspace.applyAll logs (view env newDb) := by
  refine replayAof_runs env clock (fun c hcl => ?_) (fitsAll_of_forall clock (fun c hcl => ?_) 0)
  · obtain ⟨request, hr, rfl, hw⟩ := execute_logs hrun c hcl
    exact (plainWords_entry ((hc request hr).2 hw)).codable
  · obtain ⟨request, hr, rfl, -⟩ := execute_logs hrun c hcl
    exact fits_list (hc request hr).1

/-- Exactly when a run of list commands survives a restart at every step: each of
its trims keeps the whole list. -/
theorem trims_survive_iff (hc : ∀ request ∈ requests, request.command.PlainList)
    (hrun : execute env requests newDb = some (db, logs)) :
    (∀ n, Survives env clock (requests.take n)) ↔ KeptTrims env requests newDb := by
  rw [← logged_iff_keptTrims env hrun]
  refine forall_congr' fun n => forall_congr' fun db₁ => forall_congr' fun logs₁ => ?_
  refine forall_congr' fun hexec => ?_
  obtain ⟨db', hreplay, hview⟩ := replayAof_list clock
    (fun request hr => hc request (List.mem_of_mem_take hr)) hexec
  rw [hreplay, ← hview]
  constructor
  · rintro ⟨db₂, heq, hsame⟩
    obtain rfl := Option.some.inj heq
    exact hsame
  · exact fun hsame => ⟨db', rfl, hsame⟩

theorem listWord (c : Char) (h : c.isAlphanum) : (Arg.bare (encode [c])).Alphanumeric :=
  ⟨[c], rfl, by simp, by simpa using h⟩

theorem push_plain (c : Char) (h : c.isAlphanum) : (Command.rPush [107] (encode [c])).PlainWords :=
  ⟨trivial, .rPush, _, rfl, List.forall_mem_cons.mpr ⟨listWord 'k' rfl,
    List.forall_mem_singleton.mpr (listWord c h)⟩⟩

theorem trim_plain {stop : Int} (h : -2 ^ 31 ≤ stop ∧ stop ≤ 2 ^ 31 - 1) :
    (Command.lTrim [107] 0 stop).PlainWords :=
  ⟨⟨⟨by decide, by decide⟩, h⟩, .lTrim, _, rfl,
    List.forall_mem_cons.mpr ⟨listWord 'k' rfl, by simp [Arg.Alphanumeric]⟩⟩

/-- Two pushes, and a trim. -/
def trimmedPushes (start stop : Int) : List Request :=
  [⟨plainCtx, .rPush [107] [97]⟩, ⟨plainCtx, .rPush [107] [98]⟩,
    ⟨plainCtx, .lTrim [107] start stop⟩]

theorem trims_survive_iff_whole :
    (∀ n, Survives plainEnv (fun _ => SystemTime.unixEpoch) ((trimmedPushes 0 (-1)).take n)) ↔
      KeptTrims plainEnv (trimmedPushes 0 (-1)) newDb := by
  have hplain : ∀ request ∈ trimmedPushes 0 (-1), request.command.PlainList := by
    simp only [trimmedPushes, List.forall_mem_cons]
    exact ⟨⟨trivial, fun _ => push_plain 'a' rfl⟩, ⟨trivial, fun _ => push_plain 'b' rfl⟩,
      ⟨trivial, fun _ => trim_plain (by decide)⟩, fun _ h => absurd h List.not_mem_nil⟩
  obtain ⟨db, logs, hrun⟩ : ∃ db logs, execute plainEnv (trimmedPushes 0 (-1)) newDb =
      some (db, logs) :=
    ⟨_, _, rfl⟩
  exact trims_survive_iff _ hplain hrun

/-- After `LTRIM k 0 0` the list has one element; from its log it has two. -/
theorem not_survives_trim :
    ¬ Survives plainEnv (fun _ => SystemTime.unixEpoch) (trimmedPushes 0 0) := by
  intro h
  have hrun : ∃ db, execute plainEnv (trimmedPushes 0 0) newDb =
      some (db, [.rPush [107] [97], .rPush [107] [98], .lTrim [107] 0 0]) ∧
      view plainEnv db [107] = some ⟨.list [[97]], false⟩ := ⟨_, rfl, rfl⟩
  obtain ⟨db, hrun, hone⟩ := hrun
  have hread : aofCommands (logFile [.rPush [107] [97], .rPush [107] [98], .lTrim [107] 0 0]) =
      [.rPush [107] [97], .rPush [107] [98], .lTrim [107] 0 0] := by decide
  obtain ⟨db', hreplay, hsame⟩ := h db _ hrun
  rw [replayAof, hread] at hreplay
  have htwo : view plainEnv db' [107] = some ⟨.list [[97], [98]], false⟩ := by
    rw [view_replayAll plainEnv hreplay]
    rfl
  rw [hsame, hone] at htwo
  cases htwo

end Runs

end TitanKv
