import TitanKv.Effects
import TitanKv.Lib.Tally
import TitanKv.Restarts

/-! # Moves between lists

`RPOPLPUSH` takes an element off one list and puts it on another. A destination
of another type refuses the element after the source has given it up; with any
other destination the lists of the database hold what they held. -/

namespace TitanKv
open Local TwoPhase

section Counts
variable {env : Env} {map : Shard} {db : Memory} {key val v : Bytes} {others : List Bytes}

/-- How often a value is in a stored list. -/
def listCount (v : Bytes) (entry : Entry) : Nat :=
  match entry.value with
  | .list list => list.count v
  | _ => 0

/-- How often a value is in the lists of a shard. -/
def Shard.occurrences (v : Bytes) (map : Shard) : Nat := Tally.ofMap (listCount v) map

/-- How often a value is in the lists of the database. -/
def occurrences (v : Bytes) (db : Memory) : Nat := Tally.total (listCount v) db

theorem occurrences_onShard (v : Bytes) (env : Env) (key : Bytes) (f : Shard → Shard)
    (db : Memory) :
    occurrences v (onShard env key f db) + (db (calculateShardIndex env key)).occurrences v =
      occurrences v db + (f (db (calculateShardIndex env key))).occurrences v :=
  Tally.total_update (listCount v) db _ _

/-- A change of a stored list changes the count by what it changes in the list. -/
theorem occurrences_setList (v : Bytes) (rest : List Bytes)
    (h : map.value? key = some (.list others)) :
    (map.setValue key (.list rest)).occurrences v + others.count v =
      map.occurrences v + rest.count v := by
  obtain ⟨⟨value, expiresAt⟩, hl, rfl⟩ := Option.map_eq_some_iff.mp h
  have hinsert := Tally.ofMap_insert (listCount v) key ⟨.list rest, expiresAt⟩ map
  rw [hl] at hinsert
  rw [Shard.setValue, hl]
  exact hinsert

theorem occurrences_orInsertWith :
    (map.orInsertWith key emptyList).occurrences v = map.occurrences v := by
  unfold Shard.orInsertWith
  split
  · rfl
  · rename_i hmem
    have hinsert := Tally.ofMap_insert (listCount v) key emptyList map
    rw [AList.lookup_eq_none.mpr hmem] at hinsert
    exact hinsert

/-- What `LPUSH` and `RPOPLPUSH` do to the destination's map. -/
abbrev pushFront (key val : Bytes) : Shard → Shard :=
  growValue key emptyList (changeList fun list => val :: list)

/-- A push to a list, or to no value. -/
theorem pushFront_list (h : (map.value? key).getD emptyList.value = .list others) :
    pushFront key val map = (map.orInsertWith key emptyList).setValue key
      (.list (val :: others)) := by
  exact growValue_of_some (by rw [value?_orInsertWith, h]) rfl

/-- A push to a value of another type. -/
theorem pushFront_other (h : HoldsOther key map) : pushFront key val map = map := by
  obtain ⟨value, hval, hne⟩ := h
  have hsame : map.orInsertWith key emptyList = map := by
    refine orInsertWith_eq_self fun hempty => hne [] ?_
    rw [value?_orInsertWith, hval] at hempty
    exact Option.some.inj hempty
  unfold pushFront growValue
  dsimp only
  rw [hsame, hval]
  cases value with
  | list list => exact absurd rfl (hne list)
  | _ => rfl

theorem occurrences_pushFront (val v : Bytes)
    (h : (map.value? key).getD emptyList.value = .list others) :
    (pushFront key val map).occurrences v = map.occurrences v + [val].count v := by
  have hlist : (map.orInsertWith key emptyList).value? key = some (.list others) := by
    rw [value?_orInsertWith, h]
  have hcount := occurrences_setList v (val :: others) hlist
  rw [occurrences_orInsertWith, ← List.singleton_append, List.count_append] at hcount
  rw [pushFront_list h, ← List.singleton_append]
  omega

/-- No value of another type: a list, or nothing. -/
theorem exists_list_of_not_other (h : ¬ HoldsOther key map) :
    ∃ others, (map.value? key).getD emptyList.value = .list others := by
  cases hval : map.value? key with
  | none => exact ⟨[], rfl⟩
  | some value =>
    by_contra hno
    push Not at hno
    exact h ⟨value, hval, hno⟩

end Counts

section Moves
variable {env : Env} {ctx : Ctx} {db db' : Memory} {source destination key val v : Bytes}
  {rest : List Bytes}

/-- The last element of the list at the source becomes the first of the list at
the destination, which is created if absent; all else stays. -/
structure Moved (env : Env) (source destination val : Bytes) (db db' : Memory) : Prop where
  others : TouchesOnly env [source, destination] db db'
  moved : ∃ list, stored env db source = some (.list (list ++ [val])) ∧
    if source = destination then stored env db' source = some (.list (val :: list))
    else stored env db' source = some (.list list) ∧ ∃ others,
      (stored env db destination).getD (.list []) = .list others ∧
      stored env db' destination = some (.list (val :: others))

/-- `RPOPLPUSH` moves an element and replies with it, or changes and logs nothing;
and no value is lost or duplicated. -/
def AllOrNothing (env : Env) (ctx : Ctx) (source destination : Bytes) (db : Memory) : Prop :=
  ∃ a db' logs, (handle env ctx (.rPopLPush source destination)).run db = some (a, db', logs) ∧
    ((∃ val, a = .reply (writeBulk val) ∧ Moved env source destination val db db') ∨
      db' = db ∧ logs = []) ∧
    ∀ v, occurrences v db' = occurrences v db

theorem popBack_eq_some {list : List Bytes} :
    popBack list = some (val, rest) ↔ list = rest ++ [val] := by
  unfold popBack
  constructor
  · intro h
    obtain ⟨last, hlast, heq⟩ := Option.map_eq_some_iff.mp h
    obtain ⟨rfl, rfl⟩ := Prod.mk.inj heq
    exact (List.dropLast_append_getLast? last hlast).symm
  · rintro rfl
    simp

theorem lastOf_eq_some : lastOf env source db = some (val, rest) ↔
    stored env db source = some (.list (rest ++ [val])) := by
  unfold lastOf
  constructor
  · intro h
    split at h
    · rename_i list hlist
      rw [← popBack_eq_some.mp h]
      exact hlist
    · cases h
  · intro h
    rw [stored] at h
    rw [h]
    exact popBack_eq_some.mpr rfl

theorem stored_onShard (f : Shard → Shard) :
    stored env (onShard env key f db) key = (f (db (calculateShardIndex env key))).value? key := by
  rw [stored, onShard, Function.update_self]

theorem stored_setValue {before : DataType} (after : DataType)
    (h : stored env db key = some before) :
    stored env (onShard env key (·.setValue key after) db) key = some after := by
  rw [stored_onShard]
  exact value?_setValue h

theorem stored_pushFront {others : List Bytes}
    (h : (stored env db key).getD (.list []) = .list others) :
    stored env (onShard env key (pushFront key val) db) key = some (.list (val :: others)) := by
  rw [stored_onShard, pushFront_list h]
  exact value?_setValue value?_orInsertWith

theorem TouchesOnly.stored {keys : List Bytes} (h : TouchesOnly env keys db db')
    (hkey : key ∉ keys) :
    stored env db' key = TitanKv.stored env db key := by
  rw [stored_eq, stored_eq, h.entryAt hkey]

/-- The pop and the push of an element that the destination takes. -/
theorem moved_of_list {others : List Bytes}
    (hlast : stored env db source = some (.list (rest ++ [val])))
    (hdest : source ≠ destination → (stored env db destination).getD (.list []) = .list others) :
    Moved env source destination val db
      (onShard env destination (pushFront destination val)
        (onShard env source (·.setValue source (.list rest)) db)) := by
  have hpop : TouchesOnly env [source] db
      (onShard env source (·.setValue source (.list rest)) db) :=
    .onShard fun _ _ hne => Shard.lookup_setValue_of_ne hne
  have hpopped := stored_setValue (.list rest) hlast
  generalize onShard env source (·.setValue source (.list rest)) db = db₁ at hpop hpopped
  have hpush : TouchesOnly env [destination] db₁
      (onShard env destination (pushFront destination val) db₁) :=
    .onShard fun map _ hne => growValue_lookup_of_ne map hne
  refine ⟨(hpop.mono (by simp)).trans (hpush.mono (by simp)), rest, hlast, ?_⟩
  split
  · rename_i hsame
    subst hsame
    exact stored_pushFront (by rw [hpopped]; rfl)
  · rename_i hne
    have hkept : stored env db₁ destination = stored env db destination :=
      hpop.stored (by simpa using Ne.symm hne)
    exact ⟨(hpush.stored (by simpa using hne)).trans hpopped, others, hdest hne,
      stored_pushFront (by rw [hkept]; exact hdest hne)⟩

theorem occurrences_pop (v : Bytes) (hlast : stored env db source = some (.list (rest ++ [val]))) :
    occurrences v (onShard env source (·.setValue source (.list rest)) db) + [val].count v =
      occurrences v db := by
  have hshard := occurrences_setList v rest hlast
  have htotal := occurrences_onShard v env source (·.setValue source (.list rest)) db
  rw [List.count_append] at hshard
  omega

theorem occurrences_push {others : List Bytes}
    (h : (stored env db key).getD (.list []) = .list others) :
    occurrences v (onShard env key (pushFront key val) db) = occurrences v db + [val].count v := by
  have hshard := occurrences_pushFront val v h
  have htotal := occurrences_onShard v env key (pushFront key val) db
  omega

/-- The pop leaves the destination what it holds, or is one of its own elements. -/
theorem stored_destination_popped (destination : Bytes)
    (hlast : stored env db source = some (.list (rest ++ [val]))) :
    stored env (onShard env source (·.setValue source (.list rest)) db) destination =
      if source = destination then some (.list rest) else stored env db destination := by
  split
  · rename_i hsame
    subst hsame
    exact stored_setValue _ hlast
  · rename_i hne
    have hpop : TouchesOnly env [source] db
        (onShard env source (·.setValue source (.list rest)) db) :=
      .onShard fun _ _ hk => Shard.lookup_setValue_of_ne hk
    exact hpop.stored (by simpa using Ne.symm hne)

/-- Exactly when `RPOPLPUSH` moves an element or changes nothing: unless there is
an element to move and the destination holds a value of another type. -/
theorem rPopLPush_all_or_nothing_iff : AllOrNothing env ctx source destination db ↔
    ((∃ list, stored env db source = some (.list list) ∧ list ≠ []) →
      ¬ HoldsOther destination (db (calculateShardIndex env destination))) := by
  unfold AllOrNothing
  rw [handle, handleRPopLPush_run]
  cases hlast : lastOf env source db with
  | none =>
    refine iff_of_true ⟨_, _, _, rfl, Or.inr ⟨rfl, rfl⟩, fun _ => rfl⟩ ?_
    rintro ⟨list, hlist, hne⟩
    obtain ⟨rest, val, rfl⟩ := (List.eq_nil_or_concat' list).resolve_left hne
    rw [lastOf_eq_some.mpr hlist] at hlast
    cases hlast
  | some popped =>
    obtain ⟨val, rest⟩ := popped
    have hlist := lastOf_eq_some.mp hlast
    have hpopped := stored_destination_popped destination hlist
    have hcount := fun v => occurrences_pop v hlist
    constructor
    · rintro ⟨a, db', logs, hrun, -, hsame⟩ - ⟨value, hval, hne⟩
      have hdiffers : source ≠ destination := by
        rintro rfl
        exact hne _ (Option.some.inj (hval.symm.trans hlist))
      rw [if_neg hdiffers] at hpopped
      obtain ⟨-, rfl, -⟩ := by simpa using hrun
      have hrefused : occurrences val (onShard env destination (pushFront destination val)
          (onShard env source (·.setValue source (.list rest)) db)) =
          occurrences val (onShard env source (·.setValue source (.list rest)) db) := by
        have htotal := occurrences_onShard val env destination (pushFront destination val)
          (onShard env source (·.setValue source (.list rest)) db)
        rw [pushFront_other ⟨value, hpopped.trans hval, hne⟩] at htotal
        omega
      have hpop := hcount val
      have hkept := hsame val
      rw [hrefused] at hkept
      rw [hkept, List.count_singleton_self] at hpop
      omega
    · intro hdest
      obtain ⟨others, hothers⟩ := exists_list_of_not_other (hdest ⟨_, hlist, by simp⟩)
      refine ⟨_, _, _, rfl, Or.inl ⟨val, rfl, moved_of_list hlist fun _ => hothers⟩, fun v => ?_⟩
      obtain ⟨others', hothers'⟩ : ∃ others',
        (stored env (onShard env source (·.setValue source (.list rest)) db)
          destination).getD (.list []) = .list others' := by
        rw [hpopped]
        split
        · exact ⟨rest, rfl⟩
        · exact ⟨others, hothers⟩
      exact (occurrences_push hothers').trans (hcount v)

/-- A list under `k`, and a string under `d`. -/
def stringDestination : Memory :=
  onShard plainEnv [100] (·.insert [100] ⟨.string [118], none⟩) (listDb [[120]])

/-- `RPOPLPUSH k d` replies with the element of `k`, and no list has it any more. -/
theorem rPopLPush_loses_element :
    ¬ ∀ (env : Env) (ctx : Ctx) (source destination : Bytes) (db : Memory),
      AllOrNothing env ctx source destination db := by
  intro h
  obtain ⟨a, db', logs, hrun, hends, -⟩ := h plainEnv plainCtx [107] [100] stringDestination
  have hruns : (handle plainEnv plainCtx (.rPopLPush [107] [100])).run stringDestination =
      some (.reply (writeBulk [120]), _, [.rPopLPush [107] [100]]) := rfl
  obtain ⟨-, -, rfl⟩ := by simpa using hruns.symm.trans hrun
  rcases hends with ⟨val, -, hmoved⟩ | ⟨-, hlogs⟩
  · obtain ⟨list, -, hlists⟩ := hmoved.moved
    rw [if_neg (by decide)] at hlists
    obtain ⟨-, others, hothers, -⟩ := hlists
    cases hothers
  · cases hlogs

end Moves

end TitanKv
