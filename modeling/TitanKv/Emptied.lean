import TitanKv.Queue
import TitanKv.Restarts

/-! # Collections that become empty

`LTRIM` removes a key whose list becomes empty. The other commands that take an
element from a list leave the key with the empty list. A run without these keeps
every collection inhabited, and then an empty collection and an absent key are
one to all commands, to the compactor and to a restart. -/

namespace TitanKv
open Utf8 Local TwoPhase Runs

namespace Keyspace

/-- No value is an empty collection. -/
def NoneEmpty (ks : Keyspace) : Prop := ks.All (fun _ => True) Value.Inhabited

/-- The command takes the only element of a list, and gives the list no other. -/
def TakesLast (ks : Keyspace) : Command → Prop
  | .lPop key | .rPop key => ∃ val, items ks key = [val]
  | .lRem key _ val => items ks key = [val]
  | .rPopLPush source destination => source ≠ destination ∧ ∃ val, items ks source = [val]
  | _ => False

section Apply
variable {ks : Keyspace} {key source destination val : Bytes} {f : List Bytes → List Bytes}

theorem noneEmpty_replace (hks : ks.NoneEmpty) {new : Option Item}
    (hnew : ∀ item, new = some item → item.value.Inhabited) :
    NoneEmpty (onKey (Item.replace new) key ks) :=
  All.onKey hks fun item hitem => ⟨trivial, hnew item hitem⟩

theorem noneEmpty_alter (hks : ks.NoneEmpty) {empty : Value} {f : Value → Option Value}
    (hempty : (f empty).isSome)
    (hf : ∀ v v', f v = some v' → v'.Inhabited) : NoneEmpty (onKey (Item.alter empty f) key ks) :=
  All.alter hks trivial (fun v v' _ hv => hf v v' hv) fun hnone => by simp [hnone] at hempty

theorem inhabited_changeList (hf : ∀ list, f list ≠ []) (v v' : Value)
    (h : Item.changeList f v = some v') :
    v'.Inhabited := by
  cases v with
  | list list =>
    obtain rfl := Option.some.inj h
    exact hf list
  | _ => cases h

theorem inhabited_insertField (field : Bytes) (v v' : Value)
    (h : Item.insertField field val v = some v') :
    v'.Inhabited := by
  cases v with
  | hash fields =>
    obtain rfl := Option.some.inj h
    exact ⟨field, by simp⟩
  | _ => cases h

theorem inhabited_insertMember (member : Bytes) (v v' : Value)
    (h : Item.insertMember member v = some v') :
    v'.Inhabited := by
  cases v with
  | set members =>
    obtain rfl := Option.some.inj h
    exact Set.insert_nonempty _ _
  | _ => cases h

/-- A change of an existing list keeps all inhabited unless it empties the list. -/
theorem noneEmpty_onList_iff (hks : ks.NoneEmpty) :
    NoneEmpty (onKey (Item.onList f) key ks) ↔ (items ks key ≠ [] → f (items ks key) ≠ []) := by
  cases hk : ks key with
  | none =>
    have hitems : items ks key = [] := by rw [items, hk]
    refine ⟨fun _ h => absurd hitems h, fun _ => All.onKey hks fun item hitem => ?_⟩
    rw [hk] at hitem
    cases hitem
  | some item =>
    obtain ⟨value, expires⟩ := item
    have hold := (hks key _ hk).2
    cases value with
    | list list =>
      have hitems : items ks key = list := by rw [items, hk]
      have hnew : onKey (Item.onList f) key ks key = some ⟨.list (f list), expires⟩ := by
        rw [onKey_self, hk]
        rfl
      rw [hitems]
      constructor
      · intro h _
        exact (h key _ hnew).2
      · intro h
        refine All.onKey hks fun item hitem => ⟨trivial, ?_⟩
        rw [hk] at hitem
        obtain rfl := Option.some.inj hitem
        exact h hold
    | _ =>
      have hitems : items ks key = [] := by rw [items, hk]
      refine ⟨fun _ h => absurd hitems h, fun _ => All.onKey hks fun item hitem => ⟨trivial, ?_⟩⟩
      rw [hk] at hitem
      obtain rfl := Option.some.inj hitem
      exact hold

/-- A push makes a list inhabited, and leaves all else alone. -/
theorem noneEmpty_pushFront
    (hrest : ∀ k item, k ≠ destination → ks k = some item → item.value.Inhabited)
    (hkey : ∀ item, ks destination = some item → item.value.Inhabited ∨ ∃ list,
      item.value = .list list) :
    NoneEmpty (onKey (Item.pushFront val) destination ks) := by
  intro k item hitem
  refine ⟨trivial, ?_⟩
  by_cases hk : k = destination
  · subst hk
    rw [onKey_self] at hitem
    obtain rfl := Option.some.inj hitem
    cases hd : ks k with
    | none => exact List.cons_ne_nil val []
    | some old =>
      obtain ⟨value, expires⟩ := old
      cases value with
      | list list => exact List.cons_ne_nil val list
      | _ => exact (hkey _ hd).resolve_right fun ⟨_, hlist⟩ => by cases hlist
  · rw [onKey_of_ne _ _ hk] at hitem
    exact hrest k item hk hitem

theorem items_of_last? (h : Item.last? (ks key) = some val) :
    ∃ list expires, ks key = some ⟨.list list, expires⟩ ∧ items ks key = list ∧
      list.getLast? = some val := by
  cases hk : ks key with
  | none =>
    rw [hk] at h
    cases h
  | some item =>
    obtain ⟨value, expires⟩ := item
    rw [hk] at h
    cases value with
    | list list => exact ⟨list, expires, rfl, by rw [items, hk], h⟩
    | _ => cases h

theorem last?_of_items (h : items ks key = [val]) : Item.last? (ks key) = some val := by
  unfold items at h
  split at h
  · rename_i list _ hk
    rw [hk, Item.last?, h]
    rfl
  · cases h

theorem dropLast_eq_nil_iff {list : List Bytes} (h : list ≠ []) :
    list.dropLast = [] ↔ ∃ val, list = [val] := by
  constructor
  · intro hnil
    have hlength : list.length - 1 = 0 := by rw [← List.length_dropLast, hnil, List.length_nil]
    have hpos := List.length_pos_of_ne_nil h
    exact List.length_eq_one_iff.mp (by omega)
  · rintro ⟨val, rfl⟩
    rfl

/-- A move keeps all inhabited unless it takes the only element of its source to
another list. -/
theorem noneEmpty_move_iff (hks : ks.NoneEmpty) :
    (move source destination ks).NoneEmpty ↔ ¬ TakesLast ks (.rPopLPush source destination) := by
  unfold move
  cases hlast : Item.last? (ks source) with
  | none =>
    refine ⟨fun _ htakes => ?_, fun _ => hks⟩
    obtain ⟨-, val, hval⟩ := htakes
    rw [last?_of_items hval] at hlast
    cases hlast
  | some val =>
    obtain ⟨list, expires, hs, hitems, hget⟩ := items_of_last? hlast
    have hlist : list ≠ [] := fun hnil => by
      rw [hnil] at hget
      cases hget
    have hpop : NoneEmpty (onKey (Item.onList List.dropLast) source ks) ↔ _ :=
      noneEmpty_onList_iff hks
    have hsource : onKey (Item.onList List.dropLast) source ks source =
        some ⟨.list list.dropLast, expires⟩ := by
      rw [onKey_self, hs]
      rfl
    dsimp only
    by_cases hne : source = destination
    · subst hne
      refine ⟨fun _ htakes => htakes.1 rfl, fun _ => noneEmpty_pushFront ?_ ?_⟩
      · intro k item hk hitem
        rw [onKey_of_ne _ _ hk] at hitem
        exact (hks k item hitem).2
      · intro item hitem
        obtain rfl := Option.some.inj (hsource.symm.trans hitem)
        exact Or.inr ⟨_, rfl⟩
    · have htakes : TakesLast ks (.rPopLPush source destination) ↔ list.dropLast = [] := by
        rw [dropLast_eq_nil_iff hlist, ← hitems]
        exact ⟨fun h => h.2, fun h => ⟨hne, h⟩⟩
      rw [htakes]
      constructor
      · intro h
        have hkept : onKey (Item.pushFront val) destination
            (onKey (Item.onList List.dropLast) source ks) source =
            some ⟨.list list.dropLast, expires⟩ := by
          rw [onKey_of_ne _ _ hne, hsource]
        exact (h source _ hkept).2
      · intro h
        have hpopped := hpop.mpr fun _ => hitems ▸ h
        exact noneEmpty_pushFront (fun k item _ hitem => (hpopped k item hitem).2)
          fun item hitem => Or.inl (hpopped _ item hitem).2

theorem erase_eq_nil_iff {list : List Bytes} (h : list ≠ []) :
    list.erase val = [] ↔ list = [val] := by
  constructor
  · intro hnil
    cases list with
    | nil => exact absurd rfl h
    | cons x rest =>
      rw [List.erase_cons] at hnil
      split at hnil
      · rename_i hx
        rw [hnil, beq_iff_eq.mp hx]
      · cases hnil
  · intro heq
    rw [heq, List.erase_cons_head]

theorem tail_eq_nil_iff {list : List Bytes} (h : list ≠ []) :
    list.tail = [] ↔ ∃ val, list = [val] := by
  cases list with
  | nil => exact absurd rfl h
  | cons x rest => simp

/-- A change of an existing list that empties it exactly where `P` holds. -/
theorem noneEmpty_takes_iff {P : Prop} (hks : ks.NoneEmpty)
    (hf : items ks key ≠ [] → (f (items ks key) = [] ↔ P))
    (hP : P → items ks key ≠ []) : NoneEmpty (onKey (Item.onList f) key ks) ↔ ¬ P := by
  rw [noneEmpty_onList_iff hks]
  constructor
  · intro h p
    exact h (hP p) ((hf (hP p)).mpr p)
  · intro h hne hnil
    exact h ((hf hne).mp hnil)

/-- What a command makes of a keyspace without empty collections. -/
theorem noneEmpty_apply_iff (hks : ks.NoneEmpty) (c : Command) :
    (apply c ks).NoneEmpty ↔ ¬ TakesLast ks c := by
  have hsingle : ∀ {key : Bytes}, (∃ val, items ks key = [val]) → items ks key ≠ [] := by
    intro key hval
    obtain ⟨val, hval⟩ := hval
    rw [hval]
    exact List.cons_ne_nil _ _
  have hkeeps : ∀ {P : Prop}, P → (P ↔ ¬ False) := fun p => ⟨fun _ => id, fun _ => p⟩
  cases c with
  | lPop key => exact noneEmpty_takes_iff hks tail_eq_nil_iff hsingle
  | rPop key => exact noneEmpty_takes_iff hks dropLast_eq_nil_iff hsingle
  | lRem key count val => exact noneEmpty_takes_iff hks erase_eq_nil_iff fun h => hsingle ⟨val, h⟩
  | rPopLPush source destination => exact noneEmpty_move_iff hks
  | set key val =>
    exact hkeeps (noneEmpty_replace hks fun item hitem =>
      by obtain rfl := Option.some.inj hitem; trivial)
  | setEx key seconds val =>
    exact hkeeps (noneEmpty_replace hks fun item hitem =>
      by obtain rfl := Option.some.inj hitem; trivial)
  | del key => exact hkeeps (noneEmpty_replace hks fun item hitem => by cases hitem)
  | incr key =>
    exact hkeeps (All.onKey hks fun item hitem =>
      by obtain rfl := Option.some.inj hitem; exact ⟨trivial, trivial⟩)
  | lPush key val =>
    exact hkeeps
      (noneEmpty_alter hks rfl (inhabited_changeList fun list => List.cons_ne_nil val list))
  | rPush key val =>
    exact hkeeps (noneEmpty_alter hks rfl (inhabited_changeList fun list => by simp))
  | hSet key field val => exact hkeeps (noneEmpty_alter hks rfl (inhabited_insertField field))
  | sAdd key member => exact hkeeps (noneEmpty_alter hks rfl (inhabited_insertMember member))
  | _ => exact hkeeps hks

/-- `LTRIM` removes the key with its last element. -/
theorem noneEmpty_trimTo {rest : List Bytes} (hks : ks.NoneEmpty) :
    NoneEmpty (onKey (Item.trimTo rest) key ks) := by
  by_cases hrest : rest = []
  · subst hrest
    refine All.onKey hks fun item hitem => ?_
    rw [trimTo_nil] at hitem
    cases hitem
  · rw [trimTo_of_ne hrest]
    exact (noneEmpty_onList_iff hks).mpr fun _ => hrest

end Apply

end Keyspace

/-- A list, hash or set without elements. -/
def DataType.isEmpty : DataType → Bool
  | .string _ => false
  | .list vals => vals.isEmpty
  | .hash hmap => hmap.entries.isEmpty
  | .set members => members.entries.isEmpty

/-- No key holds an empty list, hash or set. -/
def NoEmpty (db : Memory) : Prop :=
  ∀ i key entry, (db i).lookup key = some entry → entry.value.isEmpty = false

section Stored
variable {env : Env} {db : Memory}

theorem mem_iff_entries {β : Type} {map : AList fun _ : Bytes => β} :
    (∃ k, k ∈ map) ↔ map.entries.isEmpty = false := by
  constructor
  · intro h
    obtain ⟨k, hk⟩ := h
    cases hentries : map.entries with
    | nil => exact absurd hk (by rw [AList.mem_keys, AList.keys, hentries]; exact List.not_mem_nil)
    | cons e es => rfl
  · intro h
    cases hentries : map.entries with
    | nil => rw [hentries] at h; cases h
    | cons e es =>
      refine ⟨e.1, ?_⟩
      rw [AList.mem_keys, AList.keys, hentries]
      exact List.mem_cons_self

theorem inhabited_toValue {value : DataType} : value.toValue.Inhabited ↔ value.isEmpty = false := by
  cases value with
  | string val => exact ⟨fun _ => rfl, fun _ => trivial⟩
  | list vals =>
    cases vals with
    | nil => exact ⟨fun h => absurd rfl h, fun h => by cases h⟩
    | cons x xs => exact ⟨fun _ => rfl, fun _ => List.cons_ne_nil x xs⟩
  | hash hmap =>
    rw [DataType.isEmpty, ← mem_iff_entries]
    exact exists_congr fun f => AList.lookup_isSome
  | set members =>
    rw [DataType.isEmpty, ← mem_iff_entries]
    rfl

theorem noEmpty_iff (h : Routed env db) : NoEmpty db ↔ (view env db).NoneEmpty := by
  constructor
  · intro hdb key item hitem
    obtain ⟨entry, hl, rfl⟩ := Option.map_eq_some_iff.mp hitem
    exact ⟨trivial, inhabited_toValue.mpr (hdb _ key entry hl)⟩
  · intro hks i key entry hl
    obtain rfl := h i key (AList.lookup_isSome.mp (by simp [hl]))
    have hitem : view env db key = some entry.item := by simp [view, Shard.items, hl]
    exact inhabited_toValue.mp (hks key _ hitem).2

end Stored

section Steps
variable {env : Env} {ctx : Ctx} {db db' : Memory} {command : Command} {a : Outcome}
  {logs : List Command}
open Keyspace

theorem logs_cases (hrun : (handle env ctx command).run db = some (a, db', logs)) :
    logs = [] ∨ logs = [command.entry] := by
  by_cases hreads : command.reads
  · exact Or.inl (run_of_reads env ctx hreads hrun).2
  · have hentry := handle_logs hrun
    cases handle_ended env ctx hreads hrun with
    | kept _ _ => exact Or.inl rfl
    | silent _ => exact Or.inl rfl
    | panic _ => exact Or.inl rfl
    | @logged _ _ c _ _ => exact Or.inr (by rw [(hentry c List.mem_cons_self).1])

theorem takesLast_entry {ks : Keyspace} : TakesLast ks command.entry ↔ TakesLast ks command := by
  cases command <;> rfl

theorem stored_of_items {key val : Bytes} (h : items (view env db) key = [val]) :
    (db (calculateShardIndex env key)).value? key = some (.list [val]) := by
  unfold items at h
  split at h
  · rename_i list expires hview
    rw [← h]
    exact stored_of_view env hview
  · cases h

/-- A command that takes the only element of a list logs it. -/
theorem takesLast_logs (h : TakesLast (view env db) command)
    (hrun : (handle env ctx command).run db = some (a, db', logs)) : logs = [command.entry] := by
  cases command with
  | lPop key =>
    obtain ⟨val, hval⟩ := h
    rw [handle, (handleLPop_writes env key).run_eq, handleLPop, runCell_withWrite] at hrun
    simp [stored_of_items hval] at hrun
    exact hrun.2.2.symm
  | rPop key =>
    obtain ⟨val, hval⟩ := h
    rw [handle, (handleRPop_writes env key).run_eq, handleRPop, runCell_withWrite] at hrun
    simp [stored_of_items hval, popBack] at hrun
    exact hrun.2.2.symm
  | lRem key count val =>
    rw [handle, (handleLRem_writes env key val).run_eq, handleLRem, runCell_withWrite] at hrun
    simp [stored_of_items h] at hrun
    exact hrun.2.2.symm
  | rPopLPush source destination =>
    obtain ⟨-, val, hval⟩ := h
    have hlast : lastOf env source db = some (val, []) := by
      rw [lastOf, stored_of_items hval]
      rfl
    rw [handle, handleRPopLPush_run, hlast] at hrun
    obtain ⟨-, -, rfl⟩ := by simpa using hrun
    rfl
  | _ => exact h.elim

/-- What a request makes of a database without empty collections. -/
theorem noEmpty_handle_iff (hrouted : Routed env db) (h : NoEmpty db)
    (hrun : (handle env ctx command).run db = some (a, db', logs)) :
    NoEmpty db' ↔ ¬ TakesLast (view env db) command := by
  have hks := (noEmpty_iff hrouted).mp h
  rw [noEmpty_iff (handle_routed env ctx hrouted hrun)]
  obtain hview | ⟨key, start, stop, list, rest, rfl, -, -, hview⟩ := handle_view ctx hrun
  · rw [hview]
    rcases logs_cases hrun with rfl | rfl
    · refine ⟨fun _ htakes => ?_, fun _ => hks⟩
      cases takesLast_logs htakes hrun
    · rw [← takesLast_entry]
      exact noneEmpty_apply_iff hks command.entry
  · rw [hview]
    exact ⟨fun _ => id, fun _ => noneEmpty_trimTo hks⟩

end Steps

section Absence
variable {env : Env} {db : Memory} {key : Bytes}

/-- The key holds a value that is no empty collection. -/
def HoldsElements (env : Env) (db : Memory) (key : Bytes) : Prop :=
  ∃ value, stored env db key = some value ∧ value.isEmpty = false

/-- What the commands make of a key that is not there. -/
structure TreatedAsAbsent (env : Env) (ctx : Ctx) (db : Memory) (key : Bytes) : Prop where
  notExists : (handle env ctx (.exists key)).run db = some (.reply (lit ":0\r\n"), db, [])
  noType : (handle env ctx (.type key)).run db = some (.reply (lit "+none\r\n"), db, [])
  notCounted : key ∉ allKeys db ∧
    (handle env ctx .dbSize).run db = some (.reply (integerReply (allKeys db).length), db, [])
  newHash : ∀ field val, ∃ db', (handle env ctx (.hSet key field val)).run db =
    some (.reply okReply, db', [.hSet key field val]) ∧
      stored env db' key = some (.hash (AList.insert field val ∅))
  newSet : ∀ member, ∃ db', (handle env ctx (.sAdd key member)).run db =
    some (.reply (integerReply 1), db', [.sAdd key member]) ∧
      stored env db' key = some (.set (AList.insert member () ∅))
  newNumber : ∃ db', (handle env ctx (.incr key)).run db =
    some (.reply (integerReply 1), db', [.incr key]) ∧
    stored env db' key = some (.string (decimal 1))

theorem entryAt_of_noEmpty (h : NoEmpty db) (hkey : ¬ HoldsElements env db key) :
    entryAt env db key = none := by
  cases hl : entryAt env db key with
  | none => rfl
  | some entry => exact absurd ⟨entry.value, stored_of_entryAt hl rfl, h _ key entry hl⟩ hkey

theorem value?_insert {map : Shard} (entry : Entry) :
    Shard.value? (map.insert key entry) key = some entry.value := by
  simp [Shard.value?]

theorem orInsertWith_absent {map : Shard} (h : map.lookup key = none) (entry : Entry) :
    map.orInsertWith key entry = map.insert key entry := by
  rw [Shard.orInsertWith, if_neg (AList.lookup_eq_none.mp h)]

theorem stored_update {map : Shard} {value : DataType} (h : map.value? key = some value) :
    stored env (Function.update db (calculateShardIndex env key) map) key = some value := by
  rw [stored, Function.update_self, h]

theorem treatedAsAbsent (ctx : Ctx) (hrouted : Routed env db) (h : entryAt env db key = none) :
    TreatedAsAbsent env ctx db key := by
  have hl : (db (calculateShardIndex env key)).lookup key = none := h
  refine ⟨?_, ?_, ⟨?_, ?_⟩, ?_, ?_, ?_⟩
  · rw [handle, handleExists, run_withEntry, hl]
  · rw [handle, handleType, run_withEntry, hl]
  · intro hin
    obtain ⟨i, -, hi⟩ := List.mem_flatMap.mp hin
    obtain rfl := hrouted i key (AList.mem_keys.mpr hi)
    exact AList.lookup_eq_none.mp hl (AList.mem_keys.mpr hi)
  · rw [handle, handleDbSize, Prog.run_bind, run_totalKeys]
    rfl
  · intro field val
    rw [handle, (handleHSet_writes env key field val).run_eq, handleHSet, runCell_withWrite]
    simp only [Prog.pure_eq, Prog.modify_bind, Prog.get_bind, runCell_update, runCell_read,
      orInsertWith_absent hl, value?_insert]
    exact ⟨_, rfl, stored_update (value?_setValue (value?_insert emptyHash))⟩
  · intro member
    rw [handle, (handleSAdd_writes env key member).run_eq, handleSAdd, runCell_withWrite]
    simp only [Prog.pure_eq, Prog.modify_bind, Prog.get_bind, runCell_update, runCell_read,
      orInsertWith_absent hl, value?_insert]
    exact ⟨_, rfl, stored_update (value?_setValue (value?_insert emptySet))⟩
  · have hvalue : (db (calculateShardIndex env key)).value? key = none := by
      rw [Shard.value?, hl]
      rfl
    rw [handle, (handleIncr_writes env key).run_eq, handleIncr, runCell_withWrite]
    simp only [Prog.pure_eq, Prog.modify_bind, Prog.get_bind, runCell_read, hvalue]
    exact ⟨_, rfl, stored_update (value?_insert _)⟩

end Absence

section Runs
variable {env : Env} {db : Memory} {requests : List Request}

/-- The request does not take the only element of a list away. -/
def KeepsLast (env : Env) (db : Memory) (request : Request) : Prop :=
  ¬ Keyspace.TakesLast (view env db) request.command

theorem view_of_live {now : Bytes → SystemTime} {key : Bytes} {item : Item}
    (h : live now env db key = some item) :
    view env db key = some item := by
  obtain ⟨entry, hl, hlive⟩ := Option.bind_eq_some_iff.mp h
  have hitem : entry.item = item := by
    unfold Entry.liveItem at hlive
    split at hlive
    · split at hlive
      · exact Option.some.inj hlive
      · cases hlive
    · exact Option.some.inj hlive
  rw [view, Shard.items, hl, Option.map_some, hitem]

/-- Without empty collections, compaction and a restart keep what is live. -/
theorem compaction_keeps (hsound : Sound env db) (h : NoEmpty db) {now : Bytes → SystemTime}
    {clock : Nat → SystemTime} {R : Memory} (hnow : ∀ key, SystemTime.unixEpoch ≤ now key)
    (hwords : (view env db).All Arg.Bare (Value.Holds Arg.Bare Arg.Quotable))
    (hR : replayAof env clock (encode (compactText now db)) = some R) :
    view env R = live now env db := by
  have hks := (noEmpty_iff hsound.routed).mp h
  refine round_trip_of_clean ⟨db, hsound.routed⟩ hsound.strings hnow hR fun key item hitem => ?_
  have hview := view_of_live hitem
  exact ⟨(hwords key item hview).1, (hwords key item hview).2, (hks key item hview).2⟩

/-- No run of client commands leaves an empty collection in any of its states
exactly where no step takes the only element of a list. In such a run every key
without elements is absent to all commands, and compaction and a restart keep the
set of live keys, if keys, fields and values are such as the file can hold. -/
theorem no_empty_iff (hrun : run (requestStep env) newDb requests = some db) :
    ((∀ earlier, earlier <+: requests → ∀ t, run (requestStep env) newDb earlier = some t →
      NoEmpty t) ↔
      AllOk (requestStep env) (KeepsLast env) newDb requests) ∧
    (AllOk (requestStep env) (KeepsLast env) newDb requests →
      (∀ ctx key, ¬ HoldsElements env db key → TreatedAsAbsent env ctx db key) ∧
      ∀ now clock R, (∀ key, SystemTime.unixEpoch ≤ now key) →
        (view env db).All Arg.Bare (Value.Holds Arg.Bare Arg.Quotable) →
        replayAof env clock (encode (compactText now db)) = some R →
          ∀ key, (view env R key).isSome = (live now env db key).isSome) := by
  have hempty : NoEmpty newDb := fun _ _ _ hl => by cases hl
  have hstep : ∀ t request t', Sound env t → NoEmpty t → requestStep env t request = some t' →
      (NoEmpty t' ↔ KeepsLast env t request) := by
    intro t request t' hs h he
    obtain ⟨a, logs, hrequest⟩ := requestStep_some he
    exact noEmpty_handle_iff hs.routed h hrequest
  have hiff := allOk_iff (fun _ _ _ hs he => hs.requestStep he) hstep sound_newDb hempty hrun
  refine ⟨hiff, fun hok => ?_⟩
  have hsound : Sound env db :=
    (Reachable.run .init requests hrun).inv sound_newDb fun _ _ _ hs _ he => hs.requestStep he
  have hnone : NoEmpty db := hiff.mpr hok requests List.prefix_rfl db hrun
  refine ⟨fun ctx key hkey => ?_, fun now clock R hnow hwords hR key => ?_⟩
  · exact treatedAsAbsent ctx hsound.routed (entryAt_of_noEmpty hnone hkey)
  · rw [compaction_keeps hsound hnone hnow hwords hR]

/-- A list that is popped, and then trimmed to nothing. -/
def popTrim : List Request :=
  [⟨plainCtx, .rPush [107] [97]⟩, ⟨plainCtx, .rPush [107] [98]⟩, ⟨plainCtx, .lPop [107]⟩,
  ⟨plainCtx, .lTrim [107] 5 6⟩]

theorem no_empty_iff_popTrim : ∃ db, run (requestStep plainEnv) newDb popTrim = some db ∧
    TreatedAsAbsent plainEnv plainCtx db [107] := by
  obtain ⟨db, hrun, hnone⟩ : ∃ db, run (requestStep plainEnv) newDb popTrim = some db ∧
      stored plainEnv db [107] = none := ⟨_, rfl, rfl⟩
  have hok : AllOk (requestStep plainEnv) (KeepsLast plainEnv) newDb popTrim := by
    refine ⟨id,
      fun _ h₁ => ⟨id, fun _ h₂ => ⟨fun htakes => ?_, fun _ _ => ⟨id, fun _ _ => trivial⟩⟩⟩⟩
    obtain rfl := Option.some.inj h₁
    obtain rfl := Option.some.inj h₂
    obtain ⟨val, hval⟩ := htakes
    have htwo : 2 = 1 := congrArg List.length hval
    cases htwo
  refine ⟨db, hrun, ((no_empty_iff hrun).2 hok).1 plainCtx [107] fun hholds => ?_⟩
  obtain ⟨value, hvalue, -⟩ := hholds
  rw [hnone] at hvalue
  cases hvalue

/-- `LPOP` of the only element leaves the empty list. -/
theorem lPop_leaves_empty :
    ¬ ∀ (env : Env) (requests : List Request) (db : Memory), run (requestStep env) newDb requests =
      some db →
      NoEmpty db := by
  intro h
  obtain ⟨db, hrun, entry, hl, hempty⟩ : ∃ db,
      run (requestStep plainEnv) newDb [⟨plainCtx, .rPush [107] [97]⟩, ⟨plainCtx, .lPop [107]⟩] =
        some db ∧
      ∃ entry, (db (calculateShardIndex plainEnv [107])).lookup [107] = some entry ∧
        entry.value.isEmpty = true :=
    ⟨_, rfl, _, rfl, rfl⟩
  rw [h plainEnv _ db hrun _ _ entry hl] at hempty
  cases hempty

end Runs

end TitanKv
