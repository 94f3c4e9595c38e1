import TitanKv.Routing
import TitanKv.Trim

/-! # Runs with restarts

The server over several lives: the steps of one life, and restarts, which replay
the file that has the log's name and start the tasks anew. In every state of such
a run each key is in its shard, and only strings carry deadlines. -/

namespace TitanKv
open Utf8 Local TwoPhase Runs

inductive LifeEvent where
  | step (e : Event)
  | restart (clock : Nat → SystemTime)

namespace System

/-- The text of `database.aof`. -/
def logText (s : System) : Text :=
  match s.fs.dir .aof with
  | some i => (s.fs.content i).text
  | none => []

/-- The temporary file, if there is one. -/
def tempFile (s : System) : Option File := (s.fs.dir .temp).map s.fs.content

/-- A new process after replay. -/
def restarted (s : System) (db : Memory) : System := start db ⟨s.logText, []⟩ s.tempFile

end System

/-- A restart takes place if its replay does not panic. -/
def lifeStep (env : Env) (s : System) : LifeEvent → Option System
  | .step e => step env s e
  | .restart clock => (replayAof env clock (encode s.logText)).map s.restarted

/-- The first start, without files. -/
def System.fresh : System := .start newDb ⟨[], []⟩ none

section Inversion
variable {env : Env} {s s' : System} {e : LifeEvent}

/-- A request's step leaves the database that its run ends in. -/
theorem step_command_db {request : Request} (he : step env s (.command request) = some s') :
    ∃ a logs, (request.handle env).run s.db = some (a, s'.db, logs) := by
  obtain ⟨t, ht, rfl⟩ := step_some he
  obtain ⟨a, db, logs, hrun, ⟨-, rfl⟩ | ⟨-, rfl⟩⟩ := stepCommand_some ht
  · exact ⟨a, logs, hrun⟩
  · exact ⟨a, logs, hrun⟩

/-- What a step of a life does to the database. -/
theorem lifeStep_db (he : lifeStep env s e = some s') :
    (∃ request a logs, e = .step (.command request) ∧ (request.handle env).run s.db =
      some (a, s'.db, logs)) ∨
    (∃ now swept keys, ∃ hlt : swept < shardCount, e = .step .sweepShard ∧
      s.sweeper = .sweeping now swept keys ∧
      s'.db = Function.update s.db ⟨swept, hlt⟩
        (removeKeys (expiredKeys now (s.db ⟨swept, hlt⟩)) (s.db ⟨swept, hlt⟩))) ∨
    (∃ clock, e = .restart clock ∧ replayAof env clock (encode s.logText) = some s'.db) ∨
    s'.db = s.db := by
  cases e with
  | step e =>
    obtain ⟨request, a, logs, rfl, hrun⟩ | ⟨now, swept, keys, hlt, rfl, hsweeper, hdb⟩ | hdb :=
      step_db he
    · exact Or.inl ⟨request, a, logs, rfl, hrun⟩
    · exact Or.inr (Or.inl ⟨now, swept, keys, hlt, rfl, hsweeper, hdb⟩)
    · exact Or.inr (Or.inr (Or.inr hdb))
  | restart clock =>
    obtain ⟨db, hreplay, rfl⟩ := Option.map_eq_some_iff.mp he
    exact Or.inr (Or.inr (Or.inl ⟨clock, rfl, hreplay⟩))

end Inversion

section Strings
variable {env : Env} {db db' : Memory} {ks : Keyspace} {c : Command} {commands : List Command}

/-- Only strings carry deadlines, as the keyspace sees it. -/
def Item.OnlyStringExpires (item : Item) : Prop :=
  item.expires = true → ∃ val, item.value = .string val

def Keyspace.OnlyStringsExpire (ks : Keyspace) : Prop :=
  ∀ key item, ks key = some item → item.OnlyStringExpires

theorem onlyStrings_onKey {f : Option Item → Option Item} {key : Bytes} (h : ks.OnlyStringsExpire)
    (hf : ∀ item, f (ks key) = some item → item.OnlyStringExpires) :
    Keyspace.OnlyStringsExpire (onKey f key ks) :=
  onKey_all (P := fun _ (o : Option Item) => ∀ item, o = some item → item.OnlyStringExpires) h hf

/-- A collection command leaves a string as it is. -/
theorem onlyStrings_alter {empty : Value} {f : Value → Option Value} {key : Bytes}
    (h : ks.OnlyStringsExpire)
    (hf : ∀ val, f (.string val) = none) :
    Keyspace.OnlyStringsExpire (onKey (Item.alter empty f) key ks) := by
  refine onlyStrings_onKey h fun item hitem => ?_
  obtain rfl := Option.some.inj hitem
  intro hexpires
  cases hk : ks key with
  | none =>
    rw [hk] at hexpires
    cases hexpires
  | some old =>
    rw [hk] at hexpires
    obtain ⟨val, hval⟩ := h key old hk hexpires
    refine ⟨val, ?_⟩
    simp only [Option.getD_some, hval, hf, Option.getD_none]

theorem onlyStrings_onList {f : List Bytes → List Bytes} {key : Bytes} (h : ks.OnlyStringsExpire) :
    Keyspace.OnlyStringsExpire (onKey (Item.onList f) key ks) := by
  refine onlyStrings_onKey h fun item hitem => ?_
  cases hk : ks key with
  | none =>
    rw [hk] at hitem
    cases hitem
  | some old =>
    obtain ⟨value, expires⟩ := old
    have hold := h key _ hk
    rw [hk] at hitem
    cases value with
    | list vals =>
      obtain rfl := Option.some.inj hitem
      intro hexpires
      obtain ⟨val, hval⟩ := hold hexpires
      cases hval
    | _ =>
      obtain rfl := Option.some.inj hitem
      exact hold

theorem onlyStrings_apply (h : ks.OnlyStringsExpire) (c : Command) :
    (Keyspace.apply c ks).OnlyStringsExpire := by
  cases c with
  | set key value =>
    refine onlyStrings_onKey h fun item hitem => ?_
    obtain rfl := Option.some.inj hitem
    exact fun _ => ⟨value, rfl⟩
  | setEx key seconds value =>
    refine onlyStrings_onKey h fun item hitem => ?_
    obtain rfl := Option.some.inj hitem
    exact fun _ => ⟨value, rfl⟩
  | del key => exact onlyStrings_onKey h fun item hitem => by cases hitem
  | incr key =>
    refine onlyStrings_onKey h fun item hitem => ?_
    obtain rfl := Option.some.inj hitem
    exact fun _ => ⟨_, rfl⟩
  | lPush key value => exact onlyStrings_alter h fun _ => rfl
  | rPush key value => exact onlyStrings_alter h fun _ => rfl
  | hSet key field value => exact onlyStrings_alter h fun _ => rfl
  | sAdd key member => exact onlyStrings_alter h fun _ => rfl
  | lPop key => exact onlyStrings_onList h
  | rPop key => exact onlyStrings_onList h
  | lRem key count value => exact onlyStrings_onList h
  | rPopLPush source destination =>
    show (Keyspace.move source destination ks).OnlyStringsExpire
    unfold Keyspace.move
    cases Item.last? (ks source) with
    | none => exact h
    | some val => exact onlyStrings_alter (onlyStrings_onList h) fun _ => rfl
  | _ => exact h

theorem onlyStrings_applyAll (h : ks.OnlyStringsExpire) :
    (Keyspace.applyAll commands ks).OnlyStringsExpire := by
  induction commands generalizing ks with
  | nil => exact h
  | cons c commands ih => exact ih (onlyStrings_apply h c)

theorem onlyStrings_trimTo {rest : List Bytes} {key : Bytes} (h : ks.OnlyStringsExpire) :
    Keyspace.OnlyStringsExpire (onKey (Item.trimTo rest) key ks) := by
  by_cases hrest : rest = []
  · subst hrest
    refine onlyStrings_onKey h fun item hitem => ?_
    rw [trimTo_nil] at hitem
    cases hitem
  · rw [trimTo_of_ne hrest]
    exact onlyStrings_onList h

/-- What a command does to the keyspace: what its log does, or it trims a list. -/
theorem handle_view (ctx : Ctx) {a : Outcome} {logs : List Command}
    (hrun : (handle env ctx c).run db = some (a, db', logs)) :
    view env db' = Keyspace.applyAll logs (view env db) ∨
      ∃ key start stop list rest, c = .lTrim key start stop ∧
        stored env db key = some (.list list) ∧
        trimmed list start stop = some rest ∧
          view env db' = onKey (Item.trimTo rest) key (view env db) := by
  by_cases htrim : ∀ key start stop, c ≠ .lTrim key start stop
  · obtain ⟨a₁, db₁, logs₁, hrun₁, hview⟩ := handle_agrees env ctx htrim db
    rw [hrun] at hrun₁
    obtain ⟨-, rfl, rfl⟩ := by simpa using hrun₁
    exact Or.inl hview
  · push Not at htrim
    obtain ⟨key, start, stop, rfl⟩ := htrim
    rcases run_lTrim env hrun with ⟨-, rfl, rfl⟩ | ⟨list, rest, hlist, hrest, hview, -⟩
    · exact Or.inl rfl
    · exact Or.inr ⟨key, start, stop, list, rest, rfl, hlist, hrest, hview⟩

theorem toValue_eq_string {value : DataType} {val : Bytes} (h : value.toValue = .string val) :
    value = .string val := by
  cases value with
  | string other =>
    obtain rfl := Value.string.inj h
    rfl
  | _ => cases h

/-- On keys in their shards, the entries and the keyspace say the same. -/
theorem onlyStringsExpire_iff (h : Routed env db) :
    OnlyStringsExpire db ↔ (view env db).OnlyStringsExpire := by
  constructor
  · intro hdb key item hitem hexpires
    obtain ⟨entry, hl, rfl⟩ := Option.map_eq_some_iff.mp hitem
    obtain ⟨val, hval⟩ := hdb _ key entry hl fun hnone => by simp [Entry.item, hnone] at hexpires
    exact ⟨val, by simp [Entry.item, hval, DataType.toValue]⟩
  · intro hks i key entry hl hexpires
    obtain rfl := h i key (AList.lookup_isSome.mp (by simp [hl]))
    have hitem : view env db key = some entry.item := by simp [view, Shard.items, hl]
    obtain ⟨val, hval⟩ := hks key _ hitem (Option.isSome_iff_ne_none.mpr hexpires)
    exact ⟨val, toValue_eq_string hval⟩

/-- What is in memory at any time of any number of lives. -/
structure Sound (env : Env) (db : Memory) : Prop where
  routed : Routed env db
  strings : OnlyStringsExpire db

theorem Sound.handle (h : Sound env db) (ctx : Ctx) {a : Outcome} {logs : List Command}
    (hrun : (handle env ctx c).run db = some (a, db', logs)) : Sound env db' := by
  have hrouted := handle_routed env ctx h.routed hrun
  refine ⟨hrouted, (onlyStringsExpire_iff hrouted).mpr ?_⟩
  have hks := (onlyStringsExpire_iff h.routed).mp h.strings
  obtain hview | ⟨key, start, stop, list, rest, -, -, -, hview⟩ := handle_view ctx hrun
  · rw [hview]
    exact onlyStrings_applyAll hks
  · rw [hview]
    exact onlyStrings_trimTo hks

theorem Sound.sweep (h : Sound env db) (i : Index) (keys : List Bytes) :
    Sound env (Function.update db i (removeKeys keys (db i))) := by
  refine ⟨sweep_routed h.routed keys, fun j key entry hl => ?_⟩
  rw [lookup_update_removeKeys] at hl
  split at hl
  · cases hl
  · exact h.strings j key entry hl

theorem sound_replayAof {clock : Nat → SystemTime} {file : Bytes}
    (h : replayAof env clock file = some db) :
    Sound env db := by
  have hrouted := replayAll_routed routed_newDb h
  refine ⟨hrouted, (onlyStringsExpire_iff hrouted).mpr ?_⟩
  rw [view_replayAll env h]
  exact onlyStrings_applyAll fun _ _ hitem => by cases hitem

theorem sound_newDb : Sound env newDb := ⟨routed_newDb, fun _ _ _ hl => by cases hl⟩

theorem Sound.lifeStep {s s' : System} {e : LifeEvent} (h : Sound env s.db)
    (he : lifeStep env s e = some s') :
    Sound env s'.db := by
  obtain ⟨request, a, logs, -, hrun⟩ | ⟨now, swept, keys, hlt, -, -, hdb⟩ | ⟨clock, -,
      hreplay⟩ | hdb :=
    lifeStep_db he
  · exact h.handle request.ctx hrun
  · rw [hdb]
    exact h.sweep _ _
  · exact sound_replayAof hreplay
  · rwa [hdb]

theorem sound_reachable {s : System} (h : Reachable (TitanKv.lifeStep env) anyStep System.fresh s) :
    Sound env s.db := by
  induction h with
  | init => exact sound_newDb
  | step _ _ he ih => exact ih.lifeStep he

/-- One request on the database alone. -/
def requestStep (env : Env) (db : Memory) (request : Request) : Option Memory :=
  ((request.handle env).run db).map fun r => r.2.1

theorem requestStep_some {request : Request} (he : requestStep env db request = some db') :
    ∃ a logs, (handle env request.ctx request.command).run db = some (a, db', logs) := by
  obtain ⟨⟨a, db₁, logs⟩, hrun, rfl⟩ := Option.map_eq_some_iff.mp he
  exact ⟨a, logs, hrun⟩

theorem Sound.requestStep {request : Request} (h : Sound env db)
    (he : requestStep env db request = some db') :
    Sound env db' := by
  obtain ⟨a, logs, hrun⟩ := requestStep_some he
  exact h.handle request.ctx hrun

end Strings

section Deadlines
variable {env : Env} {s : System}

/-- A deadline that has not passed is in the line the compactor writes. -/
theorem entryText_deadline {entry : Entry} {expiration now : SystemTime} {key : Bytes}
    (h : entry.OnlyStringExpires) (hexpires : entry.expiresAt = some expiration)
    (hlive : now ≤ expiration) :
    ∃ val, entryText now key entry = formatLine "SETEX" [bytesToStr key,
      Decimal.printNat ((expiration.nanos - now.nanos).toNat / 10 ^ 9),
        quoted (bytesToStr val)] := by
  obtain ⟨val, hval⟩ := h (by simp [hexpires])
  refine ⟨val, ?_⟩
  simp only [entryText, hval, hexpires, durationSince_eq_some hlive]

/-- What `GET` replies with where the deadline has not passed. -/
def getReply : Option DataType → Bytes
  | some (.string val) => writeBulk val
  | some _ => lit "-WRONGTYPE Operation against a key holding the wrong type of value\r\n"
  | none => nilReply

/-- `GET` removes an expired entry, and looks at any other. -/
theorem get_cases {ctx : Ctx} {key : Bytes} {db db' : Memory} {a : Outcome} {logs : List Command}
    (hrun : (handle env ctx (.get key)).run db = some (a, db', logs)) :
    isExpired ctx.now (entryAt env db key) = true ∧ a = .reply nilReply ∧
        db' = onShard env key (·.erase key) db ∧ logs = [.del key] ∨
      isExpired ctx.now (entryAt env db key) = false ∧ a = .reply (getReply (stored env db key)) ∧
        db' = db ∧ logs = [] := by
  cases hexpired : isExpired ctx.now (entryAt env db key) with
  | true =>
    have hget := handleGet_run_expired env ctx db hexpired
    obtain ⟨rfl, rfl, rfl⟩ := by simpa using hrun.symm.trans hget
    exact Or.inl ⟨rfl, rfl, rfl, rfl⟩
  | false =>
    have hget := handleGet_run env ctx db hexpired
    obtain ⟨rfl, rfl, rfl⟩ := by simpa using hrun.symm.trans hget
    exact Or.inr ⟨rfl, rfl, rfl, rfl⟩

/-- An expired entry has a deadline, which is before the reading. -/
theorem isExpired_iff {now : SystemTime} {found : Option Entry} :
    isExpired now found = true ↔
      ∃ entry expiration, found = some entry ∧ entry.expiresAt = some expiration ∧
      expiration < now := by
  unfold isExpired
  cases found with
  | none => simp
  | some entry =>
    cases hexpires : entry.expiresAt with
    | none => simp [hexpires]
    | some expiration => simp [hexpires]

theorem stored_of_entryAt {db : Memory} {key : Bytes} {entry : Entry} {value : DataType}
    (hl : entryAt env db key = some entry) (hvalue : entry.value = value) :
    stored env db key = some value := by
  rw [stored_eq, hl, Option.map_some, hvalue]

/-- What `GET` removes is a string. -/
theorem get_removes_string {ctx : Ctx} {key : Bytes} {db db' : Memory} {a : Outcome}
    {logs : List Command}
    (h : OnlyStringsExpire db) (hrun : (handle env ctx (.get key)).run db = some (a, db', logs))
    (hne : db' ≠ db) :
    ∃ val, stored env db key = some (.string val) := by
  obtain ⟨hexpired, -, -, -⟩ | ⟨-, -, hsame, -⟩ := get_cases hrun
  · obtain ⟨entry, expiration, hl, hexpires, -⟩ := isExpired_iff.mp hexpired
    obtain ⟨val, hval⟩ := h _ key entry hl (by simp [hexpires])
    exact ⟨val, stored_of_entryAt hl hval⟩
  · exact absurd hsame hne

/-- In every state of a run with any number of restarts only strings carry
deadlines; the compactor keeps each that has not passed, and what `GET` removes
is a string. -/
theorem only_strings_expire (h : Reachable (lifeStep env) anyStep System.fresh s) :
    OnlyStringsExpire s.db ∧
    (∀ i key entry expiration now, (s.db i).lookup key = some entry →
      entry.expiresAt = some expiration →
      now ≤ expiration → ∃ val, entryText now key entry = formatLine "SETEX" [bytesToStr key,
        Decimal.printNat ((expiration.nanos - now.nanos).toNat / 10 ^ 9),
          quoted (bytesToStr val)]) ∧
    ∀ ctx key a db logs, (handle env ctx (.get key)).run s.db = some (a, db, logs) → db ≠ s.db →
      ∃ val, stored env s.db key = some (.string val) := by
  have hstrings := (sound_reachable h).strings
  refine ⟨hstrings, ?_, ?_⟩
  · intro i key entry expiration now hl hexpires hlive
    exact entryText_deadline (hstrings i key entry hl) hexpires hlive
  · intro ctx key a db logs hrun hne
    exact get_removes_string hstrings hrun hne

/-- A value with a deadline, written to the log, and a restart. -/
def oneRestart : List LifeEvent :=
  [.step (.command ⟨plainCtx, .setEx [107] 5 [118]⟩), .step .receive, .step .tick, .restart epochs]

theorem only_strings_expire_restart :
    ∃ s, run (lifeStep plainEnv) System.fresh oneRestart = some s ∧
    entryAt plainEnv s.db [107] ≠ none ∧ OnlyStringsExpire s.db := by
  obtain ⟨s, hrun, hkey⟩ : ∃ s, run (lifeStep plainEnv) System.fresh oneRestart = some s ∧
      (entryAt plainEnv s.db [107]).isSome = true := ⟨_, rfl, by decide⟩
  exact ⟨s, hrun, Option.isSome_iff_ne_none.mp hkey, (only_strings_expire (.run .init _ hrun)).1⟩

end Deadlines

end TitanKv
