import TitanKv.Boot
import TitanKv.Restarts

/-! # The life of a key over restarts

The log stores how long a key had to live, not until when. A restart counts that
time from its own clock, so it may give a key a later deadline than it had. A key
keeps its deadline over every restart whose file gives it none later. -/

namespace TitanKv
open Utf8 Local TwoPhase Runs

section Texts
variable {map map' : Shard} {key k : Bytes} {f : DataType → Option DataType} {empty : Entry}

def DataType.text? : DataType → Option Bytes
  | .string val => some val
  | _ => none

/-- The string of an entry and its deadline. -/
def Entry.text? (entry : Entry) : Option (Bytes × Option SystemTime) :=
  entry.value.text?.map fun val => (val, entry.expiresAt)

def Shard.text? (map : Shard) (key : Bytes) : Option (Bytes × Option SystemTime) :=
  (map.lookup key).bind Entry.text?

def textAt (env : Env) (db : Memory) (key : Bytes) : Option (Bytes × Option SystemTime) :=
  (db (calculateShardIndex env key)).text? key

theorem textAt_eq (env : Env) (db : Memory) (key : Bytes) :
    textAt env db key = (entryAt env db key).bind Entry.text? := rfl

theorem text?_congr (h : map'.lookup k = map.lookup k) : map'.text? k = map.text? k := by
  rw [Shard.text?, h, Shard.text?]

theorem text?_insert (entry : Entry) : Shard.text? (map.insert key entry) key = entry.text? := by
  simp [Shard.text?]

theorem text?_erase : Shard.text? (map.erase key) key = none := by
  simp [Shard.text?]

theorem text?_editList (f : List Bytes → List Bytes) :
    (editList key f map).text? key = map.text? key := by
  unfold editList Shard.value?
  cases hl : map.lookup key with
  | none => simp
  | some entry =>
    obtain ⟨value, expiresAt⟩ := entry
    cases value with
    | list vals => simp [Shard.text?, hl, Shard.lookup_setValue hl, Entry.text?, DataType.text?]
    | _ => simp

/-- A command on a collection leaves a string as it is, and makes none. -/
def KeepsTexts (f : DataType → Option DataType) : Prop :=
  ∀ value value', f value = some value' → value.text? = none ∧ value'.text? = none

theorem text?_growValue (hempty : empty.value.text? = none) (hf : KeepsTexts f) :
    (growValue key empty f map).text? key = map.text? key := by
  have hlookup : (map.orInsertWith key empty).lookup key = some ((map.lookup key).getD empty) :=
    Shard.lookup_orInsertWith
  have htext : ((map.lookup key).getD empty).text? = map.text? key := by
    cases hl : map.lookup key with
    | none => simp [Shard.text?, hl, Entry.text?, hempty]
    | some entry => simp [Shard.text?, hl]
  unfold growValue
  simp only [Shard.value?, hlookup, Option.map_some, Option.bind_some]
  rw [← htext]
  cases hfv : f ((map.lookup key).getD empty).value with
  | none => simp [Shard.text?, hlookup]
  | some value =>
    obtain ⟨hbefore, hafter⟩ := hf _ _ hfv
    simp [Shard.text?, Shard.lookup_setValue hlookup, Entry.text?, hbefore, hafter]

theorem keepsTexts_changeList (f : List Bytes → List Bytes) : KeepsTexts (changeList f) := by
  intro value value' h
  cases value with
  | list vals =>
    obtain rfl := Option.some.inj h
    exact ⟨rfl, rfl⟩
  | _ => cases h

theorem keepsTexts_insertField (field val : Bytes) : KeepsTexts (insertField field val) := by
  intro value value' h
  cases value with
  | hash hmap =>
    obtain rfl := Option.some.inj h
    exact ⟨rfl, rfl⟩
  | _ => cases h

theorem keepsTexts_insertMember (member : Bytes) : KeepsTexts (insertMember member) := by
  intro value value' h
  cases value with
  | set members =>
    obtain rfl := Option.some.inj h
    exact ⟨rfl, rfl⟩
  | _ => cases h

end Texts

section Replay
variable {env : Env} {clock : Nat → SystemTime} {now : SystemTime} {command : Command}
  {commands : List Command}
  {db db' : Memory} {key k : Bytes} {n : Nat}

/-- The command sets the string of the key, or removes it. -/
def Command.sets (key : Bytes) : Command → Bool
  | .set k _ | .setEx k _ _ | .del k | .incr k => decide (k = key)
  | _ => false

/-- The last command that sets the string of the key, with its number. -/
def lastSetting (key : Bytes) : Nat → List Command → Option (Nat × Command)
  | _, [] => none
  | n, c :: cs => (lastSetting key (n + 1) cs).or (if c.sets key then some (n, c) else none)

theorem textAt_onShard (f : Shard → Shard) :
    textAt env (onShard env key f db) key = (f (db (calculateShardIndex env key))).text? key := by
  rw [textAt, onShard, Function.update_self]

theorem TouchesOnly.textAt (h : TouchesOnly env [k] db db') (hkey : key ≠ k) :
    textAt env db' key = textAt env db key :=
  text?_congr (h.entryAt fun hin => hkey (List.mem_singleton.mp hin))

/-- A change of one key's shard that keeps that key's string keeps every string. -/
theorem textAt_onShard_keeps {f : Shard → Shard}
    (hrest : ∀ map k', k' ≠ k → (f map).lookup k' = map.lookup k')
    (hkey : ∀ map, (f map).text? k = map.text? k) :
    textAt env (onShard env k f db) key = textAt env db key := by
  by_cases heq : key = k
  · subst heq
    rw [textAt_onShard, hkey]
    rfl
  · exact TouchesOnly.textAt (.onShard hrest) heq

theorem textAt_growValue {empty : Entry} {f : DataType → Option DataType}
    (hempty : empty.value.text? = none)
    (hf : KeepsTexts f) :
    textAt env (onShard env k (growValue k empty f) db) key = textAt env db key :=
  textAt_onShard_keeps (fun map _ hne => growValue_lookup_of_ne map hne) fun _ =>
    text?_growValue hempty hf

theorem textAt_editList (f : List Bytes → List Bytes) :
    textAt env (onShard env k (editList k f) db) key = textAt env db key :=
  textAt_onShard_keeps (fun map _ hne => editList_lookup_of_ne f map hne) fun _ => text?_editList f

/-- A replay arm that does not set the key's string leaves it as it is. -/
theorem replayCommand_textAt (h : replayCommand env now command db = some db')
    (hsets : command.sets key = false) :
    textAt env db' key = textAt env db key := by
  cases command with
  | set k _ | setEx k _ _ | del k | incr k =>
    have hkey : key ≠ k := fun heq => of_decide_eq_false hsets heq.symm
    exact TouchesOnly.textAt (replayCommand_frame h) hkey
  | lPush k v | rPush k v =>
    obtain rfl := Option.some.inj h
    exact textAt_growValue rfl (keepsTexts_changeList _)
  | hSet k f v =>
    obtain rfl := Option.some.inj h
    exact textAt_growValue rfl (keepsTexts_insertField f v)
  | sAdd k m =>
    obtain rfl := Option.some.inj h
    exact textAt_growValue rfl (keepsTexts_insertMember m)
  | lPop k | rPop k | lRem k _ _ =>
    obtain rfl := Option.some.inj h
    exact textAt_editList _
  | rPopLPush s d =>
    simp only [replayCommand] at h
    split at h
    · rename_i vals hv
      split at h
      · rename_i v rest hpop
        obtain rfl := Option.some.inj h
        have hsource : textAt env (onShard env s (·.setValue s (.list rest)) db) key =
            textAt env db key := by
          have hedit : onShard env s (·.setValue s (.list rest)) db =
              onShard env s (editList s fun _ => rest) db := by
            unfold onShard
            rw [← setValue_eq_editList (f := fun _ => rest) hv]
          rw [hedit, textAt_editList]
        rw [textAt_growValue rfl (keepsTexts_changeList _), hsource]
      · obtain rfl := Option.some.inj h
        rfl
    · obtain rfl := Option.some.inj h
      rfl
  | _ => obtain rfl := Option.some.inj h; rfl

/-- What the last command that sets a string makes of it. -/
def Sets (now : SystemTime) (found : Option (Bytes × Option SystemTime)) : Command → Prop
  | .set _ val => found = some (val, none)
  | .setEx _ seconds val =>
    ∃ deadline, now.addSecs (asU64 seconds) = some deadline ∧ found = some (val, some deadline)
  | .incr _ => ∃ z, found = some (decimal z, none)
  | _ => found = none

theorem replayCommand_sets (h : replayCommand env now command db = some db')
    (hsets : command.sets key = true) :
    Sets now (textAt env db' key) command := by
  cases command with
  | set k v =>
    obtain rfl : k = key := of_decide_eq_true hsets
    obtain rfl := Option.some.inj h
    exact (textAt_onShard _).trans (text?_insert _)
  | setEx k s v =>
    obtain rfl : k = key := of_decide_eq_true hsets
    obtain ⟨deadline, hd, rfl⟩ := Option.map_eq_some_iff.mp h
    exact ⟨deadline, hd, (textAt_onShard _).trans (text?_insert _)⟩
  | del k =>
    obtain rfl : k = key := of_decide_eq_true hsets
    obtain rfl := Option.some.inj h
    exact (textAt_onShard _).trans text?_erase
  | incr k =>
    obtain rfl : k = key := of_decide_eq_true hsets
    obtain rfl := Option.some.inj h
    exact ⟨_, (textAt_onShard _).trans (text?_insert _)⟩
  | _ => cases hsets

/-- After replay the string of a key is what its last setting made, at the reading
of that line; without a setting it is as before. -/
theorem replayAll_textAt (key : Bytes) (h : replayAll env clock n commands db = some db') :
    match lastSetting key n commands with
    | some (m, c) => Sets (clock m) (textAt env db' key) c
    | none => textAt env db' key = textAt env db key := by
  induction commands generalizing n db with
  | nil =>
    obtain rfl := Option.some.inj h
    rfl
  | cons c commands ih =>
    obtain ⟨db₁, h₁, hrest⟩ := Option.bind_eq_some_iff.mp h
    have hlater := ih hrest
    rw [lastSetting]
    cases hlast : lastSetting key (n + 1) commands with
    | some found =>
      rw [hlast] at hlater
      exact hlater
    | none =>
      rw [hlast] at hlater
      dsimp only at hlater
      rw [Option.none_or]
      split
      · rename_i heq
        split at heq
        · rename_i hsets
          obtain ⟨rfl, rfl⟩ := Prod.mk.inj (Option.some.inj heq)
          rw [hlater]
          exact replayCommand_sets h₁ hsets
        · cases heq
      · rename_i heq
        split at heq
        · cases heq
        · rename_i hsets
          rw [hlater]
          exact replayCommand_textAt h₁ (Bool.eq_false_of_not_eq_true hsets)

end Replay

section Live
variable {env : Env} {key : Bytes} {db db' : Memory}

/-- A command that does not write to a key leaves its entry, or `GET` removes it. -/
theorem entryAt_notWritten {request : Request} {a : Outcome} {logs : List Command}
    (hwrite : key ∈ request.command.keyArgs → request.command.reads ∨ request.command = .get key)
    (hrun : (request.handle env).run db = some (a, db', logs)) :
    entryAt env db' key = entryAt env db key ∨ entryAt env db' key = none := by
  obtain ⟨ctx, command⟩ := request
  by_cases hkey : key ∈ command.keyArgs
  · obtain hreads | rfl := hwrite hkey
    · obtain ⟨rfl, -⟩ := run_of_reads env ctx hreads hrun
      exact Or.inl rfl
    · obtain ⟨-, -, rfl, -⟩ | ⟨-, -, rfl, -⟩ := get_cases hrun
      · right
        rw [entryAt, onShard, Function.update_self]
        exact AList.lookup_erase _ _
      · exact Or.inl rfl
  · exact Or.inl ((handle_frame env ctx hrun).entryAt hkey)

theorem entryAt_sweep (i : Index) (keys : List Bytes) :
    entryAt env (Function.update db i (removeKeys keys (db i))) key = entryAt env db key ∨
      entryAt env (Function.update db i (removeKeys keys (db i))) key = none := by
  unfold entryAt
  rw [lookup_update_removeKeys]
  split
  · exact Or.inr rfl
  · exact Or.inl rfl

end Live

section Lives
variable {env : Env} {key val : Bytes} {deadline : SystemTime} {s s₁ s' : System} {e : LifeEvent}

/-- If the key holds the value, it has a deadline no later than the given. -/
def ExpiresBy (env : Env) (key val : Bytes) (deadline : SystemTime) (db : Memory) : Prop :=
  ∀ expiresAt, textAt env db key = some (val, expiresAt) → ∃ t, expiresAt = some t ∧ t ≤ deadline

/-- No command writes to the key: those that name it read, or are its `GET`. -/
def NoLaterWrite (key : Bytes) : LifeEvent → Prop
  | .step (.command request) =>
    key ∈ request.command.keyArgs → request.command.reads ∨ request.command = .get key
  | _ => True

/-- The file gives the key no later deadline: the last line that sets or removes its
string is a `DEL`; or a `SETEX` of another value, or of a time that ends by the
deadline if counted from the reading there; or a `SET` of another value; or an
`INCR` where the value is no number. -/
def GivesNoMore (key val : Bytes) (deadline : SystemTime) (clock : Nat → SystemTime)
    (commands : List Command) : Prop :=
  match lastSetting key 0 commands with
  | some (n, .setEx _ seconds w) =>
    w = val → (clock n).nanos + asU64 seconds * 10 ^ 9 ≤ deadline.nanos
  | some (_, .set _ w) => w ≠ val
  | some (_, .incr _) => ∀ z, val ≠ decimal z
  | _ => True

def RestartsInTime (key val : Bytes) (deadline : SystemTime) (s : System) : LifeEvent → Prop
  | .restart clock => GivesNoMore key val deadline clock (aofCommands (encode s.logText))
  | _ => True

theorem addSecs_nanos {t d : SystemTime} {secs : Nat} (h : t.addSecs secs = some d) :
    d.nanos = t.nanos + secs * 10 ^ 9 := by
  unfold SystemTime.addSecs at h
  split at h
  · obtain rfl := Option.some.inj h
    rfl
  · cases h

theorem expiresBy_of_entryAt {db db' : Memory} (h : ExpiresBy env key val deadline db)
    (hentry : entryAt env db' key = entryAt env db key ∨ entryAt env db' key = none) :
    ExpiresBy env key val deadline db' := by
  intro expiresAt htext
  rw [textAt_eq] at htext
  rcases hentry with hsame | hnone
  · rw [hsame] at htext
    exact h expiresAt htext
  · rw [hnone] at htext
    cases htext

theorem expiresBy_replay {clock : Nat → SystemTime} {commands : List Command} {db : Memory}
    (h : replayAll env clock 0 commands newDb = some db)
    (hfile : GivesNoMore key val deadline clock commands) :
    ExpiresBy env key val deadline db := by
  have htext := replayAll_textAt key h
  unfold GivesNoMore at hfile
  intro expiresAt hval
  cases hlast : lastSetting key 0 commands with
  | none =>
    rw [hlast] at htext
    dsimp only at htext
    rw [htext] at hval
    cases hval
  | some found =>
    obtain ⟨n, c⟩ := found
    rw [hlast] at htext hfile
    dsimp only at htext
    rw [hval] at htext
    cases c with
    | set k w =>
      obtain ⟨rfl, -⟩ := Prod.mk.inj (Option.some.inj htext)
      exact absurd rfl hfile
    | setEx k seconds w =>
      obtain ⟨d, hd, heq⟩ := htext
      obtain ⟨rfl, rfl⟩ := Prod.mk.inj (Option.some.inj heq)
      refine ⟨d, rfl, ?_⟩
      show d.nanos ≤ deadline.nanos
      rw [addSecs_nanos hd]
      exact hfile rfl
    | incr k =>
      obtain ⟨z, heq⟩ := htext
      obtain ⟨rfl, -⟩ := Prod.mk.inj (Option.some.inj heq)
      exact absurd rfl (hfile z)
    | _ => cases htext

theorem expiresBy_lifeStep (h : ExpiresBy env key val deadline s.db) (hwrite : NoLaterWrite key e)
    (hrestart : RestartsInTime key val deadline s e) (he : lifeStep env s e = some s') :
    ExpiresBy env key val deadline s'.db := by
  obtain ⟨request, a, logs, rfl, hrun⟩ | ⟨now, swept, keys, hlt, rfl, -, hdb⟩ | ⟨clock, rfl,
      hreplay⟩ | hdb :=
    lifeStep_db he
  · exact expiresBy_of_entryAt h (entryAt_notWritten hwrite hrun)
  · rw [hdb]
    exact expiresBy_of_entryAt h (entryAt_sweep _ _)
  · exact expiresBy_replay hreplay hrestart
  · rwa [hdb]

/-- `SETEX` that does not panic leaves the value with the deadline. -/
theorem setEx_entryAt {ctx : Ctx} {seconds : Int} {db db' : Memory} {a : Outcome}
    {logs : List Command} (hd : ctx.now.addSecs (asU64 seconds) = some deadline)
    (hrun : (handle env ctx (.setEx key seconds val)).run db = some (a, db', logs)) :
    entryAt env db' key = some ⟨.string val, some deadline⟩ := by
  simp only [handle, handleSetEx, hd] at hrun
  rw [run_withWrite] at hrun
  obtain ⟨r, hr, heq⟩ := Option.map_eq_some_iff.mp hrun
  obtain rfl := Option.some.inj hr
  obtain ⟨-, rfl, -⟩ := by simpa using heq
  simp [entryAt]

theorem writeBulk_injective {v w : Bytes} (h : writeBulk v = writeBulk w) : v = w := by
  rw [writeBulk_eq, writeBulk_eq] at h
  obtain ⟨hvalue, -⟩ :=
    Resp.encode_append_inj (v := .bulk v) (w := .bulk w) trivial trivial (congrArg (· ++ []) h)
  exact Resp.Value.bulk.inj hvalue

theorem nilReply_ne_writeBulk {v : Bytes} : nilReply ≠ writeBulk v := by
  intro h
  rw [nilReply_eq, writeBulk_eq] at h
  obtain ⟨hvalue, -⟩ :=
    Resp.encode_append_inj (v := .nil) (w := .bulk v) trivial trivial (congrArg (· ++ []) h)
  cases hvalue

/-- `GET` replies with a value only if the key holds it as a string. -/
theorem getReply_eq_writeBulk {found : Option DataType} {v : Bytes}
    (h : getReply found = writeBulk v) :
    found = some (.string v) := by
  cases found with
  | none => exact absurd h nilReply_ne_writeBulk
  | some value =>
    cases value with
    | string w =>
      obtain rfl := writeBulk_injective h
      rfl
    | _ => cases congrArg List.head? h

/-- After the deadline `GET` does not reply with the value. -/
theorem get_after_deadline {ctx : Ctx} {db db' : Memory} {a : Outcome} {logs : List Command}
    (h : ExpiresBy env key val deadline db) (hnow : deadline < ctx.now)
    (hrun : (handle env ctx (.get key)).run db = some (a, db', logs)) :
    a ≠ .reply (writeBulk val) := by
  intro ha
  obtain ⟨-, hreply, -, -⟩ | ⟨hfresh, hreply, -, -⟩ := get_cases hrun
  · exact nilReply_ne_writeBulk (Outcome.reply.inj (hreply.symm.trans ha))
  · have hstored := getReply_eq_writeBulk (Outcome.reply.inj (hreply.symm.trans ha))
    obtain ⟨entry, hentry, hvalue⟩ := Option.map_eq_some_iff.mp hstored
    have htext : textAt env db key = some (val, entry.expiresAt) := by
      rw [textAt_eq, entryAt, hentry, Option.bind_some, Entry.text?, hvalue]
      rfl
    obtain ⟨t, ht, hle⟩ := h _ htext
    have hpast : t.nanos < ctx.now.nanos := lt_of_le_of_lt hle hnow
    have hexpired : isExpired ctx.now (entryAt env db key) = true :=
      isExpired_iff.mpr ⟨entry, t, hentry, ht, hpast⟩
    rw [hexpired] at hfresh
    cases hfresh

/-- A key with a value and a deadline, not written again: no `GET` after the
deadline replies with the value, over any steps of the server, compactions and
restarts, where each restart reads a file that gives the key no more time. -/
theorem restart_keeps_deadline {s₀ : System} {ctx : Ctx} {seconds : Int}
    (hset : lifeStep env s₀ (.step (.command ⟨ctx, .setEx key seconds val⟩)) = some s₁)
    (hd : ctx.now.addSecs (asU64 seconds) = some deadline)
    (hlater : Reachable (lifeStep env)
      (fun s e => NoLaterWrite key e ∧ RestartsInTime key val deadline s e) s₁ s)
    {reader : Ctx} (hnow : deadline < reader.now) {a : Outcome} {db : Memory} {logs : List Command}
    (hget : (handle env reader (.get key)).run s.db = some (a, db, logs)) :
    a ≠ .reply (writeBulk val) := by
  have hstart : ExpiresBy env key val deadline s₁.db := by
    obtain ⟨b, logs', hrun⟩ := step_command_db hset
    have hentry := setEx_entryAt hd hrun
    intro expiresAt htext
    have hnew : textAt env s₁.db key = some (val, some deadline) := by
      rw [textAt_eq, hentry]
      rfl
    obtain ⟨-, rfl⟩ := Prod.mk.inj (Option.some.inj (hnew.symm.trans htext))
    exact ⟨deadline, rfl, le_refl deadline.nanos⟩
  have hby : ExpiresBy env key val deadline s.db := by
    clear hget
    induction hlater with
    | init => exact hstart
    | step _ hok he ih => exact expiresBy_lifeStep ih hok.1 hok.2 he
  exact get_after_deadline hby hnow hget

/-- The log thread takes the line and writes it to the file. -/
def written : List LifeEvent := [.step .receive, .step .tick]

/-- A key that expires at once, and a restart that reads its line at the same time. -/
theorem restart_keeps_deadline_atOnce :
    ∃ s₁ s₂ s, lifeStep plainEnv System.fresh (.step setExpired) = some s₁ ∧
      run (lifeStep plainEnv) s₁ written = some s₂ ∧ lifeStep plainEnv s₂ (.restart epochs) =
        some s ∧
      entryAt plainEnv s.db [107] ≠ none ∧ ∀ a db logs,
        (handle plainEnv ⟨oneSecond, []⟩ (.get [107])).run s.db = some (a, db, logs) →
          a ≠ .reply (writeBulk [118]) := by
  obtain ⟨s₁, hset, s₂, hwritten, s, hrestart, hthere, hfile⟩ : ∃ s₁,
      lifeStep plainEnv System.fresh (.step setExpired) = some s₁ ∧ ∃ s₂,
      run (lifeStep plainEnv) s₁ written = some s₂ ∧ ∃ s,
      lifeStep plainEnv s₂ (.restart epochs) = some s ∧
      (entryAt plainEnv s.db [107]).isSome = true ∧
      lastSetting [107] 0 (aofCommands (encode s₂.logText)) = some (0, .setEx [107] 0 [118]) :=
    ⟨_, rfl, _, rfl, _, rfl, by decide, by decide⟩
  have hok : RestartsInTime [107] [118] SystemTime.unixEpoch s₂ (.restart epochs) := by
    rw [RestartsInTime, GivesNoMore, hfile]
    decide
  have hreach : Reachable (lifeStep plainEnv) (fun s e => NoLaterWrite [107] e ∧
      RestartsInTime [107] [118] SystemTime.unixEpoch s e) s₁ s := by
    have hwrite : NoLaterWrite [107] (.restart epochs) := trivial
    refine .step (.run_ok .init written ?_ hwritten) ⟨hwrite, hok⟩ hrestart
    exact ⟨⟨trivial, trivial⟩, fun _ _ => ⟨⟨trivial, trivial⟩, fun _ _ => trivial⟩⟩
  refine ⟨s₁, s₂, s, hset, hwritten, hrestart, Option.isSome_iff_ne_none.mp hthere,
    fun a db logs hget => ?_⟩
  exact restart_keeps_deadline hset rfl hreach (by decide) hget

/-- A restart no earlier than the given time. -/
def RestartsAfter (time : SystemTime) : LifeEvent → Prop
  | .restart clock => ∀ n, time ≤ clock n
  | _ => True

/-- Restarted a second later, the same key lives a second longer. -/
theorem restart_lengthens_life :
    ¬ ∀ (env : Env) (key val : Bytes) (deadline : SystemTime) (seconds : Int)
      (ctx reader : Ctx) (s₀ s₁ s : System) (a : Outcome) (db : Memory) (logs : List Command),
      PlainWord key → 0 ≤ seconds →
      Reachable (lifeStep env) anyStep System.fresh s₀ →
      lifeStep env s₀ (.step (.command ⟨ctx, .setEx key seconds val⟩)) = some s₁ →
      ctx.now.addSecs (asU64 seconds) = some deadline →
      Reachable (lifeStep env) (fun _ e => NoLaterWrite key e ∧ RestartsAfter ctx.now e) s₁ s →
      deadline < reader.now → (handle env reader (.get key)).run s.db = some (a, db, logs) →
      a ≠ .reply (writeBulk val) := by
  intro h
  obtain ⟨s₁, hset, s, hrun, db, hget⟩ : ∃ s₁,
      lifeStep plainEnv System.fresh (.step setExpired) = some s₁ ∧ ∃ s,
      run (lifeStep plainEnv) s₁ (written ++ [.restart fun _ => oneSecond]) = some s ∧ ∃ db,
      (handle plainEnv ⟨oneSecond, []⟩ (.get [107])).run s.db =
        some (.reply (writeBulk [118]), db, []) :=
    ⟨_, rfl, _, rfl, _, rfl⟩
  have hreach : Reachable (lifeStep plainEnv) (fun _ e => NoLaterWrite [107] e ∧
      RestartsAfter SystemTime.unixEpoch e) s₁ s := by
    refine .run_ok .init _ ?_ hrun
    refine ⟨⟨trivial, trivial⟩,
      fun _ _ => ⟨⟨trivial, trivial⟩, fun _ _ => ⟨⟨trivial, ?_⟩, fun _ _ => trivial⟩⟩⟩
    have hafter : SystemTime.unixEpoch ≤ oneSecond := by decide
    exact fun _ => hafter
  exact h plainEnv [107] [118] SystemTime.unixEpoch 0 plainCtx ⟨oneSecond,
    []⟩ System.fresh s₁ s _ db [] plainWord_k
    (by decide) .init hset rfl hreach (by decide) hget rfl

end Lives

end TitanKv
