import TitanKv.Restarts

/-! # When the sweeper runs

The sweeper removes entries whose deadline has passed, at times that no client
chooses. `GET`, `TTL` and the writes that replace a value treat such an entry as
absent; other commands still see it, and so they see whether the sweeper has been
there. A run of requests none of which looks at an expired entry has the same
replies wherever the sweeper's visits stand. -/

namespace TitanKv
open Utf8 TwoPhase Runs

section Swept
variable {env : Env} {now later : SystemTime} {db db' : Memory} {key : Bytes} {i : Index}

/-- A visit of the sweeper to a shard, in a pass that read the clock at `now`. -/
def visitShard (now : SystemTime) (i : Index) (db : Memory) : Memory :=
  Function.update db i (removeKeys (expiredKeys now (db i)) (db i))

/-- The second database is the first, without some entries that have expired. -/
def Swept (now : SystemTime) (db db' : Memory) : Prop := ∀ i key,
  (db' i).lookup key = (db i).lookup key ∨ (db' i).lookup key = none ∧
    isExpired now ((db i).lookup key) = true

theorem Swept.refl (now : SystemTime) (db : Memory) : Swept now db db := fun _ _ => Or.inl rfl

theorem isExpired_mono {found : Option Entry} (hle : now ≤ later) (h : isExpired now found = true) :
    isExpired later found = true := by
  obtain ⟨entry, expiration, hfound, hexpires, hlt⟩ := isExpired_iff.mp h
  have hlt' : expiration.nanos < later.nanos := lt_of_lt_of_le hlt hle
  exact isExpired_iff.mpr ⟨entry, expiration, hfound, hexpires, hlt'⟩

theorem Swept.mono (h : Swept now db db') (hle : now ≤ later) : Swept later db db' :=
  fun i key => (h i key).imp_right fun hgone => ⟨hgone.1, isExpired_mono hle hgone.2⟩

theorem mem_expiredKeys_iff {map : Shard} :
    key ∈ expiredKeys now map ↔ isExpired now (map.lookup key) = true := by
  rw [expiredKeys, List.mem_filter]
  refine ⟨fun h => h.2, fun h => ⟨?_, h⟩⟩
  obtain ⟨entry, _, hfound, -, -⟩ := isExpired_iff.mp h
  rw [mem_keys_iff, hfound]
  rfl

theorem lookup_visitShard (now : SystemTime) (i j : Index) (db : Memory) (key : Bytes) :
    (visitShard now i db j).lookup key =
      if j = i ∧ isExpired now ((db j).lookup key) = true then none else (db j).lookup key := by
  simp only [visitShard, lookup_update_removeKeys, mem_expiredKeys_iff]
  by_cases hj : j = i
  · rw [hj]
  · rw [if_neg fun h => hj h.1, if_neg fun h => hj h.1]

/-- A further visit removes expired entries only. -/
theorem Swept.visit {time : SystemTime} (h : Swept now db db') (hle : time ≤ now) (i : Index) :
    Swept now db (visitShard time i db') := by
  intro j key
  rw [lookup_visitShard]
  split
  · rename_i hgone
    rcases h j key with hsame | ⟨hnone, -⟩
    · exact Or.inr ⟨rfl, isExpired_mono hle (hsame ▸ hgone.2)⟩
    · rw [hnone] at hgone
      cases hgone.2
  · exact h j key

/-- In the shard of a key: the same entry, or an expired one that is gone. -/
theorem Swept.entryAt (h : Swept now db db') (key : Bytes) :
    entryAt env db' key = entryAt env db key ∨
      TitanKv.entryAt env db' key = none ∧ isExpired now (TitanKv.entryAt env db key) = true :=
  h _ key

/-- A change that leaves the same entry of the key in both shards. -/
theorem Swept.onShard {f : Shard → Shard} (h : Swept now db db')
    (hf : ∀ map k, k ≠ key → (f map).lookup k = map.lookup k)
    (hsame : (f (db' (calculateShardIndex env key))).lookup key =
      (f (db (calculateShardIndex env key))).lookup key) :
    Swept now (onShard env key f db) (onShard env key f db') := by
  intro i k
  unfold TitanKv.onShard
  by_cases hi : i = calculateShardIndex env key
  · rw [hi, Function.update_self, Function.update_self]
    by_cases hk : k = key
    · rw [hk]
      exact Or.inl hsame
    · rw [hf _ k hk, hf _ k hk]
      exact h _ k
  · rw [Function.update_of_ne hi, Function.update_of_ne hi]
    exact h i k

end Swept

/-- The bytes before the keys in a reply that lists keys. -/
def Command.listingHead : Command → Option Bytes
  | .keys _ => some []
  | .scan cursor _ =>
    some (lit "*2\r\n" ++ writeBulk (decimal (if cursor = 63 then 0 else cursor + 1 : Nat)))
  | _ => none

/-- Equal replies, or the same keys in another order. -/
inductive SameListing (command : Command) : Outcome → Outcome → Prop
  | same (a : Outcome) : SameListing command a a
  | listing {head : Bytes} {keys keys' : List Bytes} (hhead : command.listingHead = some head)
      (hp : keys.Perm keys') :
      SameListing command (.reply (head ++ bulkArray keys)) (.reply (head ++ bulkArray keys'))

/-- The command looks at an entry that has expired, and does not treat it as
absent. -/
def SeesExpired (env : Env) (ctx : Ctx) (db : Memory) : Command → Prop
  | .get _ | .set _ _ | .setEx _ _ _ | .ttl _ | .pttl _ | .lRem _ _ _ | .sInter _ _ => False
  | .strlen key =>
    isExpired ctx.now (entryAt env db key) = true ∧ stored env db key ≠ some (.string [])
  | .incr key => isExpired ctx.now (entryAt env db key) = true ∧
      ∀ val, stored env db key = some (.string val) → parseI64 val ≠ some 0
  | .rPopLPush source destination =>
    isExpired ctx.now (entryAt env db destination) = true ∧ lastOf env source db ≠ none
  | .keys pattern => ∃ isMatch, env.regex (globRegex (bytesToStr pattern)) = some isMatch ∧
      ∃ key ∈ allKeys db, isExpired ctx.now (entryAt env db key) = true ∧
        keyMatches isMatch key = true
  | .scan cursor matchPattern => ∃ key ∈ retainMatching env matchPattern (shardKeys db cursor),
      isExpired ctx.now (entryAt env db key) = true
  | .dbSize | .info => ∃ key ∈ allKeys db, isExpired ctx.now (entryAt env db key) = true
  | command => ∃ key ∈ command.keyArgs, isExpired ctx.now (entryAt env db key) = true

/-- Two runs of a command: neither ends, or both do, with the same reply and one
database the other swept. -/
inductive RunAlike (now : SystemTime) (command : Command) :
    Option (Outcome × Memory × List Command) →
    Option (Outcome × Memory × List Command) → Prop
  | hang : RunAlike now command none none
  | ends {a a' : Outcome} {db db' : Memory} {logs logs' : List Command}
      (hreply : SameListing command a a') (hswept : Swept now db db') :
      RunAlike now command (some (a, db, logs)) (some (a', db', logs'))

section Agree
variable {env : Env} {now : SystemTime} {ctx : Ctx} {db db' : Memory} {command : Command}

/-- A command that finds the same entries does the same. -/
theorem runAlike_of_agree (hwhole : ¬ command.isWhole) (h : Swept now db db')
    (hsame : ∀ key ∈ command.keyArgs, entryAt env db' key = entryAt env db key) :
    RunAlike now command ((handle env ctx command).run db) ((handle env ctx command).run db') := by
  have hfoot : Footprint (calculateShardIndex env) entryOf {key | key ∈ command.keyArgs}
      (handle env ctx command) :=
    ⟨handle env.flat ctx command, fun _ hR => matches_handle ctx hwhole hR⟩
  obtain ⟨flat, hflat⟩ := exists_entries command.keyArgs fun key => entryAt env db key
  cases hrun : (handle env ctx command).run db with
  | none =>
    cases hrun' : (handle env ctx command).run db' with
    | none => exact .hang
    | some r =>
      obtain ⟨db₁, hends, -⟩ :=
        hfoot.agree ⟨flat, fun key hkey => (hsame key hkey).trans (hflat key hkey)⟩
          (fun key hkey => (hsame key hkey).symm) hrun'
      rw [hrun] at hends
      cases hends
  | some r =>
    obtain ⟨a, db₁, logs⟩ := r
    obtain ⟨db₁', hrun', hnamed, hothers⟩ := hfoot.agree ⟨flat, hflat⟩ hsame hrun
    rw [hrun']
    refine .ends (.same a) fun i key => ?_
    by_cases hkey : key ∈ command.keyArgs ∧ i = calculateShardIndex env key
    · obtain ⟨hin, rfl⟩ := hkey
      exact Or.inl (hnamed key hin)
    · obtain ⟨hleft, hright⟩ : (db₁ i).lookup key = (db i).lookup key ∧
          (db₁' i).lookup key = (db' i).lookup key := hothers i key hkey
      rw [hleft, hright]
      exact h i key

end Agree

section Gone
variable {env : Env} {now : SystemTime} {ctx : Ctx} {db db' : Memory} {key val : Bytes}

/-- An expired string in the one database, no entry in the other. -/
structure Gone (env : Env) (now : SystemTime) (db db' : Memory) (key val : Bytes) : Prop where
  expired : isExpired now (entryAt env db key) = true
  string : stored env db key = some (.string val)
  absent : entryAt env db' key = none

theorem Gone.of_ne (hs : OnlyStringsExpire db) (h : Swept now db db')
    (hne : entryAt env db' key ≠ entryAt env db key) :
    ∃ val, Gone env now db db' key val := by
  obtain ⟨habsent, hexpired⟩ := (h.entryAt key).resolve_left hne
  obtain ⟨entry, expiration, hentry, hexpires, -⟩ := isExpired_iff.mp hexpired
  obtain ⟨val, hval⟩ := hs _ key entry hentry (by simp [hexpires])
  exact ⟨val, hexpired, stored_of_entryAt hentry hval, habsent⟩

theorem Gone.stored_none (h : Gone env now db db' key val) : stored env db' key = none := by
  rw [stored_eq, h.absent]
  rfl

theorem get_gone (hgone : Gone env ctx.now db db' key val) (h : Swept ctx.now db db') :
    RunAlike ctx.now (.get key) ((handle env ctx (.get key)).run db)
      ((handle env ctx (.get key)).run db') := by
  have hfresh : isExpired ctx.now (entryAt env db' key) = false := by
    rw [hgone.absent]
    rfl
  rw [handle, handleGet_run_expired env ctx db hgone.expired, handleGet_run env ctx db' hfresh,
    hgone.stored_none]
  refine .ends (.same _) fun i k => ?_
  unfold onShard
  by_cases hi : i = calculateShardIndex env key
  · rw [hi, Function.update_self]
    by_cases hk : k = key
    · rw [hk, AList.lookup_erase]
      exact Or.inl hgone.absent
    · rw [AList.lookup_erase_ne hk]
      exact h _ k
  · rw [Function.update_of_ne hi]
    exact h i k

/-- A command that replaces the entry of a key by the same in both. -/
theorem runAlike_insert {command : Command} {reply : Bytes} {entry : Entry} {logs : List Command}
    (h : Swept now db db')
    (hrun : (handle env ctx command).run db = some (.reply reply,
      onShard env key (·.insert key entry) db, logs))
    (hrun' : (handle env ctx command).run db' =
      some (.reply reply, onShard env key (·.insert key entry) db', logs)) :
    RunAlike now command ((handle env ctx command).run db) ((handle env ctx command).run db') := by
  rw [hrun, hrun']
  refine .ends (.same _) (h.onShard (fun map k hk => AList.lookup_insert_ne hk) ?_)
  rw [AList.lookup_insert, AList.lookup_insert]

theorem set_gone (h : Swept ctx.now db db') :
    RunAlike ctx.now (.set key val) ((handle env ctx (.set key val)).run db)
      ((handle env ctx (.set key val)).run db') := by
  have hrun : ∀ db, (handle env ctx (.set key val)).run db =
      some (.reply okReply, onShard env key (·.insert key ⟨.string val, none⟩) db,
        [.set key val]) := by
    intro db
    rw [handle, handleSet, run_withWrite]
    rfl
  exact runAlike_insert h (hrun db) (hrun db')

theorem setEx_gone {seconds : Int} (h : Swept ctx.now db db') :
    RunAlike ctx.now (.setEx key seconds val) ((handle env ctx (.setEx key seconds val)).run db)
      ((handle env ctx (.setEx key seconds val)).run db') := by
  cases hd : ctx.now.addSecs (asU64 seconds) with
  | none =>
    simp only [handle, handleSetEx, hd]
    exact .ends (.same _) h
  | some deadline =>
    have hrun : ∀ db, (handle env ctx (.setEx key seconds val)).run db = some (.reply okReply,
        onShard env key (·.insert key ⟨.string val, some deadline⟩) db,
          [.setEx key seconds val]) := by
      intro db
      simp only [handle, handleSetEx, hd]
      rw [run_withWrite]
      rfl
    exact runAlike_insert h (hrun db) (hrun db')

/-- A lookup that replies alike to the expired entry and to none. -/
theorem withEntry_gone {command : Command} {respond : Option Entry → Bytes}
    (h : Swept ctx.now db db') (hhandle : handle env ctx command = withEntry env key respond)
    (hreply : respond (entryAt env db key) = respond (entryAt env db' key)) :
    RunAlike ctx.now command ((handle env ctx command).run db)
      ((handle env ctx command).run db') := by
  have hrun : ∀ db, (handle env ctx command).run db =
      some (.reply (respond (entryAt env db key)), db, []) := by
    intro db
    rw [hhandle, run_withEntry]
    rfl
  rw [hrun, hrun, hreply]
  exact .ends (.same _) h

theorem remainingReply_gone (unit : Nat) (hgone : Gone env ctx.now db db' key val) :
    remainingReply ctx unit (entryAt env db key) =
      remainingReply ctx unit (entryAt env db' key) := by
  obtain ⟨entry, expiration, hentry, hexpires, hlt⟩ := isExpired_iff.mp hgone.expired
  have hle : expiration ≤ ctx.now := Int.le_of_lt hlt
  rw [hgone.absent, hentry]
  simp only [remainingReply, hexpires, if_pos hle]

theorem strlen_gone (hgone : Gone env ctx.now db db' key []) (h : Swept ctx.now db db') :
    RunAlike ctx.now (.strlen key) ((handle env ctx (.strlen key)).run db)
      ((handle env ctx (.strlen key)).run db') := by
  have hhandle : handle env ctx (.strlen key) = handleStrlen env key := rfl
  refine withEntry_gone h (hhandle.trans rfl) ?_
  obtain ⟨entry, hentry, hvalue⟩ := Option.map_eq_some_iff.mp hgone.string
  have hentry' : entryAt env db key = some entry := hentry
  rw [hgone.absent, hentry']
  simp only [hvalue]
  rfl

theorem incr_gone (hgone : Gone env ctx.now db db' key val) (hzero : parseI64 val = some 0)
    (h : Swept ctx.now db db') :
    RunAlike ctx.now (.incr key) ((handle env ctx (.incr key)).run db)
      ((handle env ctx (.incr key)).run db') := by
  have hrun : ∀ db, currentNumber (stored env db key) = .ok 0 →
      (handle env ctx (.incr key)).run db =
      some (.reply (integerReply 1), onShard env key (·.insert key ⟨.string (decimal 1), none⟩) db,
        [.incr key]) := by
    intro db hnumber
    rw [handle, handleIncr, run_withWrite]
    simp only [Prog.get_bind, Prog.run_read]
    rw [stored] at hnumber
    rw [hnumber]
    rfl
  have hdead : currentNumber (stored env db key) = .ok 0 := by
    rw [hgone.string, currentNumber, hzero]
  have hnone : currentNumber (stored env db' key) = .ok 0 := by
    rw [hgone.stored_none]
    rfl
  exact runAlike_insert h (hrun db hdead) (hrun db' hnone)

theorem lRem_gone {count : Int} (hgone : Gone env ctx.now db db' key val) (h : Swept ctx.now db db')
    {value : Bytes} :
    RunAlike ctx.now (.lRem key count value) ((handle env ctx (.lRem key count value)).run db)
      ((handle env ctx (.lRem key count value)).run db') := by
  have hrun : ∀ db, (∀ list, stored env db key ≠ some (.list list)) →
      (handle env ctx (.lRem key count value)).run db = some (.reply (lit ":0\r\n"), db, []) := by
    intro db hlist
    rw [handle, handleLRem, run_withWrite]
    simp only [Prog.get_bind, Prog.run_read]
    split
    · rename_i list hv
      exact absurd hv (hlist list)
    · rfl
  rw [hrun db fun list hl => ?_, hrun db' fun list hl => ?_]
  · exact .ends (.same _) h
  · rw [hgone.stored_none] at hl
    cases hl
  · rw [hgone.string] at hl
    cases hl

/-- The set of a key is the same in both, if only strings expire. -/
theorem setOrEmpty_swept (hs : OnlyStringsExpire db) (h : Swept now db db') (key : Bytes) :
    setOrEmpty (stored env db' key) = setOrEmpty (stored env db key) := by
  by_cases hsame : entryAt env db' key = entryAt env db key
  · rw [stored_eq, hsame, stored_eq]
  · obtain ⟨val, hgone⟩ := Gone.of_ne hs h hsame
    rw [hgone.stored_none, hgone.string]
    rfl

theorem sInter_swept (hs : OnlyStringsExpire db) (h : Swept ctx.now db db') (keyA keyB : Bytes) :
    RunAlike ctx.now (.sInter keyA keyB) ((handle env ctx (.sInter keyA keyB)).run db)
      ((handle env ctx (.sInter keyA keyB)).run db') := by
  simp only [handle, handleSInter]
  rw [run_withTwoValues, run_withTwoValues, setOrEmpty_swept hs h keyA, setOrEmpty_swept hs h keyB]
  exact .ends (.same _) h

theorem lastOf_swept (hs : OnlyStringsExpire db) (h : Swept now db db') {source : Bytes}
    (hlast : lastOf env source db = none) : lastOf env source db' = none := by
  by_cases hsame : entryAt env db' source = entryAt env db source
  · rw [lastOf, ← stored, stored_eq, hsame, ← stored_eq]
    exact hlast
  · obtain ⟨val, hgone⟩ := Gone.of_ne hs h hsame
    rw [lastOf, ← stored, hgone.stored_none]

/-- `RPOPLPUSH` finds nothing to move in either, or finds the same entries. -/
theorem rPopLPush_swept (hs : OnlyStringsExpire db) (h : Swept ctx.now db db')
    {source destination : Bytes} (hsee : ¬ SeesExpired env ctx db (.rPopLPush source destination)) :
    RunAlike ctx.now (.rPopLPush source destination)
      ((handle env ctx (.rPopLPush source destination)).run db)
      ((handle env ctx (.rPopLPush source destination)).run db') := by
  by_cases hlast : lastOf env source db = none
  · have hlast' := lastOf_swept hs h hlast
    rw [handle, handleRPopLPush_run, handleRPopLPush_run, hlast, hlast']
    exact .ends (.same _) h
  · refine runAlike_of_agree (by exact id) h fun key hkey => ?_
    by_contra hne
    obtain ⟨val, hgone⟩ := Gone.of_ne hs h hne
    rcases List.mem_pair.mp hkey with rfl | rfl
    · refine hlast ?_
      rw [lastOf, ← stored, hgone.string]
    · exact hsee ⟨hgone.expired, hlast⟩

end Gone

section Listings
variable {env : Env} {now : SystemTime} {ctx : Ctx} {db db' : Memory} {key : Bytes} {i : Index}

theorem Swept.mem (h : Swept now db db') (hkey : key ∈ db' i) : key ∈ db i := by
  rw [← AList.lookup_isSome] at hkey ⊢
  rcases h i key with hsame | ⟨hnone, -⟩
  · rwa [← hsame]
  · rw [hnone] at hkey
    cases hkey

theorem Swept.routed (h : Swept now db db') (hdb : Routed env db) : Routed env db' :=
  fun i key hkey => hdb i key (h.mem hkey)

/-- A key that is there and has not expired is in the swept database too. -/
theorem Swept.mem_of_live (h : Swept now db db') (hdb : Routed env db)
    (hlive : ¬ isExpired now (TitanKv.entryAt env db key) = true) (hkey : key ∈ db i) :
    key ∈ db' i := by
  obtain rfl := hdb i key hkey
  rcases h (calculateShardIndex env key) key with hsame | ⟨-, hexpired⟩
  · rwa [← AList.lookup_isSome, hsame, AList.lookup_isSome]
  · exact absurd hexpired hlive

/-- Keys picked from both, where no expired key is picked. -/
theorem Swept.allKeys_perm (h : Swept now db db') (hdb : Routed env db) (p : Bytes → Bool)
    (hlive : ∀ key ∈ allKeys db, p key = true →
      ¬ isExpired now (TitanKv.entryAt env db key) = true) :
    ((allKeys db).filter p).Perm ((allKeys db').filter p) := by
  refine (List.perm_ext_iff_of_nodup ((nodup_allKeys hdb).filter _)
    ((nodup_allKeys (h.routed hdb)).filter _)).mpr fun key => ?_
  rw [List.mem_filter, List.mem_filter]
  constructor
  · intro hkey
    obtain ⟨i, hi⟩ := mem_allKeys.mp hkey.1
    exact ⟨mem_allKeys.mpr ⟨i, h.mem_of_live hdb (hlive key hkey.1 hkey.2) hi⟩, hkey.2⟩
  · intro hkey
    obtain ⟨i, hi⟩ := mem_allKeys.mp hkey.1
    exact ⟨mem_allKeys.mpr ⟨i, h.mem hi⟩, hkey.2⟩

theorem Swept.length_allKeys (h : Swept now db db') (hdb : Routed env db)
    (hlive : ∀ key ∈ allKeys db, ¬ isExpired now (TitanKv.entryAt env db key) = true) :
    (allKeys db).length = (allKeys db').length := by
  have hperm := h.allKeys_perm hdb (fun _ => true) fun key hkey _ => hlive key hkey
  rw [List.filter_true, List.filter_true] at hperm
  exact hperm.length_eq

theorem Swept.shardKeys_perm (h : Swept now db db') (hdb : Routed env db) (p : Bytes → Bool)
    {cursor : Nat}
    (hlive : ∀ key ∈ (shardKeys db cursor).filter p,
      ¬ isExpired now (TitanKv.entryAt env db key) = true) :
    ((shardKeys db cursor).filter p).Perm ((shardKeys db' cursor).filter p) := by
  unfold shardKeys at hlive ⊢
  split at hlive
  · rename_i hcursor
    rw [dif_pos hcursor, dif_pos hcursor]
    refine (List.perm_ext_iff_of_nodup ((AList.keys_nodup _).filter _)
      ((AList.keys_nodup _).filter _)).mpr fun key => ?_
    rw [List.mem_filter, List.mem_filter]
    constructor
    · intro hkey
      have hthere :=
        h.mem_of_live hdb (hlive key (List.mem_filter.mpr hkey)) (AList.mem_keys.mpr hkey.1)
      exact ⟨AList.mem_keys.mp hthere, hkey.2⟩
    · intro hkey
      exact ⟨AList.mem_keys.mp (h.mem (AList.mem_keys.mpr hkey.1)), hkey.2⟩
  · rename_i hcursor
    rw [dif_neg hcursor, dif_neg hcursor]

/-- A command over the whole store that lists and counts no expired key. -/
theorem runAlike_whole {command : Command} (hs : Sound env db) (h : Swept ctx.now db db')
    (hwhole : command.isWhole) (hsee : ¬ SeesExpired env ctx db command) :
    RunAlike ctx.now command ((handle env ctx command).run db)
      ((handle env ctx command).run db') := by
  cases command with
  | dbSize =>
    have hlength := h.length_allKeys hs.routed fun key hkey hexpired => hsee ⟨key, hkey, hexpired⟩
    simp only [handle, handleDbSize]
    rw [Prog.run_bind, Prog.run_bind, run_totalKeys, run_totalKeys, ← hlength]
    exact .ends (.same _) h
  | info =>
    have hlength := h.length_allKeys hs.routed fun key hkey hexpired => hsee ⟨key, hkey, hexpired⟩
    obtain ⟨respond, hrun⟩ := run_handleInfo env ctx
    rw [handle, hrun, hrun, ← hlength]
    exact .ends (.same _) h
  | keys pattern =>
    simp only [handle, handleKeys]
    cases hregex : env.regex (globRegex (bytesToStr pattern)) with
    | none => exact .ends (.same _) h
    | some isMatch =>
      dsimp only
      rw [Prog.run_bind, Prog.run_bind, run_getAllKeys, run_getAllKeys]
      have hhead : (Command.keys pattern).listingHead = some [] := rfl
      refine .ends (.listing hhead ?_) h
      exact h.allKeys_perm hs.routed _ fun key hkey hmatch hexpired =>
        hsee ⟨isMatch, hregex, key, hkey, hexpired, hmatch⟩
  | scan cursor matchPattern =>
    simp only [handle, handleScan]
    split
    · exact .ends (.same _) h
    · rw [Prog.run_bind, Prog.run_bind, run_scanShard, run_scanShard]
      obtain ⟨p, hp⟩ := retainMatching_eq_filter env matchPattern
      refine .ends (.listing rfl ?_) h
      rw [hp, hp]
      refine h.shardKeys_perm hs.routed p fun key hkey hexpired => hsee ⟨key, ?_, hexpired⟩
      rwa [hp]
  | _ => exact hwhole.elim

/-- A command that does not look at an expired entry, on a database and on one
swept. -/
theorem runAlike_swept {command : Command} (hs : Sound env db) (h : Swept ctx.now db db')
    (hsee : ¬ SeesExpired env ctx db command) :
    RunAlike ctx.now command ((handle env ctx command).run db)
      ((handle env ctx command).run db') := by
  by_cases hwhole : command.isWhole
  · exact runAlike_whole hs h hwhole hsee
  by_cases hsame : ∀ key ∈ command.keyArgs, entryAt env db' key = entryAt env db key
  · exact runAlike_of_agree hwhole h hsame
  push Not at hsame
  obtain ⟨key, hkey, hne⟩ := hsame
  obtain ⟨val, hgone⟩ := Gone.of_ne hs.strings h hne
  cases command with
  | get k =>
    obtain rfl := List.mem_singleton.mp hkey
    exact get_gone hgone h
  | set k v => exact set_gone h
  | setEx k seconds v => exact setEx_gone h
  | ttl k =>
    obtain rfl := List.mem_singleton.mp hkey
    have hhandle : handle env ctx (.ttl key) = handleTtl env ctx key := rfl
    exact withEntry_gone h (hhandle.trans rfl) (remainingReply_gone _ hgone)
  | pttl k =>
    obtain rfl := List.mem_singleton.mp hkey
    have hhandle : handle env ctx (.pttl key) = handlePttl env ctx key := rfl
    exact withEntry_gone h (hhandle.trans rfl) (remainingReply_gone _ hgone)
  | strlen k =>
    obtain rfl := List.mem_singleton.mp hkey
    have hempty : stored env db key = some (.string []) := by
      by_contra hfull
      exact hsee ⟨hgone.expired, hfull⟩
    exact strlen_gone { hgone with string := hempty } h
  | incr k =>
    obtain rfl := List.mem_singleton.mp hkey
    have hzero : parseI64 val = some 0 := by
      by_contra hother
      refine hsee ⟨hgone.expired, fun val' hval' => ?_⟩
      obtain rfl := DataType.string.inj (Option.some.inj (hgone.string.symm.trans hval'))
      exact hother
    exact incr_gone hgone hzero h
  | lRem k count v =>
    obtain rfl := List.mem_singleton.mp hkey
    exact lRem_gone hgone h
  | sInter keyA keyB => exact sInter_swept hs.strings h keyA keyB
  | rPopLPush source destination => exact rPopLPush_swept hs.strings h hsee
  | dbSize | info | keys _ | scan _ _ => exact absurd trivial hwhole
  | del _ | «exists» _ | lPush _ _ | lPop _ | rPop _ | rPush _ _ | lTrim _ _ _ | lRange _ _ _
  | hSet _ _ _ | hGetAll _ | hGet _ _ | sAdd _ _ | «type» _ | llen _ | hlen _ | scard _ | sMembers _
  | mGet _ _ =>
    exact absurd ⟨key, hkey, hgone.expired⟩ hsee
  | _ => exact absurd hkey List.not_mem_nil

end Listings

/-- A request, or a visit of the sweeper in a pass that read the clock at `now`. -/
inductive SweepEvent where
  | request (request : Request)
  | visit (now : SystemTime) (i : Index)

/-- The clock reading of a request, or that of the visit's pass. -/
def SweepEvent.time : SweepEvent → SystemTime
  | .request r => r.ctx.now
  | .visit now _ => now

def requestsOf : List SweepEvent → List Request
  | [] => []
  | .request request :: es => request :: requestsOf es
  | .visit _ _ :: es => requestsOf es

/-- No request reads an earlier time than an event before it. -/
def ClockForward (es : List SweepEvent) : Prop :=
  es.Pairwise fun e e' => ∀ request, e' = .request request → e.time ≤ request.ctx.now

/-- The replies of the requests, and the database at the end. -/
def execSwept (env : Env) : List SweepEvent → Memory → Option (List Outcome × Memory)
  | [], db => some ([], db)
  | .request request :: es, db => ((request.handle env).run db).bind fun r =>
    (execSwept env es r.2.1).map fun q => (r.1 :: q.1, q.2)
  | .visit now i :: es, db => execSwept env es (visitShard now i db)

/-- A pass of the sweeper without other events between its visits. -/
def sweepPass (now : SystemTime) : List SweepEvent := (List.finRange shardCount).map (.visit now)

/-- The replies of one run are those of the other, request by request. -/
inductive SameListings : List Request → List Outcome → List Outcome → Prop
  | nil : SameListings [] [] []
  | cons {request : Request} {requests : List Request} {a a' : Outcome} {as as' : List Outcome}
      (head : SameListing request.command a a') (tail : SameListings requests as as') :
      SameListings (request :: requests) (a :: as) (a' :: as')

/-- Neither run ends, or both do with the same replies. -/
inductive RepliesAlike (requests : List Request) :
    Option (List Outcome × Memory) → Option (List Outcome × Memory) → Prop
  | hang : RepliesAlike requests none none
  | ends {as as' : List Outcome} {db db' : Memory} (h : SameListings requests as as') :
      RepliesAlike requests (some (as, db)) (some (as', db'))

/-- The request looks at no expired entry, or treats it as absent. -/
def Unseen (env : Env) (db : Memory) (request : Request) : Prop :=
  ¬ SeesExpired env request.ctx db request.command

section Alike
variable {command : Command} {requests : List Request} {a a' a'' : Outcome}
  {as as' as'' : List Outcome}
  {ends ends' ends'' : Option (List Outcome × Memory)}

theorem bulkArray_injective {keys keys' : List Bytes} (h : bulkArray keys = bulkArray keys') :
    keys = keys' := by
  rw [bulkArray_eq, bulkArray_eq] at h
  obtain ⟨hvalue, -⟩ :=
    Resp.encode_append_inj (v := .array (keys.map .bulk)) (w := .array (keys'.map .bulk))
      (soundAll_bulk keys) (soundAll_bulk keys') (congrArg (· ++ []) h)
  exact List.map_injective_iff.mpr (fun _ _ heq => Resp.Value.bulk.inj heq)
    (Resp.Value.array.inj hvalue)

/-- Other replies are equal. -/
theorem SameListing.eq (h : SameListing command a a') (hhead : command.listingHead = none) :
    a = a' := by
  cases h with
  | same => rfl
  | listing hsome _ =>
    rw [hhead] at hsome
    cases hsome

theorem SameListing.symm (h : SameListing command a a') : SameListing command a' a := by
  cases h with
  | same => exact .same a
  | listing hhead hp => exact .listing hhead hp.symm

theorem SameListing.trans (h : SameListing command a a') (h' : SameListing command a' a'') :
    SameListing command a a'' := by
  cases h with
  | same => exact h'
  | listing hhead hp =>
    generalize heq : Outcome.reply _ = middle at h'
    cases h' with
    | same =>
      obtain rfl := heq
      exact .listing hhead hp
    | listing hhead' hp' =>
      obtain rfl := Option.some.inj (hhead.symm.trans hhead')
      obtain rfl := bulkArray_injective (List.append_cancel_left (Outcome.reply.inj heq))
      exact .listing hhead (hp.trans hp')

theorem SameListings.symm (h : SameListings requests as as') : SameListings requests as' as := by
  induction h with
  | nil => exact .nil
  | cons head _ ih => exact .cons head.symm ih

theorem SameListings.trans (h : SameListings requests as as')
    (h' : SameListings requests as' as'') :
    SameListings requests as as'' := by
  induction h generalizing as'' with
  | nil => exact h'
  | cons head _ ih =>
    cases h' with
    | cons head' tail' => exact .cons (head.trans head') (ih tail')

theorem RepliesAlike.cons {request : Request} (h : RepliesAlike requests ends ends')
    (hreply : SameListing request.command a a') :
    RepliesAlike (request :: requests) (ends.map fun q => (a :: q.1, q.2))
      (ends'.map fun q => (a' :: q.1, q.2)) := by
  cases h with
  | hang => exact .hang
  | ends h => exact .ends (.cons hreply h)

theorem RepliesAlike.symm (h : RepliesAlike requests ends ends') :
    RepliesAlike requests ends' ends := by
  cases h with
  | hang => exact .hang
  | ends h => exact .ends h.symm

theorem RepliesAlike.trans (h : RepliesAlike requests ends ends')
    (h' : RepliesAlike requests ends' ends'') :
    RepliesAlike requests ends ends'' := by
  cases h with
  | hang => exact h'
  | ends h =>
    cases h' with
    | ends h' => exact .ends (h.trans h')

end Alike

section Runs
variable {env : Env} {db db' : Memory} {now : SystemTime} {es es' : List SweepEvent}

theorem mem_requestsOf {request : Request} (h : request ∈ requestsOf es) :
    .request request ∈ es := by
  induction es with
  | nil => cases h
  | cons e es ih =>
    cases e with
    | request r =>
      rcases List.mem_cons.mp h with rfl | h
      · exact List.mem_cons_self
      · exact List.mem_cons_of_mem _ (ih h)
    | visit _ _ => exact List.mem_cons_of_mem _ (ih h)

/-- The run without visits, and the run with them on a swept database. -/
theorem execAll_swept (hs : Sound env db) (h : Swept now db db')
    (hlater : ∀ request ∈ requestsOf es, now ≤ request.ctx.now) (hclock : ClockForward es)
    (hunseen : AllOk (requestStep env) (Unseen env) db (requestsOf es)) :
    RepliesAlike (requestsOf es) (execAll (Request.handle env) (requestsOf es) db)
      (execSwept env es db') := by
  induction es generalizing db db' now with
  | nil => exact .ends .nil
  | cons e es ih =>
    obtain ⟨hafter, hforward⟩ := List.pairwise_cons.mp hclock
    have hnext : ∀ request ∈ requestsOf es, e.time ≤ request.ctx.now :=
      fun request hr => hafter _ (mem_requestsOf hr) request rfl
    cases e with
    | visit time i =>
      rcases Int.le_total now.nanos time.nanos with hle | hle
      · exact ih hs ((h.mono hle).visit (Int.le_refl _) i) hnext hforward hunseen
      · exact ih hs (h.visit hle i) hlater hforward hunseen
    | request request =>
      have hswept := h.mono (hlater request List.mem_cons_self)
      have halike : RunAlike request.ctx.now request.command ((request.handle env).run db)
          ((request.handle env).run db') := runAlike_swept hs hswept hunseen.1
      rw [requestsOf, execAll, execSwept]
      cases hrun : (request.handle env).run db with
      | none =>
        rw [hrun] at halike
        generalize (request.handle env).run db' = ends at halike
        cases halike
        exact .hang
      | some r =>
        rw [hrun] at halike
        generalize (request.handle env).run db' = ends at halike
        cases halike with
        | @ends a a' db₁ db₁' logs logs' hreply hswept' =>
          have hstep : requestStep env db request = some db₁ := by
            rw [requestStep, hrun]
            rfl
          exact (ih (hs.requestStep hstep) hswept' hnext hforward (hunseen.2 db₁ hstep)).cons hreply

/-- The request of a step of the server, if it is one. -/
def Event.request? : Event → Option Request
  | .command request => some request
  | _ => none

/-- What the server does to the database over a run: its requests, and visits of
the sweeper between them. -/
theorem execSwept_of_run {s s' : System} {events : List Event}
    (hrun : run (step env) s events = some s') :
    ∃ es replies, requestsOf es = events.filterMap Event.request? ∧
      execSwept env es s.db = some (replies, s'.db) := by
  induction events generalizing s with
  | nil =>
    obtain rfl := Option.some.inj hrun
    exact ⟨[], [], rfl, rfl⟩
  | cons e events ih =>
    obtain ⟨s₁, he, hrest⟩ := Option.bind_eq_some_iff.mp hrun
    obtain ⟨es, replies, hrequests, hexec⟩ := ih hrest
    cases e with
    | command request =>
      obtain ⟨a, logs, hcommand⟩ := step_command_db he
      refine ⟨.request request :: es, a :: replies, ?_, ?_⟩
      · rw [requestsOf, hrequests]
        rfl
      · rw [execSwept, hcommand, Option.bind_some, hexec]
        rfl
    | _ =>
      obtain ⟨_, _, _, hne, -⟩ | ⟨now, swept, keys, hlt, -, -, hdb⟩ | hdb := step_db he
      · cases hne
      · exact ⟨.visit now ⟨swept, hlt⟩ :: es, replies, hrequests,
          by rw [execSwept, visitShard, ← hdb, hexec]⟩
      · exact ⟨es, replies, hrequests, by rw [← hdb, hexec]⟩

/-- The earliest reading of the clock. -/
def earliest : SystemTime := ⟨-2 ^ 63 * 10 ^ 9, by decide⟩

theorem earliest_le (t : SystemTime) : earliest ≤ t := by
  have hfits := t.fits
  show -2 ^ 63 * 10 ^ 9 ≤ t.nanos
  omega

/-- Two runs of the same requests with visits of the sweeper at any points, by
passes that read the clock at any times: if no request of the run without visits
looks at an expired entry, the replies are the same. -/
theorem sweeps_unobservable (hsame : requestsOf es = requestsOf es') (hclock : ClockForward es)
    (hclock' : ClockForward es')
    (hunseen : AllOk (requestStep env) (Unseen env) newDb (requestsOf es)) :
    RepliesAlike (requestsOf es) (execSwept env es newDb) (execSwept env es' newDb) := by
  have hleft :=
    execAll_swept sound_newDb (.refl earliest newDb) (fun r _ => earliest_le r.ctx.now)
      hclock hunseen
  have hright :=
    execAll_swept sound_newDb (.refl earliest newDb) (fun r _ => earliest_le r.ctx.now) hclock'
      (hsame ▸ hunseen)
  rw [← hsame] at hright
  exact hleft.symm.trans hright

theorem requestsOf_append : requestsOf (es ++ es') = requestsOf es ++ requestsOf es' := by
  induction es with
  | nil => rfl
  | cons e es ih =>
    cases e with
    | request r => exact congrArg (r :: ·) ih
    | visit _ _ => exact ih

theorem requestsOf_visits (is : List Index) : requestsOf (is.map (.visit now)) = [] := by
  induction is with
  | nil => rfl
  | cons i is ih => exact ih

theorem clockForward_append : ClockForward (es ++ es') ↔ ClockForward es ∧ ClockForward es' ∧
    ∀ e ∈ es, ∀ e' ∈ es', ∀ request, e' = .request request → e.time ≤ request.ctx.now :=
  List.pairwise_append

theorem clockForward_sweepPass : ClockForward (sweepPass now) := by
  refine List.pairwise_map.mpr (List.pairwise_of_forall fun i j request heq => ?_)
  cases heq

theorem clockForward_two {e : SweepEvent} {request : Request} (hle : e.time ≤ request.ctx.now) :
    ClockForward [e, .request request] := by
  refine List.pairwise_pair.mpr fun r heq => ?_
  obtain rfl := SweepEvent.request.inj heq
  exact hle

/-- Visits one after another, each to a shard of its own. -/
theorem execSwept_visits {is : List Index} (hnodup : is.Nodup) (db : Memory) :
    execSwept env (is.map (.visit now) ++ es) db =
      execSwept env es fun i => if i ∈ is then removeKeys (expiredKeys now (db i)) (db i)
        else db i := by
  induction is generalizing db with
  | nil => rfl
  | cons j is ih =>
    obtain ⟨hj, hnodup⟩ := List.nodup_cons.mp hnodup
    rw [List.map_cons, List.cons_append, execSwept, ih hnodup]
    congr 1
    funext i
    by_cases hi : i = j
    · rw [hi, if_neg hj, if_pos List.mem_cons_self, visitShard, Function.update_self]
    · have hmem : i ∈ j :: is ↔ i ∈ is := by simp [hi]
      simp only [hmem, visitShard, Function.update_of_ne hi]

/-- A pass removes the expired entries of every shard. -/
theorem execSwept_pass (db : Memory) : execSwept env (sweepPass now ++ es) db =
    execSwept env es fun i => removeKeys (expiredKeys now (db i)) (db i) := by
  rw [sweepPass, execSwept_visits (List.nodup_finRange shardCount)]
  simp only [List.mem_finRange, if_true]

/-- The second after the deadline of `expires`. -/
def twoSeconds : SystemTime := ⟨2 * 10 ^ 9, by decide⟩

def expires : Request := ⟨plainCtx, .setEx [107] 1 [53]⟩

def getsLate : Request := ⟨⟨twoSeconds, []⟩, .get [107]⟩

def countsLate : Request := ⟨⟨twoSeconds, []⟩, .incr [107]⟩

theorem clockForward_pass {request : Request} (hle : twoSeconds ≤ request.ctx.now) :
    ClockForward ([.request expires] ++ sweepPass twoSeconds ++ [.request request]) := by
  have hfirst : expires.ctx.now ≤ twoSeconds := by decide
  have hexpires : expires.ctx.now ≤ request.ctx.now := Int.le_trans hfirst hle
  refine clockForward_append.mpr
    ⟨clockForward_append.mpr ⟨List.pairwise_singleton _ _, clockForward_sweepPass, ?_⟩,
    List.pairwise_singleton _ _, ?_⟩
  · intro e _ e' he' r heq
    obtain ⟨i, -, rfl⟩ := List.mem_map.mp he'
    cases heq
  · intro e he e' he' r heq
    obtain rfl := List.mem_singleton.mp he'
    obtain rfl := SweepEvent.request.inj heq
    rcases List.mem_append.mp he with hin | hin
    · obtain rfl := List.mem_singleton.mp hin
      exact hexpires
    · obtain ⟨i, -, rfl⟩ := List.mem_map.mp hin
      exact hle

theorem sweeps_unobservable_get :
    RepliesAlike (requestsOf [.request expires, .request getsLate])
      (execSwept plainEnv [.request expires, .request getsLate] newDb)
      (execSwept plainEnv ([.request expires] ++ sweepPass twoSeconds ++ [.request getsLate])
        newDb) := by
  have hfirst : expires.ctx.now ≤ getsLate.ctx.now := by decide
  have hlate : twoSeconds ≤ getsLate.ctx.now := by decide
  have hrequests : requestsOf [.request expires, .request getsLate] =
      requestsOf ([.request expires] ++ sweepPass twoSeconds ++ [.request getsLate]) := by
    rw [requestsOf_append, requestsOf_append, sweepPass, requestsOf_visits]
    rfl
  exact sweeps_unobservable hrequests (clockForward_two hfirst) (clockForward_pass hlate)
    ⟨id, fun _ _ => ⟨id, fun _ _ => trivial⟩⟩

/-- `INCR` counts on from the expired number, if the sweeper has not been there. -/
theorem incr_sees_expired :
    ¬ ∀ (env : Env) (xs ys : List SweepEvent) (now : SystemTime),
      ClockForward (xs ++ sweepPass now ++ ys) →
      RepliesAlike (requestsOf (xs ++ ys)) (execSwept env (xs ++ ys) newDb)
        (execSwept env (xs ++ sweepPass now ++ ys) newDb) := by
  intro h
  have hlate : twoSeconds ≤ countsLate.ctx.now := by decide
  have halike :=
    h plainEnv [.request expires] [.request countsLate] twoSeconds (clockForward_pass hlate)
  have hreplies :
      (execSwept plainEnv ([.request expires] ++ [.request countsLate]) newDb).map Prod.fst =
      some [.reply okReply, .reply (integerReply 6)] := by decide +kernel
  have hreplies' : (execSwept plainEnv ([.request expires] ++ sweepPass twoSeconds ++
      [.request countsLate]) newDb).map Prod.fst =
        some [.reply okReply, .reply (integerReply 1)] := by
    rw [List.append_assoc, List.singleton_append, execSwept]
    simp only [execSwept_pass]
    decide +kernel
  obtain ⟨⟨as, db⟩, hrun, rfl⟩ := Option.map_eq_some_iff.mp hreplies
  obtain ⟨⟨as', db'⟩, hrun', rfl⟩ := Option.map_eq_some_iff.mp hreplies'
  rw [hrun, hrun'] at halike
  cases halike with
  | ends hreplies =>
    cases hreplies with
    | cons _ hrest =>
      cases hrest with
      | cons hreply _ =>
        have hequal := Outcome.reply.inj (hreply.eq rfl)
        exact absurd hequal (by decide)

end Runs

end TitanKv
