import TitanKv.Lib.Observe
import TitanKv.Restarts
import TitanKv.Sharding

/-! # Listings among writes

`KEYS`, `DBSIZE` and `INFO` take the shards one after the other, and other clients and
the sweeper write between two of them. What a listing says is of no one moment: it has
each key that was there all the time, and no key that was there at no time. -/

namespace TitanKv
open Utf8 Runs TwoPhase

section Listing
variable {env : Env} {ctx : Ctx} {s s' : System} {es : List (ReadEvent Event)} {c : Command}
  {a : Outcome}

theorem readsOnce_overShards {β : Type} (f : β → Shard → β) {is seen : List Index} (his : is.Nodup)
    (hseen : ∀ i ∈ is, i ∉ seen) (acc : β) : ReadsOnce seen (overShards f is acc : Arm β) := by
  induction is generalizing seen acc with
  | nil => trivial
  | cons i is ih =>
    obtain ⟨hi, his⟩ := List.nodup_cons.mp his
    refine ⟨hseen i List.mem_cons_self, fun v => ih his (fun j hj hmem => ?_) (f acc v)⟩
    rcases List.mem_cons.mp hmem with rfl | hmem
    · exact hi hj
    · exact hseen j (List.mem_cons_of_mem _ hj) hmem

/-- The commands that go over all shards. -/
def Command.lists : Command → Prop
  | .keys _ | .dbSize | .info => True
  | _ => False

theorem Command.reads_of_lists (h : c.lists) : c.reads := by
  cases c <;> trivial

theorem readsOnce_lists (h : c.lists) : ReadsOnce [] (handle env ctx c) := by
  have hshards {β : Type} (f : β → Shard → β) (acc : β) :
      ReadsOnce [] (overShards f (List.finRange shardCount) acc : Arm β) :=
    readsOnce_overShards f (List.nodup_finRange _) (fun _ _ => List.not_mem_nil) acc
  cases c with
  | keys pattern =>
    show ReadsOnce [] (handleKeys env pattern)
    unfold handleKeys
    split
    · trivial
    · exact ReadsOnce.bind_done (p := getAllKeys) (hshards _ _) _
  | dbSize => exact ReadsOnce.bind_done (p := totalKeys) (hshards _ _) _
  | info => exact ReadsOnce.bind_done (p := totalKeys) (hshards _ _) _
  | _ => exact h.elim

theorem reachable_steps (hs : Reachable (lifeStep env) anyStep System.fresh s) {fs : List Event}
    (hrun : run (step env) s fs = some s') : Reachable (lifeStep env) anyStep System.fresh s' := by
  induction fs generalizing s with
  | nil =>
    obtain rfl := Option.some.inj hrun
    exact hs
  | cons e fs ih =>
    obtain ⟨s₁, he, hrest⟩ := Option.bind_eq_some_iff.mp hrun
    exact ih (hs.step (e := .step e) trivial he) hrest

/-- The states of the server while the command runs. -/
abbrev During (env : Env) (ctx : Ctx) (c : Command) (s : System) (es : List (ReadEvent Event)) :
    System → Prop :=
  Passes (step env) System.db ⟨s, handle env ctx c⟩ es

theorem during_reachable (hs : Reachable (lifeStep env) anyStep System.fresh s) {t : System}
    (ht : During env ctx c s es t) : Reachable (lifeStep env) anyStep System.fresh t := by
  obtain ⟨fs, rest, -, hrun⟩ := ht
  obtain ⟨fs, hfs⟩ := readStep_state hrun
  exact reachable_steps hs hfs

/-- The keys of a database, each once, of which one found in all states of the run is
listed, and one found in none is not. -/
structure ListsRun (env : Env) (states : System → Prop) (db : Memory) : Prop where
  nodup : (allKeys db).Nodup
  listed : ∀ key, (∀ t, states t → key ∈ allKeys t.db) → key ∈ allKeys db
  present : ∀ key ∈ allKeys db, ∃ t, states t ∧ key ∈ allKeys t.db

/-- A listing answers as on a database at rest, which lists the keys of the run. -/
theorem listing (hs : Reachable (lifeStep env) anyStep System.fresh s) (hc : c.lists)
    (hrun : run (readStep (step env) System.db) ⟨s, handle env ctx c⟩ es = some ⟨s', .done a⟩) :
    ∃ db, ListsRun env (During env ctx c s es) db ∧
      (handle env ctx c).run db = some (a, db, []) := by
  obtain ⟨db, hcells, hdb⟩ :=
    observed (readOnly_handle env ctx (Command.reads_of_lists hc)) (readsOnce_lists hc) hrun
  have hrouted {t : System} (ht : During env ctx c s es t) : Routed env t.db :=
    (sound_reachable (during_reachable hs ht)).routed
  have hdbrouted : Routed env db := by
    intro i key hkey
    obtain ⟨t, ht, hi⟩ := hcells i
    exact hrouted ht i key (hi ▸ hkey)
  refine ⟨db, ⟨nodup_allKeys hdbrouted, fun key hall => ?_, fun key hkey => ?_⟩, hdb⟩
  · obtain ⟨t, ht, hi⟩ := hcells (calculateShardIndex env key)
    obtain ⟨j, hj⟩ := mem_allKeys.mp (hall t ht)
    obtain rfl := hrouted ht j key hj
    exact mem_allKeys.mpr ⟨_, hi ▸ hj⟩
  · obtain ⟨i, hkey⟩ := mem_allKeys.mp hkey
    obtain ⟨t, ht, hi⟩ := hcells i
    exact ⟨t, ht, mem_allKeys.mpr ⟨i, hi ▸ hkey⟩⟩

/-- Keys in the shards of their lengths, and every pattern matches. -/
def byLength : Env := ⟨fun key => key.length.toUInt64, fun _ => some fun _ => true, []⟩

/-- One key is deleted after its shard is read, another is set before its shard is. -/
def acrossWrites : List (ReadEvent Event) :=
  List.replicate 6 .advance ++
    [.other (.command ⟨plainCtx, .del [107]⟩), .other (.command ⟨plainCtx, .set [107, 107] [118]⟩)]

theorem acrossWrites_ends (h : c.lists) : ∃ s s' n a,
    run (lifeStep byLength) System.fresh [.step (.command ⟨plainCtx, .set [107] [118]⟩)] = some s ∧
    run (readStep (step byLength) System.db) ⟨s, handle byLength plainCtx c⟩
      (acrossWrites ++ List.replicate n .advance) = some ⟨s', .done a⟩ := by
  obtain ⟨s, hs⟩ : ∃ s,
      run (lifeStep byLength) System.fresh [.step (.command ⟨plainCtx, .set [107] [118]⟩)] =
      some s :=
    ⟨_, rfl⟩
  obtain ⟨r, hr⟩ : ∃ r, run (readStep (step byLength) System.db) ⟨s,
      handle byLength plainCtx c⟩ acrossWrites = some r := by
    obtain rfl := Option.some.inj hs
    cases c with
    | keys pattern | dbSize | info => exact ⟨_, rfl⟩
    | _ => exact h.elim
  obtain ⟨n, a, hends⟩ :=
    readOnly_ends (readOnly_handle byLength plainCtx (Command.reads_of_lists h)) hr
  exact ⟨s, r.state, n, a, hs, hends⟩

/-- A `KEYS` that other clients write during lists each key once. It lists a matching key
that is there all the time, and none that is there at no time. -/
theorem keys_among_writes {pattern : Bytes} {isMatch : Text → Bool}
    (hs : Reachable (lifeStep env) anyStep System.fresh s)
    (hpattern : env.regex (globRegex (bytesToStr pattern)) = some isMatch)
    (hrun : run (readStep (step env) System.db) ⟨s, handle env ctx (.keys pattern)⟩ es =
      some ⟨s', .done a⟩) :
    ∃ keys, a = .reply (bulkArray keys) ∧ keys.Nodup ∧
      (∀ key, keyMatches isMatch key = true →
        (∀ t, During env ctx (.keys pattern) s es t → key ∈ allKeys t.db) →
        key ∈ keys) ∧
      ∀ key ∈ keys, keyMatches isMatch key = true ∧ ∃ t, During env ctx (.keys pattern) s es t ∧
        key ∈ allKeys t.db := by
  obtain ⟨db, hlisted, hdb⟩ := listing hs (c := .keys pattern) trivial hrun
  simp only [handle, handleKeys, hpattern, Prog.run_bind, run_getAllKeys] at hdb
  obtain ⟨ha, -⟩ := Prod.mk.inj (Option.some.inj hdb)
  refine ⟨(allKeys db).filter (keyMatches isMatch), ha.symm, hlisted.nodup.filter _,
    fun key hmatch hall => ?_, fun key hkey => ?_⟩
  · exact List.mem_filter.mpr ⟨hlisted.listed key hall, hmatch⟩
  · obtain ⟨hkey, hmatch⟩ := List.mem_filter.mp hkey
    exact ⟨hmatch, hlisted.present key hkey⟩

theorem keys_among_writes_moved : ∃ s s' n a keys,
    run (lifeStep byLength) System.fresh [.step (.command ⟨plainCtx, .set [107] [118]⟩)] = some s ∧
    run (readStep (step byLength) System.db) ⟨s, handle byLength plainCtx (.keys [42])⟩
      (acrossWrites ++ List.replicate n .advance) = some ⟨s', .done a⟩ ∧
    a = .reply (bulkArray keys) ∧ keys.Nodup ∧ ∀ key ∈ keys, ∃ t,
      During byLength plainCtx (.keys [42]) s (acrossWrites ++ List.replicate n .advance) t ∧
        key ∈ allKeys t.db := by
  obtain ⟨s, s', n, a, hs, hrun⟩ := acrossWrites_ends (c := .keys [42]) trivial
  obtain ⟨keys, ha, hnodup, -, hpresent⟩ := keys_among_writes (.run .init _ hs)
    (show byLength.regex (globRegex (bytesToStr [42])) = some _ from rfl) hrun
  exact ⟨s, s', n, a, keys, hs, hrun, ha, hnodup, fun key hkey => (hpresent key hkey).2⟩

/-- The number that `DBSIZE` and `INFO` reply: no less than there are keys that stay, no
more than there are keys that ever were. -/
theorem count_among_writes (hs : Reachable (lifeStep env) anyStep System.fresh s)
    (hc : c = .dbSize ∨ c = .info)
    (hrun : run (readStep (step env) System.db) ⟨s, handle env ctx c⟩ es = some ⟨s', .done a⟩) :
    ∃ n, (∀ db : Memory, (allKeys db).length = n → (handle env ctx c).run db = some (a, db, [])) ∧
      (∀ stay : List Bytes, stay.Nodup →
        (∀ key ∈ stay, ∀ t, During env ctx c s es t → key ∈ allKeys t.db) →
        stay.length ≤ n) ∧
      ∀ ever : List Bytes, (∀ t, During env ctx c s es t → ∀ key ∈ allKeys t.db, key ∈ ever) →
        n ≤ ever.length := by
  obtain ⟨db, hlisted, hdb⟩ := listing hs (by rcases hc with rfl | rfl <;> trivial) hrun
  refine ⟨(allKeys db).length, fun other hother => ?_, fun stay hnodup hstay => ?_,
    fun ever hever => ?_⟩
  · rcases hc with rfl | rfl
    · simp only [handle, handleDbSize, Prog.run_bind, run_totalKeys, hother] at hdb ⊢
      obtain ⟨rfl, -⟩ := Prod.mk.inj (Option.some.inj hdb)
      rfl
    · obtain ⟨respond, hrespond⟩ := run_handleInfo env ctx
      rw [handle, hrespond] at hdb ⊢
      obtain ⟨rfl, -⟩ := Prod.mk.inj (Option.some.inj hdb)
      rw [hother]
  · exact (hnodup.subperm fun key hkey => hlisted.listed key (hstay key hkey)).length_le
  · refine (hlisted.nodup.subperm fun key hkey => ?_).length_le
    obtain ⟨t, ht, hkey⟩ := hlisted.present key hkey
    exact hever t ht key hkey

theorem count_among_writes_moved : ∃ s s' m a n,
    run (lifeStep byLength) System.fresh [.step (.command ⟨plainCtx, .set [107] [118]⟩)] = some s ∧
    run (readStep (step byLength) System.db) ⟨s, handle byLength plainCtx .dbSize⟩
      (acrossWrites ++ List.replicate m .advance) = some ⟨s', .done a⟩ ∧
    (∀ db : Memory, (allKeys db).length = n →
      (handle byLength plainCtx .dbSize).run db = some (a, db, [])) ∧
    ∀ ever : List Bytes,
      (∀ t, During byLength plainCtx .dbSize s (acrossWrites ++ List.replicate m .advance) t →
      ∀ key ∈ allKeys t.db, key ∈ ever) → n ≤ ever.length := by
  obtain ⟨s, s', m, a, hs, hrun⟩ := acrossWrites_ends (c := .dbSize) trivial
  obtain ⟨n, hreply, -, hever⟩ := count_among_writes (.run .init _ hs) (Or.inl rfl) hrun
  exact ⟨s, s', m, a, n, hs, hrun, hreply, hever⟩

end Listing

end TitanKv
