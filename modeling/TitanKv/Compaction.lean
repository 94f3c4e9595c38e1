import TitanKv.Torn

/-! # Compaction and replay of the compacted file

The compactor writes each shard as commands that rebuild it. Replay gives the
live part of the database back exactly where every key and field is a word,
every value is quotable text and no collection is empty. For the only-if part,
what replay builds is bounded first: from any file it builds quotable strings
only, and from lines of quotable strings only keys and fields without blanks. -/

namespace TitanKv
open Utf8 Local TwoPhase

/-- The shards, every key in the shard its hash selects. -/
structure Database (env : Env) where
  shards : Memory
  routed : ∀ i key, key ∈ shards i → calculateShardIndex env key = i

section Format
variable (now : Bytes → SystemTime)

/-- The lines the compactor writes for an entry. A clock is read for each
deadline; a deadline that has passed leaves no line. -/
def entryText (now : SystemTime) (key : Bytes) (entry : Entry) : Text :=
  let k := bytesToStr key
  match entry.value with
  | .string val =>
    let v := bytesToStr val
    match entry.expiresAt with
    | some expiration => match expiration.durationSince now with
      | some duration =>
        formatLine "SETEX" [k, Decimal.printNat (duration / 10 ^ 9), quoted v]
      | none => []
    | none => formatLine "SET" [k, quoted v]
  | .list list => list.reverse.flatMap fun item =>
    formatLine "LPUSH" [k, quoted (bytesToStr item)]
  | .hash hmap => hmap.entries.flatMap fun e =>
    formatLine "HSET" [k, bytesToStr e.1, quoted (bytesToStr e.2)]
  | .set set => set.entries.flatMap fun e => formatLine "SADD" [k, quoted (bytesToStr e.1)]

def shardText (map : Shard) : Text := map.entries.flatMap fun e => entryText (now e.1) e.1 e.2

/-- The text of all shards in index order. -/
def compactText (db : Memory) : Text :=
  (List.finRange shardCount).flatMap fun i => shardText now (db i)

/-- An entry as it is seen at `now`: not at all once its deadline has passed. -/
def Entry.liveItem (now : SystemTime) (entry : Entry) : Option Item :=
  match entry.expiresAt with
  | some expiration => if now ≤ expiration then some entry.item else none
  | none => some entry.item

/-- The keyspace of the entries whose deadline has not passed. -/
def live (env : Env) (db : Memory) : Keyspace := fun key =>
  ((db (calculateShardIndex env key)).lookup key).bind (Entry.liveItem (now key))

/-- The commands that rebuild an entry, as verb and arguments. -/
def entryLines (now : SystemTime) (key : Bytes) (entry : Entry) : List (Verb × List Arg) :=
  match entry.value with
  | .string val => match entry.expiresAt with
    | some expiration => match expiration.durationSince now with
      | some duration => [(.setEx, [.bare key, .number (duration / 10 ^ 9 : Nat), .quoted val])]
      | none => []
    | none => [(.set, [.bare key, .quoted val])]
  | .list list => list.reverse.map fun item => (.lPush, [.bare key, .quoted item])
  | .hash hmap => hmap.entries.map fun e => (.hSet, [.bare key, .bare e.1, .quoted e.2])
  | .set set => set.entries.map fun e => (.sAdd, [.bare key, .quoted e.1])

def linesText (lines : List (Verb × List Arg)) : Text :=
  lines.flatMap fun line => lineText line.1 line.2 ++ ['\n']

theorem entryText_eq (now : SystemTime) (key : Bytes) (entry : Entry) :
    entryText now key entry = linesText (entryLines now key entry) := by
  have hnat : ∀ n : Nat, Decimal.printNat n = Decimal.printInt n := fun n => by
    simp [Decimal.printInt]
  have hline : ∀ (verb : Verb) (args : List Arg), formatLine verb.name (args.map Arg.written) =
      linesText [(verb, args)] := fun verb args => by simp [linesText, formatLine_written]
  obtain ⟨value, expiresAt⟩ := entry
  cases value with
  | string val =>
    cases expiresAt with
    | none => exact hline .set [.bare key, .quoted val]
    | some expiration =>
      cases hd : expiration.durationSince now with
      | none => simp [entryText, entryLines, hd, linesText]
      | some duration =>
        simp only [entryText, entryLines, hd, hnat]
        exact hline .setEx [.bare key, .number (duration / 10 ^ 9 : Nat), .quoted val]
  | list list =>
    simp only [entryText, entryLines, linesText, List.flatMap_map]
    exact List.flatMap_congr fun item _ => formatLine_written .lPush [.bare key, .quoted item]
  | hash hmap =>
    simp only [entryText, entryLines, linesText, List.flatMap_map]
    exact List.flatMap_congr fun e _ => formatLine_written .hSet [.bare key, .bare e.1, .quoted e.2]
  | set set =>
    simp only [entryText, entryLines, linesText, List.flatMap_map]
    exact List.flatMap_congr fun e _ => formatLine_written .sAdd [.bare key, .quoted e.1]

/-- The entries of all shards in index order. -/
def allEntries (db : Memory) : List (Σ _ : Bytes, Entry) :=
  (List.finRange shardCount).flatMap fun i => (db i).entries

/-- The lines of the compacted file. -/
def compactLines (db : Memory) : List (Verb × List Arg) :=
  (allEntries db).flatMap fun e => entryLines (now e.1) e.1 e.2

theorem compactText_eq (db : Memory) : compactText now db = linesText (compactLines now db) := by
  simp only [compactText, shardText, compactLines, allEntries, linesText, List.flatMap_assoc]
  refine List.flatMap_congr fun i _ => List.flatMap_congr fun e _ => ?_
  exact entryText_eq (now e.1) e.1 e.2

end Format

section Entries
variable {env : Env} (db : Database env)

theorem nodupKeys_allEntries : (allEntries db.shards).NodupKeys := by
  rw [allEntries, List.flatMap, List.nodupKeys_flatten]
  constructor
  · intro l hl
    obtain ⟨i, -, rfl⟩ := List.mem_map.mp hl
    exact (db.shards i).nodupKeys
  · rw [List.map_map, List.pairwise_map]
    refine (List.nodup_finRange shardCount).imp fun hij => ?_
    intro key hi hj
    exact hij ((db.routed _ key hi).symm.trans (db.routed _ key hj))

theorem mem_allEntries {key : Bytes} {entry : Entry} :
    ⟨key, entry⟩ ∈ allEntries db.shards ↔
      (db.shards (calculateShardIndex env key)).lookup key = some entry := by
  have hmem : ∀ i, (⟨key, entry⟩ : Σ _ : Bytes, Entry) ∈ (db.shards i).entries ↔
      (db.shards i).lookup key = some entry := fun i =>
    (List.mem_dlookup_iff (db.shards i).nodupKeys).symm
  simp only [allEntries, List.mem_flatMap, List.mem_finRange, true_and, hmem]
  constructor
  · rintro ⟨i, hi⟩
    have hin : key ∈ db.shards i := AList.lookup_isSome.mp (by simp [hi])
    rwa [db.routed i key hin]
  · exact fun h => ⟨_, h⟩

theorem dlookup_allEntries (key : Bytes) :
    (allEntries db.shards).dlookup key =
      (db.shards (calculateShardIndex env key)).lookup key :=
  Option.ext fun _ => (List.mem_dlookup_iff (nodupKeys_allEntries db)).trans (mem_allEntries db)

end Entries

section Bounds
variable {K V : Bytes → Prop} {c : Command} {ks : Keyspace} {Q : Value → Prop}

/-- The strings of a value: fields satisfy `K`, all others `V`. -/
def Value.Holds (K V : Bytes → Prop) : Value → Prop
  | .string val => V val
  | .list vals => ∀ x ∈ vals, V x
  | .hash fields => ∀ f v, fields f = some v → K f ∧ V v
  | .set members => ∀ x ∈ members, V x

def Value.Inhabited : Value → Prop
  | .string _ => True
  | .list vals => vals ≠ []
  | .hash fields => ∃ f, (fields f).isSome
  | .set members => members.Nonempty

/-- Every key satisfies `K` and every value `Q`. -/
def Keyspace.All (K : Bytes → Prop) (Q : Value → Prop) (ks : Keyspace) : Prop :=
  ∀ key item, ks key = some item → K key ∧ Q item.value

/-- The strings a write command brings in. -/
def Command.Holds (K V : Bytes → Prop) : Command → Prop
  | .set k v | .setEx k _ v | .lPush k v | .rPush k v | .sAdd k v => K k ∧ V v
  | .hSet k f v => K k ∧ K f ∧ V v
  | .incr k => K k
  | .rPopLPush _ d => K d
  | _ => True

/-- A command of a compacted line, or none that changes the keyspace. -/
def Command.Rebuilds : Command → Prop
  | .del _ | .incr _ | .rPush _ _ | .lPop _ | .rPop _ | .lRem _ _ _ | .rPopLPush _ _ => False
  | _ => True

namespace Keyspace

theorem All.empty : Keyspace.empty.All K Q := fun _ _ h => by cases h

theorem All.onKey {h : Option Item → Option Item} {key : Bytes} (hks : ks.All K Q)
    (hnew : ∀ item, h (ks key) = some item → K key ∧ Q item.value) : All K Q (onKey h key ks) :=
  onKey_all (P := fun k (o : Option Item) => ∀ item, o = some item → K k ∧ Q item.value) hks hnew

/-- A collection command keeps `Q` if its change of the value makes or keeps it. -/
theorem All.alter {empty : Value} {f : Value → Option Value} {key : Bytes} (hks : ks.All K Q)
    (hkey : K key) (hf : ∀ v v', v = empty ∨ Q v → f v = some v' → Q v')
    (hempty : f empty = none → Q empty) :
    All K Q (Local.onKey (Item.alter empty f) key ks) := by
  refine hks.onKey fun item hitem => ⟨hkey, ?_⟩
  obtain rfl := Option.some.inj hitem
  dsimp only
  have hold : ((ks key).getD ⟨empty, false⟩).value = empty ∨
      Q ((ks key).getD ⟨empty, false⟩).value := by
    cases hk : ks key with
    | none => exact Or.inl rfl
    | some old => exact Or.inr (hks key old hk).2
  cases hfv : f ((ks key).getD ⟨empty, false⟩).value with
  | some v' => exact hf _ v' hold hfv
  | none =>
    rcases hold with hold | hold
    · rw [hold] at hfv ⊢
      exact hempty hfv
    · exact hold

theorem All.onList {f : List Bytes → List Bytes} {key : Bytes} (hks : ks.All K Q)
    (hf : ∀ vals, Q (.list vals) → Q (.list (f vals))) :
    All K Q (Local.onKey (Item.onList f) key ks) := by
  refine hks.onKey fun item hitem => ?_
  cases hk : ks key with
  | none => simp [hk, Item.onList] at hitem
  | some old =>
    obtain ⟨hkey, hold⟩ := hks key old hk
    obtain ⟨value, expires⟩ := old
    cases value with
    | list vals =>
      rw [hk] at hitem
      obtain rfl := Option.some.inj hitem
      exact ⟨hkey, hf vals hold⟩
    | _ =>
      rw [hk] at hitem
      obtain rfl := Option.some.inj hitem
      exact ⟨hkey, hold⟩

theorem All.push {f : List Bytes → List Bytes} {key : Bytes} (hks : ks.All K (Value.Holds K V))
    (hkey : K key) (hf : ∀ vals, (∀ x ∈ vals, V x) → ∀ x ∈ f vals, V x) :
    All K (Value.Holds K V)
      (Local.onKey (Item.alter (.list []) (Item.changeList f)) key ks) := by
  refine hks.alter hkey (fun v v' hv hfv => ?_) (by simp [Item.changeList])
  cases v with
  | list vals =>
    obtain rfl := Option.some.inj hfv
    refine hf vals ?_
    rcases hv with hv | hv
    · obtain rfl := Value.list.inj hv
      simp
    · exact hv
  | _ => cases hfv

/-- A command adds no strings but its own and decimal numbers. -/
theorem All.apply_holds (hks : ks.All K (Value.Holds K V)) (hc : c.Holds K V)
    (hdec : ∀ z, V (decimal z)) : (Keyspace.apply c ks).All K (Value.Holds K V) := by
  cases c with
  | set k v =>
    refine hks.onKey fun item hitem => ?_
    obtain rfl := Option.some.inj hitem
    exact hc
  | setEx k s v =>
    refine hks.onKey fun item hitem => ?_
    obtain rfl := Option.some.inj hitem
    exact hc
  | del k => exact hks.onKey fun item hitem => by cases hitem
  | incr k =>
    refine hks.onKey fun item hitem => ?_
    obtain rfl := Option.some.inj hitem
    exact ⟨hc, hdec _⟩
  | lPush k v =>
    exact hks.push hc.1 fun vals hv => List.forall_mem_cons.mpr ⟨hc.2, hv⟩
  | rPush k v =>
    exact hks.push hc.1 fun vals hv => List.forall_mem_append.mpr ⟨hv, by simpa using hc.2⟩
  | lPop k => exact hks.onList fun vals h x hx => h x (List.mem_of_mem_tail hx)
  | rPop k => exact hks.onList fun vals h x hx => h x (List.dropLast_subset vals hx)
  | hSet k f v =>
    refine hks.alter hc.1 (fun value value' hv hfv => ?_) (by simp [Item.insertField])
    cases value with
    | hash fields =>
      obtain rfl := Option.some.inj hfv
      have hfields : ∀ g w, fields g = some w → K g ∧ V w := by
        rcases hv with hv | hv
        · obtain rfl := Value.hash.inj hv
          intro g w hg
          cases hg
        · exact hv
      intro g w hg
      by_cases he : g = f
      · subst he
        rw [Function.update_self] at hg
        obtain rfl := Option.some.inj hg
        exact hc.2
      · rw [Function.update_of_ne he] at hg
        exact hfields g w hg
    | _ => cases hfv
  | sAdd k m =>
    refine hks.alter hc.1 (fun value value' hv hfv => ?_) (by simp [Item.insertMember])
    cases value with
    | set members =>
      obtain rfl := Option.some.inj hfv
      have hmembers : ∀ x ∈ members, V x := by
        rcases hv with hv | hv
        · obtain rfl := Value.set.inj hv
          simp
        · exact hv
      intro x hx
      rcases hx with rfl | hx
      · exact hc.2
      · exact hmembers x hx
    | _ => cases hfv
  | lRem k n v => exact hks.onList fun vals h x hx => h x (List.mem_of_mem_erase hx)
  | rPopLPush s d =>
    simp only [Keyspace.apply, move]
    cases hlast : Item.last? (ks s) with
    | none => exact hks
    | some val =>
      have hval : V val := by
        unfold Item.last? at hlast
        split at hlast
        · rename_i heq
          exact (hks s _ heq).2 val (List.mem_of_getLast? hlast)
        · cases hlast
      have hpop : All K (Value.Holds K V) (Local.onKey (Item.onList List.dropLast) s ks) :=
        hks.onList fun vals h x hx => h x (List.dropLast_subset vals hx)
      exact hpop.push hc fun vals hv => List.forall_mem_cons.mpr ⟨hval, hv⟩
  | _ => exact hks

/-- The commands of compacted lines make no collection empty. -/
theorem All.apply_inhabited (hks : ks.All K Value.Inhabited) (hc : c.Rebuilds)
    (hkey : c.Holds K V) :
    (Keyspace.apply c ks).All K Value.Inhabited := by
  cases c with
  | set k v =>
    refine hks.onKey fun item hitem => ?_
    obtain rfl := Option.some.inj hitem
    exact ⟨hkey.1, trivial⟩
  | setEx k s v =>
    refine hks.onKey fun item hitem => ?_
    obtain rfl := Option.some.inj hitem
    exact ⟨hkey.1, trivial⟩
  | lPush k v =>
    refine hks.alter hkey.1 (fun value value' _ hfv => ?_) (by simp [Item.changeList])
    cases value with
    | list vals =>
      obtain rfl := Option.some.inj hfv
      exact List.cons_ne_nil v vals
    | _ => cases hfv
  | hSet k f v =>
    refine hks.alter hkey.1 (fun value value' _ hfv => ?_) (by simp [Item.insertField])
    cases value with
    | hash fields =>
      obtain rfl := Option.some.inj hfv
      exact ⟨f, by simp⟩
    | _ => cases hfv
  | sAdd k m =>
    refine hks.alter hkey.1 (fun value value' _ hfv => ?_) (by simp [Item.insertMember])
    cases value with
    | set members =>
      obtain rfl := Option.some.inj hfv
      exact ⟨m, Set.mem_insert m members⟩
    | _ => cases hfv
  | del k | incr k | rPush k v | lPop k | rPop k | lRem k n v | rPopLPush s d => cases hc
  | _ => exact hks

/-- A run of commands keeps what each of them keeps. -/
theorem All.run {commands : List Command}
    (h : ∀ c ∈ commands, ∀ ks : Keyspace, ks.All K Q → (Keyspace.apply c ks).All K Q)
    (hks : ks.All K Q) : (applyAll commands ks).All K Q := by
  induction commands generalizing ks with
  | nil => exact hks
  | cons c commands ih =>
    exact ih (fun c' hc' => h c' (List.mem_cons_of_mem _ hc')) (h c (by simp) ks hks)

end Keyspace

end Bounds

section Files
variable {t : Text} {c : Command}

theorem quotable_decimal (z : Int) : Arg.Quotable (decimal z) :=
  ⟨Decimal.printInt z, decode?_encode _, Decimal.printInt_ne_nil z,
    notMem_of_plain (fun _ => isPlain_of_mem_printInt) rfl,
    notMem_of_plain (fun _ => isPlain_of_mem_printInt) rfl⟩

/-- The strings of a write command are its arguments. -/
theorem holds_of_args {K : Bytes → Prop}
    (h : ∀ verb args, c.writes = some (verb, args) →
      ∀ b, .bare b ∈ args ∨ .quoted b ∈ args → K b) : c.Holds K K := by
  cases c with
  | incr k => exact h _ _ rfl k (by simp)
  | rPopLPush s d => exact h _ _ rfl d (by simp)
  | hSet k f v => exact ⟨h _ _ rfl k (by simp), h _ _ rfl f (by simp), h _ _ rfl v (by simp)⟩
  | set k v | setEx k s v | lPush k v | rPush k v | sAdd k v =>
    exact ⟨h _ _ rfl k (by simp), h _ _ rfl v (by simp)⟩
  | _ => trivial

theorem newline_notMem_lineContent {piece : Text} (h : piece ∈ Lines.split '\n' t) :
    '\n' ∉ lineContent piece := by
  obtain ⟨body, hbody, rfl | ⟨rfl, -⟩⟩ := Lines.mem_split h
  · exact fun hm => hbody (mem_lineContent hm)
  · have hlast : piece.getLast? ≠ some '\n' := fun hl => hbody (List.mem_of_getLast? hl)
    simpa [lineContent, stripLast, hlast] using hbody

/-- Whatever the file, the strings its commands bring in are quotable. -/
theorem aofCommands_quotable (h : c ∈ aofCommands (encode t)) :
    c.Holds Arg.Quotable Arg.Quotable := by
  rw [aofCommands_encode] at h
  obtain ⟨piece, hpiece, rfl⟩ := List.mem_map.mp h
  have hnl := newline_notMem_lineContent hpiece
  refine holds_of_args fun verb args hw b hb => ?_
  obtain ⟨word, rest, htokens, -, hreads⟩ := parseCommand_inv hw
  have htoken : b ∈ tokenize (lineContent piece) := by
    rw [htokens]
    refine List.mem_cons_of_mem _ ?_
    rcases hb with hb | hb
    all_goals
      obtain ⟨x, hx, rfl⟩ := forall₂_mem hreads hb
      exact hx
  obtain ⟨s, rfl, hne, hq, hmem⟩ := mem_tokenize htoken
  exact ⟨s, decode?_encode s, hne, fun hm => hnl (hmem _ hm), hq⟩

variable {env : Env} {clock : Nat → SystemTime} {db : Memory}

theorem replayAof_holds (h : replayAof env clock (encode t) = some db) :
    (view env db).All Arg.Quotable (Value.Holds Arg.Quotable Arg.Quotable) := by
  rw [view_replayAll env h, view_newDb]
  exact .run (fun c hc ks hks => hks.apply_holds (aofCommands_quotable hc) quotable_decimal) .empty

end Files

section Rebuilt
variable {verb : Verb} {init : List Arg} {val : Bytes}

/-- The lines of a compacted file: a verb, a key, for a hash a field, and a
quoted value. -/
def RebuildLine (line : Verb × List Arg) : Prop :=
  line.1 ∈ [Verb.set, .setEx, .lPush, .hSet, .sAdd] ∧
    ∃ init val, line.2 = init ++ [.quoted val] ∧ init ≠ [] ∧ ∀ arg ∈ init, arg.isQuoted = false

/-- The strings of an argument. -/
def Arg.Holds (V : Bytes → Prop) : Arg → Prop
  | .bare b => V b
  | .quoted b => V b
  | .number _ => True

theorem Arg.Holds.textual {arg : Arg} (h : arg.Holds Arg.Quotable) : arg.Textual := by
  cases arg with
  | bare b =>
    obtain ⟨t, ht, hne, -, hq⟩ := h
    exact ⟨t, (encode_of_decode? ht).symm, hne, hq⟩
  | quoted b =>
    obtain ⟨t, ht, hne, -, hq⟩ := h
    exact ⟨t, (encode_of_decode? ht).symm, hne, hq⟩
  | number z => trivial

theorem Arg.Holds.newline {arg : Arg} (h : arg.Holds Arg.Quotable) : '\n' ∉ arg.written := by
  cases arg with
  | bare b => obtain ⟨t, ht, -, hn, -⟩ := h; simpa [written, bytesToStr, ht] using hn
  | quoted b =>
    exact (show Arg.Readable (.quoted b) from h).newline
  | number z => exact notMem_of_plain (fun _ => isPlain_of_mem_printInt) rfl

/-- The tokens of quote-free arguments after a verb are words. -/
theorem tokenize_unquoted (verb : Verb) (h : ∀ arg ∈ init, arg.Textual)
    (hq : ∀ arg ∈ init, arg.isQuoted = false) (hne : init ≠ []) :
    ∃ words, tokenize (lineText verb init) = lit verb.name :: words ∧ ∀ w ∈ words, Arg.Bare w := by
  obtain ⟨arg, args, rfl⟩ := List.exists_cons_of_ne_nil hne
  have hquote := quote_notMem_lineText verb h hq
  have hline : lineText verb (arg :: args) =
      verb.name.toList ++ ' ' :: (arg.written ++ argsText args) := by
    simp [lineText, argsText]
  rw [hline] at hquote ⊢
  refine ⟨_, tokenize_name verb _, fun w hw => ?_⟩
  obtain ⟨s, rfl, hs, hplain⟩ := mem_tokenizeFrom_plain (by simp)
    (fun hm => hquote (List.mem_append_right _ (List.mem_cons_of_mem _ hm))) hw
  exact bare_of_plain hs hplain

/-- The command of words and a quoted value behind one of the five verbs. -/
theorem parseArgs_rebuild {words : List Bytes}
    (hverb : verb ∈ [Verb.set, .setEx, .lPush, .hSet, .sAdd]) (hw : ∀ w ∈ words, Arg.Bare w)
    (hval : Arg.Quotable val) :
    (parseArgs (some verb) (words ++ [val])).Holds Arg.Bare Arg.Quotable ∧
      (parseArgs (some verb) (words ++ [val])).Rebuilds := by
  simp only [List.mem_cons, List.not_mem_nil, or_false] at hverb
  rcases words with _ | ⟨a, _ | ⟨b, _ | ⟨d, ws⟩⟩⟩
  · rcases hverb with rfl | rfl | rfl | rfl | rfl <;> exact ⟨trivial, trivial⟩
  · have ha := hw a (by simp)
    rcases hverb with rfl | rfl | rfl | rfl | rfl
    · exact ⟨⟨ha, hval⟩, trivial⟩
    · exact ⟨trivial, trivial⟩
    · exact ⟨⟨ha, hval⟩, trivial⟩
    · exact ⟨trivial, trivial⟩
    · exact ⟨⟨ha, hval⟩, trivial⟩
  · have ha := hw a (by simp)
    rcases hverb with rfl | rfl | rfl | rfl | rfl
    · exact ⟨trivial, trivial⟩
    · show (parseArgs (some .setEx) [a, b, val]).Holds _ _ ∧
        (parseArgs (some .setEx) [a, b, val]).Rebuilds
      cases hb : parseI64 b with
      | none =>
        rw [parseArgs_setEx_of_none hb]
        exact ⟨trivial, trivial⟩
      | some seconds =>
        rw [parseArgs_setEx_of_some hb]
        exact ⟨⟨ha, hval⟩, trivial⟩
    · exact ⟨trivial, trivial⟩
    · exact ⟨⟨ha, hw b (by simp), hval⟩, trivial⟩
    · exact ⟨trivial, trivial⟩
  · rcases hverb with rfl | rfl | rfl | rfl | rfl <;> cases ws <;> exact ⟨trivial, trivial⟩

theorem rebuildLine_command {line : Verb × List Arg} (h : RebuildLine line)
    (hargs : ∀ arg ∈ line.2, arg.Holds Arg.Quotable) :
    (lineCommand (lineText line.1 line.2 ++ ['\n'])).Holds Arg.Bare Arg.Quotable ∧
      (lineCommand (lineText line.1 line.2 ++ ['\n'])).Rebuilds := by
  obtain ⟨verb, args⟩ := line
  obtain ⟨hverb, init, val, rfl, hne, hq⟩ := h
  have htextual : ∀ arg ∈ init, arg.Textual := fun arg ha => (hargs arg (by simp [ha])).textual
  have hval := hargs (.quoted val) (by simp)
  obtain ⟨words, hwords, hbare⟩ := tokenize_unquoted verb htextual hq hne
  rw [lineCommand, lineContent_quoted,
    tokenize_quoted (quote_notMem_lineText verb htextual hq) hval.textual, hwords, List.cons_append,
    parseCommand, uppercase_name, Verb.of?_lit]
  exact parseArgs_rebuild hverb hbare hval

/-- Lines of quotable strings are read one command each. -/
theorem aofCommands_linesText {lines : List (Verb × List Arg)}
    (h : ∀ line ∈ lines, ∀ arg ∈ line.2, '\n' ∉ arg.written) :
    aofCommands (encode (linesText lines)) =
      lines.map fun line => lineCommand (lineText line.1 line.2 ++ ['\n']) := by
  induction lines with
  | nil => rfl
  | cons line lines ih =>
    rw [linesText, List.flatMap_cons, List.append_assoc, List.singleton_append,
      aofCommands_line (newline_notMem_lineText (h line (by simp)))]
    exact congrArg _ (ih fun l hl => h l (List.mem_cons_of_mem _ hl))

end Rebuilt

section EntryLines
variable {now : SystemTime} {key : Bytes} {entry : Entry} {line : Verb × List Arg}

/-- Only strings carry deadlines. -/
def Entry.OnlyStringExpires (entry : Entry) : Prop :=
  entry.expiresAt ≠ none → ∃ val, entry.value = .string val

def OnlyStringsExpire (db : Memory) : Prop :=
  ∀ i key entry, (db i).lookup key = some entry → entry.OnlyStringExpires

theorem durationSince_eq_some {t earlier : SystemTime} (h : earlier ≤ t) :
    t.durationSince earlier = some (t.nanos - earlier.nanos).toNat := by
  simp [SystemTime.durationSince, h]

theorem durationSince_eq_none {t earlier : SystemTime} (h : ¬ earlier ≤ t) :
    t.durationSince earlier = none := by
  simp [SystemTime.durationSince, h]

/-- An entry that leaves a line is live. -/
theorem liveItem_of_line (hs : entry.OnlyStringExpires) (h : line ∈ entryLines now key entry) :
    entry.liveItem now = some entry.item := by
  obtain ⟨value, expiresAt⟩ := entry
  cases expiresAt with
  | none => rfl
  | some expiration =>
    obtain ⟨val, rfl⟩ := hs (by simp)
    by_cases hle : now ≤ expiration
    · simp [Entry.liveItem, hle]
    · simp [entryLines, durationSince_eq_none hle] at h

theorem entryLines_rebuild (h : line ∈ entryLines now key entry) : RebuildLine line := by
  obtain ⟨value, expiresAt⟩ := entry
  cases value with
  | string val =>
    cases expiresAt with
    | none =>
      obtain rfl := List.mem_singleton.mp h
      exact ⟨by simp, [.bare key], val, rfl, by simp, by simp [Arg.isQuoted]⟩
    | some expiration =>
      simp only [entryLines] at h
      split at h
      · obtain rfl := List.mem_singleton.mp h
        exact ⟨by simp, [.bare key, .number _], val, rfl, by simp, by simp [Arg.isQuoted]⟩
      · cases h
  | list vals =>
    obtain ⟨item, -, rfl⟩ := List.mem_map.mp h
    exact ⟨by simp, [.bare key], item, rfl, by simp, by simp [Arg.isQuoted]⟩
  | hash hmap =>
    obtain ⟨e, -, rfl⟩ := List.mem_map.mp h
    exact ⟨by simp, [.bare key, .bare e.1], e.2, rfl, by simp, by simp [Arg.isQuoted]⟩
  | set members =>
    obtain ⟨e, -, rfl⟩ := List.mem_map.mp h
    exact ⟨by simp, [.bare key], e.1, rfl, by simp, by simp [Arg.isQuoted]⟩

/-- What holds of the strings of an entry holds of its lines' arguments: `K` of
the bare ones, `V` of the quoted one. -/
theorem entryLines_args {K V : Bytes → Prop} (hkey : K key) (hval : entry.item.value.Holds K V)
    (h : line ∈ entryLines now key entry) :
    ∀ arg ∈ line.2, match arg with
      | .bare b => K b
      | .quoted b => V b
      | .number _ => True := by
  obtain ⟨value, expiresAt⟩ := entry
  cases value with
  | string val =>
    have hv : V val := hval
    cases expiresAt with
    | none =>
      obtain rfl := List.mem_singleton.mp h
      simpa using ⟨hkey, hv⟩
    | some expiration =>
      simp only [entryLines] at h
      split at h
      · obtain rfl := List.mem_singleton.mp h
        simpa using ⟨hkey, hv⟩
      · cases h
  | list vals =>
    obtain ⟨item, hitem, rfl⟩ := List.mem_map.mp h
    have hv : V item := hval item (List.mem_reverse.mp hitem)
    simpa using ⟨hkey, hv⟩
  | hash hmap =>
    obtain ⟨e, he, rfl⟩ := List.mem_map.mp h
    have hv : K e.1 ∧ V e.2 := hval e.1 e.2 (List.mem_dlookup hmap.nodupKeys he)
    simpa using ⟨hkey, hv⟩
  | set members =>
    obtain ⟨e, he, rfl⟩ := List.mem_map.mp h
    have hv : V e.1 := hval e.1 (List.mem_keys_of_mem he)
    simpa using ⟨hkey, hv⟩

end EntryLines

section Rebuild
variable {now : SystemTime} {key : Bytes} {entry : Entry}

/-- The commands of an entry's lines. -/
def entryCommands (now : SystemTime) (key : Bytes) (entry : Entry) : List Command :=
  match entry.value with
  | .string val => match entry.expiresAt with
    | some expiration => match expiration.durationSince now with
      | some duration => [.setEx key (duration / 10 ^ 9 : Nat) val]
      | none => []
    | none => [.set key val]
  | .list list => list.reverse.map (.lPush key)
  | .hash hmap => hmap.entries.map fun e => .hSet key e.1 e.2
  | .set set => set.entries.map fun e => .sAdd key e.1

theorem lineCommand_readable (verb : Verb) (init : List Arg) (val : Bytes)
    (h : ∀ arg ∈ init ++ [Arg.quoted val], arg.Readable) :
    lineCommand (lineText verb (init ++ [.quoted val]) ++ ['\n']) =
      parseArgs (some verb) (init.map Arg.token ++ [val]) := by
  rw [lineCommand, lineContent_quoted, tokenize_readable h, parseCommand, uppercase_name,
    Verb.of?_lit, List.map_append]
  rfl

/-- A remaining time that a deadline admits is read back. -/
theorem parseArgs_setEx {t : SystemTime} {duration : Nat} (hnow : SystemTime.unixEpoch ≤ now)
    (hd : t.durationSince now = some duration) (val : Bytes) :
    parseArgs (some .setEx) [key, decimal (duration / 10 ^ 9 : Nat), val] =
      .setEx key (duration / 10 ^ 9 : Nat) val := by
  have hrange : -2 ^ 63 ≤ ((duration / 10 ^ 9 : Nat) : Int) ∧
      ((duration / 10 ^ 9 : Nat) : Int) ≤ 2 ^ 63 - 1 := by
    have hfits := t.fits.2
    have hzero : (0 : Int) ≤ now.nanos := hnow
    unfold SystemTime.durationSince at hd
    split at hd
    · obtain rfl := Option.some.inj hd
      omega
    · cases hd
  exact parseArgs_setEx_of_some (parseI64_decimal hrange)

/-- The lines of a clean entry read back as its commands. -/
theorem map_lineCommand (hnow : SystemTime.unixEpoch ≤ now)
    (h : ∀ line ∈ entryLines now key entry, ∀ arg ∈ line.2, arg.Readable) :
    (entryLines now key entry).map (fun line => lineCommand (lineText line.1 line.2 ++ ['\n'])) =
      entryCommands now key entry := by
  obtain ⟨value, expiresAt⟩ := entry
  cases value with
  | string val =>
    cases expiresAt with
    | none =>
      have hargs := h (.set, [.bare key, .quoted val]) (by simp [entryLines])
      exact congrArg (fun c => [c]) (lineCommand_readable .set [.bare key] val hargs)
    | some expiration =>
      cases hd : expiration.durationSince now with
      | none => simp [entryLines, entryCommands, hd]
      | some duration =>
        have hargs := h (.setEx, [.bare key, .number (duration / 10 ^ 9 : Nat), .quoted val])
          (by simp [entryLines, hd])
        have hline :=
          lineCommand_readable .setEx [.bare key, .number (duration / 10 ^ 9 : Nat)] val hargs
        simp only [entryLines, entryCommands, hd, List.map_cons, List.map_nil]
        exact congrArg (fun c => [c]) (hline.trans (parseArgs_setEx hnow hd val))
  | list vals =>
    simp only [entryLines, entryCommands, List.map_map]
    refine List.map_congr_left fun item hitem => ?_
    exact lineCommand_readable .lPush [.bare key] item (h _ (List.mem_map_of_mem hitem))
  | hash hmap =>
    simp only [entryLines, entryCommands, List.map_map]
    refine List.map_congr_left fun e he => ?_
    exact lineCommand_readable .hSet [.bare key, .bare e.1] e.2 (h _ (List.mem_map_of_mem he))
  | set members =>
    simp only [entryLines, entryCommands, List.map_map]
    refine List.map_congr_left fun e he => ?_
    exact lineCommand_readable .sAdd [.bare key] e.1 (h _ (List.mem_map_of_mem he))

section OneEntry
variable {ks : Keyspace}

/-- Pushing a list's elements from its end rebuilds it. -/
theorem applyAll_lPush (hks : ks key = none) (vals : List Bytes) :
    Keyspace.applyAll (vals.reverse.map (.lPush key)) ks key =
      if vals = [] then none else some ⟨.list vals, false⟩ := by
  induction vals with
  | nil => exact hks
  | cons val vals ih =>
    have hlast : Keyspace.applyAll ((val :: vals).reverse.map (.lPush key)) ks =
        onKey (Item.pushFront val) key (Keyspace.applyAll (vals.reverse.map (.lPush key)) ks) := by
      rw [List.reverse_cons, List.map_append, Keyspace.applyAll, applyAll_append]
      rfl
    rw [hlast, onKey_self, ih]
    by_cases hnil : vals = []
    · simp [hnil, Item.pushFront, Item.alter, Item.changeList]
    · simp [hnil, Item.pushFront, Item.alter, Item.changeList]

theorem applyAll_hSet {fields : Bytes → Option Bytes} {es : List (Σ _ : Bytes, Bytes)}
    (hes : es.NodupKeys) (hks : ks key = some ⟨.hash fields, false⟩) :
    Keyspace.applyAll (es.map fun e => .hSet key e.1 e.2) ks key =
      some ⟨.hash fun f => (es.dlookup f).or (fields f), false⟩ := by
  induction es generalizing ks fields with
  | nil => simpa using hks
  | cons e es ih =>
    obtain ⟨field, val⟩ := e
    obtain ⟨hnot, hes⟩ := List.nodupKeys_cons.mp hes
    have hstep : onKey (Item.setField field val) key ks key =
        some ⟨.hash (Function.update fields field (some val)), false⟩ := by
      rw [onKey_self, hks]
      rfl
    refine (ih hes hstep).trans (congrArg some ?_)
    congr 2
    funext f
    by_cases hf : f = field
    · subst hf
      have hnone : es.dlookup f = none := List.dlookup_eq_none.mpr hnot
      simp [hnone]
    · simp [hf, List.dlookup_cons_ne]

theorem applyAll_sAdd {members : Set Bytes} {es : List (Σ _ : Bytes, Unit)}
    (hks : ks key = some ⟨.set members, false⟩) :
    Keyspace.applyAll (es.map fun e => .sAdd key e.1) ks key =
      some ⟨.set ({m | m ∈ es.keys} ∪ members), false⟩ := by
  induction es generalizing ks members with
  | nil => simpa using hks
  | cons e es ih =>
    have hstep : onKey (Item.addMember e.1) key ks key =
        some ⟨.set (insert e.1 members), false⟩ := by
      rw [onKey_self, hks]
      rfl
    refine (ih hstep).trans (congrArg some ?_)
    congr 2
    ext m
    simp [List.keys_cons, or_assoc]

/-- A step that treats an absent item as `value` may start from it. -/
theorem onKey_from {h : Option Item → Option Item} {item : Item} (hks : ks key = none)
    (hh : h none = h (some item)) :
    onKey h key ks = onKey h key (Function.update ks key (some item)) := by
  simp [onKey, hks, hh]

/-- The commands of an entry whose collection is not empty rebuild it. -/
theorem applyAll_entryCommands (hs : entry.OnlyStringExpires) (hks : ks key = none)
    (hne : ∀ item, entry.liveItem now = some item → item.value.Inhabited) :
    Keyspace.applyAll (entryCommands now key entry) ks key = entry.liveItem now := by
  obtain ⟨value, expiresAt⟩ := entry
  cases expiresAt with
  | some expiration =>
    obtain ⟨val, rfl⟩ := hs (by simp)
    by_cases hle : now ≤ expiration
    · simp only [entryCommands, durationSince_eq_some hle, Entry.liveItem, if_pos hle]
      exact onKey_self _ _ _
    · simp only [entryCommands, durationSince_eq_none hle, Entry.liveItem, if_neg hle]
      exact hks
  | none =>
    have hitem := hne _ rfl
    cases value with
    | string val => exact onKey_self _ _ _
    | list vals =>
      have hvals : vals ≠ [] := hitem
      exact (applyAll_lPush hks vals).trans (if_neg hvals)
    | hash hmap =>
      obtain ⟨es, hes⟩ := hmap
      cases es with
      | nil =>
        obtain ⟨f, hf⟩ := hitem
        cases hf
      | cons e es =>
        have hfrom := onKey_from hks (show Item.setField e.1 e.2 none =
          Item.setField e.1 e.2 (some ⟨.hash fun _ => none, false⟩) from rfl)
        have hfresh : Function.update ks key (some (⟨.hash fun _ => none, false⟩ : Item)) key =
          some ⟨.hash fun _ => none, false⟩ := Function.update_self _ _ _
        have hrun := applyAll_hSet hes hfresh
        show Keyspace.applyAll (es.map _) (onKey _ key ks) key = _
        rw [hfrom]
        exact hrun.trans (by simp only [Option.or_none]; rfl)
    | set members =>
      obtain ⟨es, hes⟩ := members
      cases es with
      | nil =>
        obtain ⟨m, hm⟩ := hitem
        cases hm
      | cons e es =>
        have hfrom := onKey_from hks (show Item.addMember e.1 none =
          Item.addMember e.1 (some ⟨.set ∅, false⟩) from rfl)
        have hfresh : Function.update ks key (some (⟨.set ∅, false⟩ : Item)) key =
          some ⟨.set ∅, false⟩ := Function.update_self _ _ _
        have hrun : Keyspace.applyAll ((e :: es).map fun e => .sAdd key e.1) _ key = _ :=
          applyAll_sAdd hfresh
        show Keyspace.applyAll (es.map _) (onKey _ key ks) key = _
        rw [hfrom]
        exact hrun.trans (by rw [Set.union_empty]; rfl)

end OneEntry

theorem keyArgs_entryCommands {c : Command} (h : c ∈ entryCommands now key entry) :
    c.keyArgs = [key] := by
  obtain ⟨value, expiresAt⟩ := entry
  cases value with
  | string val =>
    simp only [entryCommands] at h
    split at h
    · split at h
      · rw [List.mem_singleton.mp h]; rfl
      · cases h
    · rw [List.mem_singleton.mp h]; rfl
  | list vals => obtain ⟨item, -, rfl⟩ := List.mem_map.mp h; rfl
  | hash hmap => obtain ⟨e, -, rfl⟩ := List.mem_map.mp h; rfl
  | set members => obtain ⟨e, -, rfl⟩ := List.mem_map.mp h; rfl

/-- Entries with distinct keys are rebuilt each on its own. -/
theorem applyAll_entries {now : Bytes → SystemTime} {es : List (Σ _ : Bytes, Entry)} {ks : Keyspace}
    (hes : es.NodupKeys) (hks : ∀ e ∈ es, ks e.1 = none)
    (hs : ∀ e ∈ es, e.2.OnlyStringExpires)
    (hne : ∀ e ∈ es, ∀ item, e.2.liveItem (now e.1) = some item → item.value.Inhabited)
    (key : Bytes) :
    Keyspace.applyAll (es.flatMap fun e => entryCommands (now e.1) e.1 e.2) ks key =
      match es.dlookup key with
      | some entry => entry.liveItem (now key)
      | none => ks key := by
  induction es generalizing ks with
  | nil => rfl
  | cons e es ih =>
    obtain ⟨k, entry⟩ := e
    obtain ⟨hnot, hes⟩ := List.nodupKeys_cons.mp hes
    have hother : ∀ k', k' ≠ k →
        Keyspace.applyAll (entryCommands (now k) k entry) ks k' = ks k' := fun k' hk' =>
      applyAll_frame (fun c hc => by rw [keyArgs_entryCommands hc]; simpa using hk') ks
    have hkeys : ∀ e ∈ es, e.1 ≠ k := by
      rintro ⟨k', entry'⟩ he (rfl : k' = k)
      exact hnot (List.mem_keys.mpr ⟨entry', he⟩)
    rw [List.flatMap_cons, Keyspace.applyAll, applyAll_append]
    refine (ih hes (fun e he => ?_) (fun e he => hs e (by simp [he]))
      (fun e he => hne e (by simp [he]))).trans ?_
    · exact (hother e.1 (hkeys e he)).trans (hks e (by simp [he]))
    · by_cases hk : key = k
      · subst hk
        rw [List.dlookup_eq_none.mpr hnot, List.dlookup_cons_eq]
        exact applyAll_entryCommands (hs _ (by simp)) (hks _ (by simp)) (hne _ (by simp))
      · rw [List.dlookup_cons_ne _ _ hk]
        cases es.dlookup key with
        | some entry' => rfl
        | none => exact hother key hk

end Rebuild

section RoundTrip
variable {env : Env} {now : Bytes → SystemTime} {clock : Nat → SystemTime} {R : Memory}

/-- What the compacted file can hold: keys and fields that are words, values
without newlines and quotes, and no empty collection. -/
def Keyspace.Clean (ks : Keyspace) : Prop :=
  ks.All Arg.Bare fun value => value.Holds Arg.Bare Arg.Quotable ∧ value.Inhabited

variable (db : Database env)

theorem live_of_mem {key : Bytes} {entry : Entry} (h : ⟨key, entry⟩ ∈ allEntries db.shards) :
    live now env db.shards key = entry.liveItem (now key) := by
  rw [live, (mem_allEntries db).mp h]
  rfl

/-- A line comes from a live entry, and its arguments are the strings of that. -/
theorem compactLines_args {K V : Bytes → Prop} (hs : OnlyStringsExpire db.shards)
    (h : (live now env db.shards).All K (Value.Holds K V)) {line : Verb × List Arg}
    (hline : line ∈ compactLines now db.shards) :
    ∀ arg ∈ line.2, match arg with
      | .bare b => K b
      | .quoted b => V b
      | .number _ => True := by
  obtain ⟨⟨key, entry⟩, he, hline⟩ := List.mem_flatMap.mp hline
  have hlive := liveItem_of_line (hs _ _ _ ((mem_allEntries db).mp he)) hline
  obtain ⟨hkey, hval⟩ := h key entry.item (by rw [live_of_mem db he, hlive])
  exact entryLines_args hkey hval hline

theorem compactLines_rebuild {line : Verb × List Arg} (hline : line ∈ compactLines now db.shards) :
    RebuildLine line := by
  obtain ⟨e, -, hline⟩ := List.mem_flatMap.mp hline
  exact entryLines_rebuild hline

/-- Where the compacted file comes back, the live database was clean. -/
theorem clean_of_round_trip (hs : OnlyStringsExpire db.shards)
    (hR : replayAof env clock (encode (compactText now db.shards)) = some R)
    (h : view env R = live now env db.shards) : (live now env db.shards).Clean := by
  have hquotable := replayAof_holds hR
  rw [h] at hquotable
  have hargs : ∀ line ∈ compactLines now db.shards, ∀ arg ∈ line.2, arg.Holds Arg.Quotable := by
    intro line hline arg ha
    have harg := compactLines_args db hs hquotable hline arg ha
    cases arg <;> exact harg
  have hcommands : ∀ c ∈ aofCommands (encode (compactText now db.shards)),
      c.Holds Arg.Bare Arg.Quotable ∧ c.Rebuilds := by
    intro c hc
    rw [compactText_eq, aofCommands_linesText fun line hline arg ha =>
      (hargs line hline arg ha).newline] at hc
    obtain ⟨line, hline, rfl⟩ := List.mem_map.mp hc
    exact rebuildLine_command (compactLines_rebuild db hline) (hargs line hline)
  have hview := view_replayAll env hR
  rw [view_newDb, h] at hview
  intro key item hitem
  rw [hview] at hitem
  have hholds : (Keyspace.applyAll _ Keyspace.empty).All Arg.Bare _ :=
    .run (fun c hc ks hks => hks.apply_holds (hcommands c hc).1 quotable_decimal) .empty
  have hinhabited : (Keyspace.applyAll _ Keyspace.empty).All Arg.Bare _ :=
    .run (fun c hc ks hks => hks.apply_inhabited (hcommands c hc).2 (hcommands c hc).1) .empty
  obtain ⟨hkey, hval⟩ := hholds key item hitem
  exact ⟨hkey, hval, (hinhabited key item hitem).2⟩

/-- A clean live database comes back from its compacted file. -/
theorem round_trip_of_clean (hs : OnlyStringsExpire db.shards)
    (hnow : ∀ key, SystemTime.unixEpoch ≤ now key)
    (hR : replayAof env clock (encode (compactText now db.shards)) = some R)
    (h : (live now env db.shards).Clean) : view env R = live now env db.shards := by
  have hholds : (live now env db.shards).All Arg.Bare (Value.Holds Arg.Bare Arg.Quotable) :=
    fun key item hitem => ⟨(h key item hitem).1, (h key item hitem).2.1⟩
  have hread : ∀ line ∈ compactLines now db.shards, ∀ arg ∈ line.2, arg.Readable := by
    intro line hline arg ha
    have harg := compactLines_args db hs hholds hline arg ha
    cases arg <;> exact harg
  have hcommands : aofCommands (encode (compactText now db.shards)) =
      (allEntries db.shards).flatMap fun e => entryCommands (now e.1) e.1 e.2 := by
    rw [compactText_eq, aofCommands_linesText fun line hline arg ha =>
      (hread line hline arg ha).newline, compactLines, List.map_flatMap]
    refine List.flatMap_congr fun e he => map_lineCommand (hnow e.1) fun line hline => ?_
    exact hread line (List.mem_flatMap.mpr ⟨e, he, hline⟩)
  have hview := view_replayAll env hR
  rw [view_newDb, hcommands] at hview
  funext key
  rw [hview, applyAll_entries (nodupKeys_allEntries db) (fun _ _ => rfl)
    (fun e he => hs _ _ _ ((mem_allEntries db).mp he))
    (fun e he item hitem => (h e.1 item (by rw [live_of_mem db he, hitem])).2.2) key,
    dlookup_allEntries, live]
  cases (db.shards (calculateShardIndex env key)).lookup key with
  | some entry => rfl
  | none => rfl

/-- The exact domain of the compaction round trip, where only strings carry
deadlines. -/
theorem compaction_round_trip (hs : OnlyStringsExpire db.shards)
    (hnow : ∀ key, SystemTime.unixEpoch ≤ now key)
    (hR : replayAof env clock (encode (compactText now db.shards)) = some R) :
    view env R = live now env db.shards ↔ (live now env db.shards).Clean :=
  ⟨clean_of_round_trip db hs hR, round_trip_of_clean db hs hnow hR⟩

end RoundTrip

section Instances

/-- `map.insert` in the shard of the key. -/
def Database.insert {env : Env} (db : Database env) (key : Bytes) (entry : Entry) :
    Database env where
  shards := Function.update db.shards (calculateShardIndex env key)
    ((db.shards (calculateShardIndex env key)).insert key entry)
  routed i k h := by
    by_cases hi : i = calculateShardIndex env key
    · subst hi
      rw [Function.update_self, AList.mem_insert] at h
      rcases h with rfl | h
      · rfl
      · exact db.routed _ k h
    · rw [Function.update_of_ne hi] at h
      exact db.routed i k h

def emptyDatabase (env : Env) : Database env :=
  ⟨newDb, fun _ key h => absurd h (AList.notMem_empty key)⟩

theorem Database.insert_lookup {env : Env} {db : Database env} {key k : Bytes} {entry e : Entry}
    {i : Index} (h : ((db.insert key entry).shards i).lookup k = some e) :
    (k = key ∧ e = entry) ∨ (db.shards i).lookup k = some e := by
  by_cases hi : i = calculateShardIndex env key
  · subst hi
    have hl : ((db.shards (calculateShardIndex env key)).insert key entry).lookup k = some e := by
      simpa [insert] using h
    by_cases hk : k = key
    · subst hk
      rw [AList.lookup_insert] at hl
      exact Or.inl ⟨rfl, (Option.some.inj hl).symm⟩
    · rw [AList.lookup_insert_ne hk] at hl
      exact Or.inr hl
  · simp only [insert, Function.update_of_ne hi] at h
    exact Or.inr h

theorem onlyStringsExpire_insert {env : Env} {db : Database env} {key : Bytes} {entry : Entry}
    (hs : OnlyStringsExpire db.shards) (h : entry.OnlyStringExpires) :
    OnlyStringsExpire (db.insert key entry).shards := by
  intro i k e hl
  rcases Database.insert_lookup hl with ⟨-, rfl⟩ | hl
  · exact h
  · exact hs i k e hl

/-- A database of one key. -/
def soloDb (env : Env) (key : Bytes) (entry : Entry) : Database env :=
  (emptyDatabase env).insert key entry

theorem soloDb_lookup {env : Env} {key k : Bytes} {entry e : Entry} {i : Index}
    (h : ((soloDb env key entry).shards i).lookup k = some e) : k = key ∧ e = entry :=
  (Database.insert_lookup h).resolve_right (by simp [emptyDatabase, newDb])

theorem live_soloDb {env : Env} {now : Bytes → SystemTime} {key : Bytes} {entry : Entry} :
    live now env (soloDb env key entry).shards key = entry.liveItem (now key) := by
  have hl : ((newDb (calculateShardIndex env key)).insert key entry).lookup key = some entry :=
    AList.lookup_insert _
  simp [live, soloDb, Database.insert, emptyDatabase, hl]

theorem clean_soloDb {env : Env} {now : Bytes → SystemTime} {key : Bytes} {entry : Entry}
    (hk : Arg.Bare key)
    (hv : entry.item.value.Holds Arg.Bare Arg.Quotable) (hi : entry.item.value.Inhabited) :
    (live now env (soloDb env key entry).shards).Clean := by
  intro k item hitem
  obtain ⟨e, hl, hlive⟩ := Option.bind_eq_some_iff.mp hitem
  obtain ⟨rfl, rfl⟩ := soloDb_lookup hl
  obtain rfl : item = e.item := by
    unfold Entry.liveItem at hlive
    split at hlive
    · split at hlive
      · exact (Option.some.inj hlive).symm
      · cases hlive
    · exact (Option.some.inj hlive).symm
  exact ⟨hk, hv, hi⟩

def epochs {α : Type} : α → SystemTime := fun _ => SystemTime.unixEpoch

/-- One minute after the epoch. -/
def oneMinute : SystemTime := ⟨60 * 10 ^ 9, by decide⟩

/-- A list, a hash, a set, and a string that lives for a minute. -/
def stockedDb : Database plainEnv :=
  ((((emptyDatabase plainEnv).insert [108] ⟨.list [[120], [121, 32, 122]], none⟩).insert
    [104] ⟨.hash ((∅ : HashMap Bytes).insert [102] [118]), none⟩).insert
    [115] ⟨.set ((∅ : HashSet).insert [109] ()), none⟩).insert
    [116] ⟨.string [118], some oneMinute⟩

theorem compaction_round_trip_stocked :
    ∃ R, replayAof plainEnv epochs (encode (compactText epochs stockedDb.shards)) = some R ∧
      (view plainEnv R = live epochs plainEnv stockedDb.shards ↔
        (live epochs plainEnv stockedDb.shards).Clean) := by
  have hs : OnlyStringsExpire stockedDb.shards := by
    refine onlyStringsExpire_insert (onlyStringsExpire_insert (onlyStringsExpire_insert
      (onlyStringsExpire_insert (fun _ _ _ hl => ?_) ?_) ?_) ?_) fun _ => ⟨_, rfl⟩
    · simp [emptyDatabase, newDb] at hl
    all_goals exact fun hexpires => absurd rfl hexpires
  have hsome :
      (replayAof plainEnv epochs (encode (compactText epochs stockedDb.shards))).isSome := rfl
  exact ⟨_, (Option.some_get hsome).symm,
    compaction_round_trip stockedDb hs (fun _ => Int.le_refl 0) (Option.some_get hsome).symm⟩

/-- A list with a deadline, as no command makes one: the compactor writes the list without it. -/
theorem compaction_drops_deadline :
    let db := soloDb plainEnv [107] ⟨.list [[120]], some SystemTime.unixEpoch⟩
    ∃ R, replayAof plainEnv epochs (encode (compactText epochs db.shards)) = some R ∧
      ¬ (view plainEnv R = live epochs plainEnv db.shards ↔
        (live epochs plainEnv db.shards).Clean) := by
  intro db
  have hsome : (replayAof plainEnv epochs (encode (compactText epochs db.shards))).isSome := rfl
  refine ⟨_, (Option.some_get hsome).symm, fun hiff => ?_⟩
  have hk : Arg.Bare [107] := bare_of_plain (s := ['k']) (by simp) (List.all_eq_true.mp rfl)
  have hx : Arg.Quotable [120] := ⟨['x'], by decide, by simp, by simp, by simp⟩
  have hclean : (live epochs plainEnv db.shards).Clean :=
    clean_soloDb hk (by simpa [Entry.item, DataType.toValue, Value.Holds] using hx)
      (by simp [Entry.item, DataType.toValue, Value.Inhabited])
  have hread : aofCommands (encode (compactText epochs db.shards)) = [.lPush [107] [120]] := rfl
  have hview := view_replayAll plainEnv (Option.some_get hsome).symm
  rw [hread, view_newDb, hiff.mpr hclean] at hview
  have hkey := congrFun hview [107]
  rw [live_soloDb] at hkey
  have hexpires := congrArg (Option.map Item.expires) hkey
  cases hexpires

/-- A string with as long to live as `SETEX` allows, a second before the epoch: the
remaining seconds are more than it allows, and the line is none of its. -/
theorem compaction_before_epoch :
    let now : Bytes → SystemTime := fun _ => ⟨-10 ^ 9, by decide⟩
    let db := soloDb plainEnv [107] ⟨.string [118], some ⟨(2 ^ 63 - 1) * 10 ^ 9, by decide⟩⟩
    OnlyStringsExpire db.shards ∧
    ∃ R, replayAof plainEnv epochs (encode (compactText now db.shards)) = some R ∧
      ¬ (view plainEnv R = live now plainEnv db.shards ↔ (live now plainEnv db.shards).Clean) := by
  intro now db
  have hsome : (replayAof plainEnv epochs (encode (compactText now db.shards))).isSome := by
    decide +kernel
  refine ⟨fun i k e hl _ => ⟨[118], by rw [(soloDb_lookup hl).2]⟩, _, (Option.some_get hsome).symm,
    fun hiff => ?_⟩
  have hk : Arg.Bare [107] := bare_of_plain (s := ['k']) (by simp) (List.all_eq_true.mp rfl)
  have hv : Arg.Quotable [118] := ⟨['v'], by decide, by simp, by simp, by simp⟩
  have hclean : (live now plainEnv db.shards).Clean :=
    clean_soloDb hk (by simpa [Entry.item, DataType.toValue, Value.Holds] using hv)
      (by simp [Entry.item, DataType.toValue, Value.Inhabited])
  have hread : aofCommands (encode (compactText now db.shards)) = [.unknown] := by decide +kernel
  have hview := view_replayAll plainEnv (Option.some_get hsome).symm
  rw [hread, view_newDb, hiff.mpr hclean] at hview
  have hkey := congrFun hview [107]
  rw [live_soloDb] at hkey
  cases hkey

/-- Both restrictions of `compaction_round_trip` are needed. -/
theorem compaction_round_trip_fails :
    (¬ ∀ (env : Env) (db : Database env) (now : Bytes → SystemTime) (clock : Nat →
      SystemTime) (R : Memory),
      (∀ key, SystemTime.unixEpoch ≤ now key) →
      replayAof env clock (encode (compactText now db.shards)) = some R →
      (view env R = live now env db.shards ↔ (live now env db.shards).Clean)) ∧
    ¬ ∀ (env : Env) (db : Database env) (now : Bytes → SystemTime) (clock : Nat →
      SystemTime) (R : Memory),
      OnlyStringsExpire db.shards →
      replayAof env clock (encode (compactText now db.shards)) = some R →
      (view env R = live now env db.shards ↔ (live now env db.shards).Clean) := by
  constructor
  · intro h
    obtain ⟨R, hR, hfails⟩ := compaction_drops_deadline
    exact hfails (h _ _ _ _ R (fun _ => Int.le_refl 0) hR)
  · intro h
    obtain ⟨hs, R, hR, hfails⟩ := compaction_before_epoch
    exact hfails (h _ _ _ _ R hs hR)

end Instances

end TitanKv
