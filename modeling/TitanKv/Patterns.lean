import TitanKv.Lib.Glob
import TitanKv.Scanning

/-! # Patterns of KEYS and SCAN

A pattern becomes a regular expression by putting `.*` for `*` and `.` for `?`,
and nothing is escaped. So a dot of the pattern takes any character, no wildcard
takes a newline, and the rest of the syntax keeps its meaning: the keys listed are
the ones that the pattern matches only where none of this makes a difference. -/

namespace TitanKv
open Utf8 TwoPhase Runs Glob

section Pattern

/-- What a character of a pattern stands for. -/
def globToken (ch : Char) : Token Char :=
  if ch = '*' then .many else if ch = '?' then .one else .lit ch

def globTokens (pattern : Text) : List (Token Char) := pattern.map globToken

/-- Whether the pattern matches the key, both read as UTF-8. -/
def globMatches (pattern key : Bytes) : Bool :=
  match decode? pattern, decode? key with
  | some p, some s => decide (MatchesAny (globTokens p) s)
  | _, _ => false

/-- What the regular expression of the pattern makes of it: a dot is a wildcard. -/
def dotTokens (pattern : Text) : List (Token Char) :=
  (globTokens pattern).map (Token.widen (· == '.'))

/-- No character but the dot and the wildcards is one of the syntax. -/
def Plain (pattern : Text) : Prop :=
  ∀ c ∈ pattern, c ∈ metacharacters → c = '.' ∨ c = '*' ∨ c = '?'

instance (pattern : Text) : Decidable (Plain pattern) := List.decidableBAll _ _

variable {p s : Text}

theorem expression_widen (ch : Char) : (Token.widen (· == '.') (globToken ch)).expression =
    if ch = '*' then ['.', '*'] else if ch = '?' then ['.'] else [ch] := by
  unfold globToken
  split
  · rfl
  · split
    · rfl
    · by_cases hdot : ch = '.'
      · subst hdot
        rfl
      · have hbeq : (ch == '.') = false := beq_eq_false_iff_ne.mpr hdot
        simp [Token.widen, hbeq, Token.expression]

/-- The text of the regular expression is the one for these tokens. -/
theorem globRegex_eq (p : Text) : globRegex p = anchored (dotTokens p) := by
  rw [globRegex, anchored, dotTokens, globTokens, List.flatMap_map, List.flatMap_map]
  simp only [expression_widen]

theorem mem_dotTokens {c : Char} (hc : .lit c ∈ dotTokens p) :
    c ∈ p ∧ c ≠ '.' ∧ c ≠ '*' ∧ c ≠ '?' := by
  obtain ⟨t, ht, hwiden⟩ := List.mem_map.mp hc
  obtain ⟨ch, hch, rfl⟩ := List.mem_map.mp ht
  rw [globToken] at hwiden
  split at hwiden
  · cases hwiden
  · rename_i hstar
    split at hwiden
    · cases hwiden
    · rename_i hmark
      rw [Token.widen] at hwiden
      split at hwiden
      · cases hwiden
      · rename_i hdot
        obtain rfl := Token.lit.inj hwiden
        exact ⟨hch, by simpa using hdot, hstar, hmark⟩

theorem Plain.literal (h : Plain p) {c : Char} (hc : .lit c ∈ dotTokens p) :
    c ∉ metacharacters := by
  obtain ⟨hmem, hdot, hstar, hmark⟩ := mem_dotTokens hc
  intro hmeta
  rcases h c hmem hmeta with heq | heq | heq
  · exact hdot heq
  · exact hstar heq
  · exact hmark heq

theorem count_literals_globTokens (p : Text) {c : Char} (hstar : c ≠ '*') (hmark : c ≠ '?') :
    (literals (globTokens p)).count c = p.count c := by
  induction p with
  | nil => rfl
  | cons ch p ih =>
    rw [globTokens, List.map_cons, globToken]
    split
    · rename_i hch
      subst hch
      rw [literals_cons_many, List.count_cons_of_ne hstar.symm]
      exact ih
    · split
      · rename_i hch
        subst hch
        rw [literals_cons_one, List.count_cons_of_ne hmark.symm]
        exact ih
      · rw [literals_cons_lit, List.count_cons, List.count_cons]
        exact congrArg (· + _) ih

/-- Where the regular expression of the pattern means on the text what the pattern
means: no wildcard has to take a newline, and where every dot may be another
character the dots of the pattern are dots. -/
structure ReadAlike (p s : Text) : Prop where
  newlines : MatchesAny (globTokens p) s → s.count '\n' = p.count '\n'
  dots : MatchesAny (dotTokens p) s → s.count '\n' = p.count '\n' → MatchesAny (globTokens p) s

/-- The regular expression: no wildcard takes a newline, and a dot is one. -/
theorem matches_dotTokens_iff :
    Matches (· ≠ '\n') (dotTokens p) s ↔
      MatchesAny (dotTokens p) s ∧ s.count '\n' = p.count '\n' := by
  rw [matches_ne_iff, dotTokens, count_literals_widen (by decide),
    count_literals_globTokens p (by decide) (by decide)]

theorem readAlike_iff :
    (Matches (· ≠ '\n') (dotTokens p) s ↔ MatchesAny (globTokens p) s) ↔ ReadAlike p s := by
  rw [matches_dotTokens_iff]
  constructor
  · intro h
    exact ⟨fun hs => (h.mpr hs).2, fun hs hcount => h.mp ⟨hs, hcount⟩⟩
  · intro h
    constructor
    · rintro ⟨hs, hcount⟩
      exact h.dots hs hcount
    · intro hs
      exact ⟨hs.widen _, h.newlines hs⟩

end Pattern

section Client
variable (env : Env) (ctx : Ctx) (pattern : Bytes)

/-- The keys of a reply to `KEYS`. -/
def readKeys (reply : Bytes) : Option (List Bytes) :=
  match Resp.decode reply with
  | some (.array items, []) => items.mapM bulk?
  | _ => none

/-- `KEYS pattern`, as the client sends and reads it. -/
def listKeys (db : Memory) : Option (List Bytes) :=
  match (handle env ctx (parseCommand [lit "KEYS", pattern])).run db with
  | some (.reply reply, _, _) => readKeys reply
  | _ => none

/-- `SCAN cursor MATCH pattern` from a cursor on, each call with the cursor of the
reply before, until that is 0; at most so many calls. -/
def scanKeys : Nat → Memory → Bytes → Option (List Bytes)
  | 0, _, _ => none
  | calls + 1, db, cursor =>
    match (handle env ctx (parseCommand [lit "SCAN", cursor, lit "MATCH", pattern])).run db with
    | some (.reply reply, db, _) => (readBatch reply).bind fun batch =>
      if batch.1 = lit "0" then some batch.2 else (scanKeys calls db batch.1).map (batch.2 ++ ·)
    | _ => none

/-- `KEYS` and a full iteration of `SCAN` both list the stored keys that the
pattern matches. -/
structure ListsMatches (db : Memory) : Prop where
  keys : ∃ keys, listKeys env ctx pattern db = some keys ∧
    keys.Perm ((allKeys db).filter (globMatches pattern))
  scan : ∃ keys, scanKeys env ctx pattern 64 db (lit "0") = some keys ∧
    keys.Perm ((allKeys db).filter (globMatches pattern))

end Client

section Replies
variable {env : Env} {ctx : Ctx} {pattern : Bytes} {db : Memory}

theorem readKeys_encode (keys : List Bytes) :
    readKeys (Resp.Value.array (keys.map .bulk)).encode = some keys := by
  have hsound : (Resp.Value.array (keys.map .bulk)).Sound := soundAll_bulk keys
  have hdecode := Resp.decode_encode hsound []
  rw [List.append_nil] at hdecode
  rw [readKeys, hdecode]
  exact mapM_bulk? keys

theorem listKeys_valid {isMatch : Text → Bool}
    (h : env.regex (globRegex (bytesToStr pattern)) = some isMatch) :
    listKeys env ctx pattern db = some ((allKeys db).filter (keyMatches isMatch)) := by
  have hrun : (handle env ctx (.keys pattern)).run db =
      some (.reply (bulkArray ((allKeys db).filter (keyMatches isMatch))), db, []) := by
    simp only [handle, handleKeys, h]
    rw [Prog.run_bind, run_getAllKeys]
    rfl
  have hparse : parseCommand [lit "KEYS", pattern] = .keys pattern := rfl
  rw [listKeys, hparse, hrun]
  dsimp only
  rw [bulkArray_eq]
  exact readKeys_encode _

/-- An invalid expression is answered with no reply. -/
theorem listKeys_invalid (h : env.regex (globRegex (bytesToStr pattern)) = none) :
    listKeys env ctx pattern db = none := by
  have hparse : parseCommand [lit "KEYS", pattern] = .keys pattern := rfl
  rw [listKeys, hparse]
  simp only [handle, handleKeys, h]
  rfl

theorem parse_scanMatch {n : Nat} (h : n < 2 ^ 64) :
    parseCommand [lit "SCAN", decimal n, lit "MATCH", pattern] = .scan n (some pattern) := by
  have hparse : parseCommand [lit "SCAN", decimal n, lit "MATCH", pattern] =
      .scan ((parseUsize (decimal n)).getD 0) (some pattern) := rfl
  rw [hparse, parseUsize_decimal h, Option.getD_some]

/-- One call: the keys of the shard, and the cursor 0 after the last one. -/
theorem scanKeys_call {n : Nat} (h : n < 64) (calls : Nat) :
    scanKeys env ctx pattern (calls + 1) db (decimal n) =
      if n = 63 then some (retainMatching env (some pattern) (shardKeys db n))
      else (scanKeys env ctx pattern calls db (decimal (n + 1 : Nat))).map
        (retainMatching env (some pattern) (shardKeys db n) ++ ·) := by
  have hover : decimal ((n + 1) % 64 : Nat) = lit "0" ↔ n = 63 := by
    rw [decimal_eq_zero (by omega)]
    omega
  rw [scanKeys, parse_scanMatch (by omega), run_scan env db ctx (some pattern) h]
  dsimp only
  rw [readBatch_scanValue, Option.bind_some]
  simp only [hover]
  split
  · rfl
  · rw [Nat.mod_eq_of_lt (by omega)]

/-- From the cursor of a shard on, a call for each shard up to the last. -/
theorem scanKeys_from {n calls : Nat} (h : n + calls + 1 = 64) :
    scanKeys env ctx pattern (calls + 1) db (decimal n) = some
      ((List.range' n (calls + 1)).flatMap fun i =>
        retainMatching env (some pattern) (shardKeys db i)) := by
  induction calls generalizing n with
  | zero =>
    rw [scanKeys_call (by omega), if_pos (by omega), List.range'_one, List.flatMap_singleton]
  | succ calls ih =>
    rw [scanKeys_call (by omega), if_neg (by omega), ih (by omega), List.range'_succ,
      List.flatMap_cons]
    rfl

theorem allKeys_eq : allKeys db = (List.range' 0 64).flatMap (shardKeys db) := by
  have hshards : List.range' 0 64 = (List.finRange shardCount).map Fin.val := by decide
  rw [hshards, List.flatMap_map, allKeys]
  refine congrArg List.flatten (List.map_congr_left fun i _ => ?_)
  rw [shardKeys, dif_pos i.isLt]

/-- A full iteration lists the keys that a shard retains, over all shards. -/
theorem scanKeys_full : scanKeys env ctx pattern 64 db (lit "0") =
    some (retainMatching env (some pattern) (allKeys db)) := by
  have hzero : lit "0" = decimal (0 : Nat) := by decide
  obtain ⟨p, hp⟩ := retainMatching_eq_filter env (some pattern)
  have hfull : scanKeys env ctx pattern 64 db (decimal (0 : Nat)) = _ := scanKeys_from rfl
  rw [hzero, hfull, hp, allKeys_eq, List.filter_flatMap]
  simp only [hp]

/-- Exactly when both lists are right: the expression is valid, and on each stored
key it means what the pattern means. -/
theorem listsMatches_iff_keyMatches : ListsMatches env ctx pattern db ↔
    ∃ isMatch, env.regex (globRegex (bytesToStr pattern)) = some isMatch ∧
      ∀ key ∈ allKeys db, keyMatches isMatch key = globMatches pattern key := by
  constructor
  · rintro ⟨⟨keys, hlist, hperm⟩, -⟩
    cases hregex : env.regex (globRegex (bytesToStr pattern)) with
    | none =>
      rw [listKeys_invalid hregex] at hlist
      cases hlist
    | some isMatch =>
      rw [listKeys_valid hregex] at hlist
      obtain rfl := Option.some.inj hlist
      refine ⟨isMatch, rfl, fun key hkey => ?_⟩
      have hmem : key ∈ (allKeys db).filter (keyMatches isMatch) ↔
          key ∈ (allKeys db).filter (globMatches pattern) := hperm.mem_iff
      rw [List.mem_filter, List.mem_filter, and_iff_right hkey, and_iff_right hkey] at hmem
      exact Bool.eq_iff_iff.mpr hmem
  · rintro ⟨isMatch, hregex, hagree⟩
    have hfilter : (allKeys db).filter (keyMatches isMatch) =
        (allKeys db).filter (globMatches pattern) :=
      List.filter_congr hagree
    have hretain : retainMatching env (some pattern) (allKeys db) =
        (allKeys db).filter (keyMatches isMatch) := by
      rw [retainMatching, Option.bind_some, hregex]
    refine ⟨⟨_, listKeys_valid hregex, ?_⟩, ⟨_, scanKeys_full, ?_⟩⟩
    · rw [hfilter]
    · rw [hretain, hfilter]

end Replies

section Patterns
variable {env : Env} {ctx : Ctx} {pattern : Bytes} {db : Memory} {p : Text}

theorem keyMatches_eq_iff {isMatch : Text → Bool} {key : Bytes} {s : Text}
    (hpattern : decode? pattern = some p)
    (hkey : decode? key = some s) : keyMatches isMatch key = globMatches pattern key ↔
      (isMatch s = true ↔ MatchesAny (globTokens p) s) := by
  rw [keyMatches, globMatches, hpattern, hkey]
  dsimp only
  rw [Bool.eq_iff_iff, decide_eq_true_iff]

theorem listsMatches_iff_means (hpattern : decode? pattern = some p)
    (hkeys : ∀ key ∈ allKeys db, (decode? key).isSome) :
    ListsMatches env ctx pattern db ↔ ∃ isMatch, env.regex (globRegex p) = some isMatch ∧
      ∀ key ∈ allKeys db, ∀ s, decode? key = some s →
        (isMatch s = true ↔ MatchesAny (globTokens p) s) := by
  have hstr : bytesToStr pattern = p := by
    rw [bytesToStr, hpattern, Option.getD_some]
  rw [listsMatches_iff_keyMatches, hstr]
  refine exists_congr fun isMatch => and_congr_right fun _ => forall₂_congr fun key hkey => ?_
  obtain ⟨s, hs⟩ := Option.isSome_iff_exists.mp (hkeys key hkey)
  rw [keyMatches_eq_iff hpattern hs]
  constructor
  · intro h s' hs'
    obtain rfl := Option.some.inj (hs.symm.trans hs')
    exact h
  · exact fun h => h s hs

theorem listsMatches_iff_plain (hregex : StandardSyntax env.regex)
    (hpattern : decode? pattern = some p)
    (hkeys : ∀ key ∈ allKeys db, (decode? key).isSome) (hplain : Plain p) :
    ListsMatches env ctx pattern db ↔ (env.regex (globRegex p)).isSome ∧
      ∀ key ∈ allKeys db, ∀ s, decode? key = some s → ReadAlike p s := by
  have hmeans : ∀ isMatch, env.regex (globRegex p) = some isMatch → ∀ s,
      ((isMatch s = true ↔ MatchesAny (globTokens p) s) ↔ ReadAlike p s) := by
    intro isMatch hvalid s
    rw [globRegex_eq] at hvalid
    rw [hregex _ (fun c hc => hplain.literal hc) isMatch hvalid s]
    exact readAlike_iff
  rw [listsMatches_iff_means hpattern hkeys, Option.isSome_iff_exists, ← exists_and_right]
  refine exists_congr fun isMatch => and_congr_right fun hvalid => forall₂_congr fun key _ => ?_
  exact forall₂_congr fun s _ => hmeans isMatch hvalid s

/-- Exactly when `KEYS` and `SCAN` list the keys that the pattern matches: the
expression is valid and means on each stored key what the pattern means. For a
pattern with no other syntax than dots and wildcards that is so where no wildcard
has to take a newline and no dot another character. -/
theorem listsMatches_iff (hregex : StandardSyntax env.regex) (hpattern : decode? pattern = some p)
    (hkeys : ∀ key ∈ allKeys db, (decode? key).isSome) :
    (ListsMatches env ctx pattern db ↔ ∃ isMatch, env.regex (globRegex p) = some isMatch ∧
      ∀ key ∈ allKeys db, ∀ s, decode? key = some s →
        (isMatch s = true ↔ MatchesAny (globTokens p) s)) ∧
    (Plain p → (ListsMatches env ctx pattern db ↔ (env.regex (globRegex p)).isSome ∧
      ∀ key ∈ allKeys db, ∀ s, decode? key = some s → ReadAlike p s)) :=
  ⟨listsMatches_iff_means hpattern hkeys, listsMatches_iff_plain hregex hpattern hkeys⟩

/-- An environment with that much of a regex compiler. -/
def regexEnv : Env := { plainEnv with regex := compile }

def oneWord : List LifeEvent := [.step (.command ⟨plainCtx, .set (lit "abc") (lit "1")⟩)]

theorem allKeys_oneWord : ∃ system, run (lifeStep regexEnv) System.fresh oneWord = some system ∧
    allKeys system.db = [lit "abc"] := by
  refine ⟨_, rfl, ?_⟩
  decide

section OneWord
variable {system : System} (hkeys : allKeys system.db = [lit "abc"])
include hkeys

theorem decode_oneWord : ∀ key ∈ allKeys system.db, decode? key = some ['a', 'b', 'c'] := by
  intro key hkey
  rw [hkeys] at hkey
  rw [List.mem_singleton.mp hkey]
  rfl

theorem utf8_oneWord : ∀ key ∈ allKeys system.db, (decode? key).isSome :=
  fun key hkey => Option.isSome_of_eq_some (decode_oneWord hkeys key hkey)

end OneWord

/-- `KEYS a.c` lists the key `abc`. -/
theorem keys_takes_dot : StandardSyntax regexEnv.regex ∧
    ∃ system, run (lifeStep regexEnv) System.fresh oneWord = some system ∧
      (∀ key ∈ allKeys system.db, (decode? key).isSome) ∧
      listKeys regexEnv plainCtx (lit "a.c") system.db = some [lit "abc"] ∧
      ¬ ListsMatches regexEnv plainCtx (lit "a.c") system.db := by
  obtain ⟨system, hrun, hkeys⟩ := allKeys_oneWord
  have hutf8 := utf8_oneWord hkeys
  have hpattern : decode? (lit "a.c") = some ['a', '.', 'c'] := rfl
  have hplain : Plain ['a', '.', 'c'] := by decide
  refine ⟨standardSyntax_compile, system, hrun, hutf8, ?_, fun h => ?_⟩
  · have hlist : listKeys regexEnv plainCtx (lit "a.c") system.db = _ := listKeys_valid rfl
    rw [hlist, hkeys]
    decide
  · obtain ⟨-, hread⟩ := (listsMatches_iff_plain standardSyntax_compile hpattern hutf8 hplain).mp h
    have habc := hread (lit "abc") (hkeys ▸ List.mem_singleton.mpr rfl) _ rfl
    exact absurd (habc.dots (by decide) (by decide)) (by decide)

/-- `KEYS a*` and a full `SCAN` with that pattern list it too. -/
theorem listsMatches_iff_star :
    ∃ system, run (lifeStep regexEnv) System.fresh oneWord = some system ∧
    ListsMatches regexEnv plainCtx (lit "a*") system.db := by
  obtain ⟨system, hrun, hkeys⟩ := allKeys_oneWord
  have hpattern : decode? (lit "a*") = some ['a', '*'] := rfl
  have hplain : Plain ['a', '*'] := by decide
  refine ⟨system, hrun,
    ((listsMatches_iff standardSyntax_compile hpattern (utf8_oneWord hkeys)).2 hplain).mpr
    ⟨rfl, fun key hkey s hs => ?_⟩⟩
  obtain rfl := Option.some.inj ((decode_oneWord hkeys key hkey).symm.trans hs)
  exact ⟨fun _ => rfl, fun _ _ => by decide⟩

/-- A database with the key and no other. -/
def holdingKey (env : Env) (key : Bytes) : Memory := fun i =>
  if i = calculateShardIndex env key then (∅ : Shard).insert key ⟨.string [], none⟩ else ∅

theorem mem_allKeys_holdingKey {env : Env} {key key' : Bytes} :
    key' ∈ allKeys (holdingKey env key) ↔ key' = key := by
  rw [mem_allKeys]
  constructor
  · rintro ⟨i, hi⟩
    unfold holdingKey at hi
    split at hi
    · exact ((AList.mem_insert _).mp hi).resolve_right (AList.notMem_empty _)
    · exact absurd hi (AList.notMem_empty _)
  · rintro rfl
    refine ⟨calculateShardIndex env key', ?_⟩
    rw [holdingKey, if_pos rfl]
    exact (AList.mem_insert _).mpr (Or.inl rfl)

/-- With a wildcard some text has a newline too many. -/
theorem not_readAlike_wildcard {c : Char} (hc : c ∈ p) (hwild : c = '*' ∨ c = '?') :
    ∃ s, ¬ ReadAlike p s := by
  refine ⟨fill '\n' (globTokens p), fun h => ?_⟩
  have hcount := h.newlines (matchesAny_fill _ _)
  have hlt : (literals (globTokens p)).count '\n' < (fill '\n' (globTokens p)).count '\n' := by
    refine count_lt_fill (List.mem_map_of_mem hc) fun a => ?_
    rcases hwild with rfl | rfl
    · exact (nofun : Token.many ≠ .lit a)
    · exact (nofun : Token.one ≠ .lit a)
  rw [count_literals_globTokens p (by decide) (by decide)] at hlt
  omega

/-- With a dot some text has another character in its place. -/
theorem not_readAlike_dot (hdot : '.' ∈ p) : ∃ s, ¬ ReadAlike p s := by
  refine ⟨fill 'a' (dotTokens p), fun h => ?_⟩
  have hcount : (fill 'a' (dotTokens p)).count '\n' = p.count '\n' := by
    rw [count_fill (by decide), dotTokens, count_literals_widen (by decide),
      count_literals_globTokens p (by decide) (by decide)]
  have hle := (h.dots (matchesAny_fill _ _) hcount).count_le '.'
  have hnone : '.' ∉ literals (dotTokens p) :=
    fun hmem => (mem_dotTokens (mem_literals.mp hmem)).2.1 rfl
  rw [count_fill (by decide), List.count_eq_zero.mpr hnone,
    count_literals_globTokens p (by decide) (by decide)] at hle
  exact absurd (List.count_pos_iff.mpr hdot) (Nat.not_lt.mpr hle)

theorem globTokens_of_literal (h : ∀ c ∈ p, c ∉ metacharacters) : globTokens p = p.map .lit := by
  refine List.map_congr_left fun c hc => ?_
  have hstar : c ≠ '*' := fun heq => h c hc (heq ▸ by decide)
  have hmark : c ≠ '?' := fun heq => h c hc (heq ▸ by decide)
  rw [globToken, if_neg hstar, if_neg hmark]

theorem readAlike_of_literal (h : ∀ c ∈ p, c ∉ metacharacters) (s : Text) : ReadAlike p s := by
  have hglob := globTokens_of_literal h
  have hdots : dotTokens p = globTokens p := by
    rw [dotTokens, hglob, List.map_map]
    refine List.map_congr_left fun c hc => ?_
    have hdot : (c == '.') = false := beq_eq_false_iff_ne.mpr fun heq => h c hc (heq ▸ by decide)
    rw [Function.comp, Token.widen, hdot]
    rfl
  constructor
  · intro hs
    rw [hglob] at hs
    rw [matches_map_lit.mp hs]
  · intro hs _
    rwa [hdots] at hs

/-- The patterns that are read right whatever the database holds are those without
any of the syntax, wildcards included. -/
theorem listsMatches_always_iff (hregex : StandardSyntax env.regex)
    (hpattern : decode? pattern = some p)
    (hplain : Plain p) (hvalid : (env.regex (globRegex p)).isSome) :
    (∀ db, (∀ key ∈ allKeys db, (decode? key).isSome) → ListsMatches env ctx pattern db) ↔
      ∀ c ∈ p, c ∉ metacharacters := by
  constructor
  · intro h c hc hmeta
    have hread : ∀ s, ReadAlike p s := by
      intro s
      have hkeys : ∀ key ∈ allKeys (holdingKey env (encode s)), decode? key = some s := by
        intro key hkey
        rw [mem_allKeys_holdingKey.mp hkey, decode?_encode]
      have hutf8 : ∀ key ∈ allKeys (holdingKey env (encode s)), (decode? key).isSome :=
        fun key hkey => Option.isSome_of_eq_some (hkeys key hkey)
      have hlists := ((listsMatches_iff_plain hregex hpattern hutf8 hplain).mp (h _ hutf8)).2
      exact hlists (encode s) (mem_allKeys_holdingKey.mpr rfl) s (decode?_encode s)
    rcases hplain c hc hmeta with rfl | hwild
    · obtain ⟨s, hs⟩ := not_readAlike_dot hc
      exact hs (hread s)
    · obtain ⟨s, hs⟩ := not_readAlike_wildcard hc hwild
      exact hs (hread s)
  · intro h db hkeys
    exact (listsMatches_iff_plain hregex hpattern hkeys hplain).mpr
      ⟨hvalid, fun key _ s _ => readAlike_of_literal h s⟩

end Patterns

end TitanKv
