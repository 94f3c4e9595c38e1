import Mathlib.Data.List.Basic

/-! # Patterns with wildcards

A pattern is a list of literals and of wildcards for one or for any number of
characters. The wildcards of a shell take every character, those of a regular
expression every character but one: the two agree exactly where the text has no
more of that character than the pattern spells out. -/

namespace Glob

inductive Token (α : Type) where
  | lit (a : α)
  | one
  | many
  deriving DecidableEq

section Matching
variable {α : Type}

/-- Whether the pattern matches the whole text. A wildcard takes only characters
that are `ok`. -/
def Matches (ok : α → Prop) : List (Token α) → List α → Prop
  | [], s => s = []
  | .lit a :: ts, s => ∃ v, s = a :: v ∧ Matches ok ts v
  | .one :: ts, s => ∃ c v, s = c :: v ∧ ok c ∧ Matches ok ts v
  | .many :: ts, s => ∃ u v, s = u ++ v ∧ (∀ c ∈ u, ok c) ∧ Matches ok ts v

/-- With wildcards that take every character. -/
abbrev MatchesAny (ts : List (Token α)) (s : List α) : Prop := Matches (fun _ => True) ts s

def literals : List (Token α) → List α
  | [] => []
  | .lit a :: ts => a :: literals ts
  | _ :: ts => literals ts

/-- Some literals read as wildcards for one character. -/
def Token.widen (p : α → Bool) : Token α → Token α
  | .lit a => if p a then .one else .lit a
  | t => t

/-- A text that the pattern matches, with the character for each wildcard. -/
def fill (c : α) (ts : List (Token α)) : List α := ts.map fun
  | .lit a => a
  | _ => c

section Decide
variable {ok : α → Prop} {ts : List (Token α)} {s : List α}

theorem matches_many_iff : Matches ok (.many :: ts) s ↔
    ∃ n ∈ List.range (s.length + 1), (∀ c ∈ s.take n, ok c) ∧ Matches ok ts (s.drop n) := by
  constructor
  · rintro ⟨u, v, rfl, hu, hv⟩
    refine ⟨u.length, List.mem_range.mpr (by rw [List.length_append]; omega), ?_, ?_⟩
    · rwa [List.take_left]
    · rwa [List.drop_left]
  · rintro ⟨n, -, htake, hdrop⟩
    exact ⟨s.take n, s.drop n, (List.take_append_drop n s).symm, htake, hdrop⟩

instance decidableMatches [DecidableEq α] [DecidablePred ok] :
    (ts : List (Token α)) → (s : List α) → Decidable (Matches ok ts s)
  | [], s => inferInstanceAs (Decidable (s = []))
  | .lit _ :: _, [] => isFalse (by rintro ⟨_, h, -⟩; cases h)
  | .lit a :: ts, c :: v =>
    have := decidableMatches ts v
    decidable_of_iff (c = a ∧ Matches ok ts v)
      ⟨fun ⟨h, hv⟩ => ⟨v, h ▸ rfl, hv⟩, fun ⟨_, h, hv⟩ => by cases h; exact ⟨rfl, hv⟩⟩
  | .one :: _, [] => isFalse (by rintro ⟨_, _, h, -⟩; cases h)
  | .one :: ts, c :: v =>
    have := decidableMatches ts v
    decidable_of_iff (ok c ∧ Matches ok ts v)
      ⟨fun ⟨h, hv⟩ => ⟨c, v, rfl, h, hv⟩, fun ⟨_, _, h, hv⟩ => by cases h; exact hv⟩
  | .many :: ts, s =>
    have := decidableMatches ts
    decidable_of_iff _ matches_many_iff.symm

end Decide

section Laws
variable {ok : α → Prop} {ts : List (Token α)} {s : List α}

theorem Matches.mono {ok' : α → Prop} (h : Matches ok ts s) (hok : ∀ c, ok c → ok' c) :
    Matches ok' ts s := by
  induction ts generalizing s with
  | nil => exact h
  | cons t ts ih =>
    cases t with
    | lit a =>
      obtain ⟨v, rfl, hv⟩ := h
      exact ⟨v, rfl, ih hv⟩
    | one =>
      obtain ⟨c, v, rfl, hc, hv⟩ := h
      exact ⟨c, v, rfl, hok c hc, ih hv⟩
    | many =>
      obtain ⟨u, v, rfl, hu, hv⟩ := h
      exact ⟨u, v, rfl, fun c hc => hok c (hu c hc), ih hv⟩

theorem MatchesAny.widen (h : MatchesAny ts s) (p : α → Bool) :
    MatchesAny (ts.map (Token.widen p)) s := by
  induction ts generalizing s with
  | nil => exact h
  | cons t ts ih =>
    cases t with
    | lit a =>
      obtain ⟨v, rfl, hv⟩ := h
      rw [List.map_cons, Token.widen]
      split
      · exact ⟨a, v, rfl, trivial, ih hv⟩
      · exact ⟨v, rfl, ih hv⟩
    | one =>
      obtain ⟨c, v, rfl, hc, hv⟩ := h
      exact ⟨c, v, rfl, hc, ih hv⟩
    | many =>
      obtain ⟨u, v, rfl, hu, hv⟩ := h
      exact ⟨u, v, rfl, hu, ih hv⟩

@[simp] theorem literals_cons_lit (a : α) (ts : List (Token α)) :
    literals (.lit a :: ts) = a :: literals ts := rfl

@[simp] theorem literals_cons_one (ts : List (Token α)) : literals (.one :: ts) = literals ts := rfl

@[simp] theorem literals_cons_many (ts : List (Token α)) :
    literals (.many :: ts) = literals ts := rfl

theorem matchesAny_fill (c : α) (ts : List (Token α)) : MatchesAny ts (fill c ts) := by
  induction ts with
  | nil => rfl
  | cons t ts ih =>
    cases t with
    | lit a => exact ⟨_, rfl, ih⟩
    | one => exact ⟨c, _, rfl, trivial, ih⟩
    | many => exact ⟨[c], _, rfl, fun _ _ => trivial, ih⟩

theorem mem_literals {a : α} : a ∈ literals ts ↔ .lit a ∈ ts := by
  induction ts with
  | nil => simp [literals]
  | cons t ts ih => cases t <;> simp [ih]

/-- A pattern without wildcards matches only the text that it spells. -/
theorem matches_map_lit {u : List α} : Matches ok (u.map .lit) s ↔ s = u := by
  induction u generalizing s with
  | nil => rfl
  | cons c u ih =>
    constructor
    · rintro ⟨v, rfl, hv⟩
      rw [ih.mp hv]
    · rintro rfl
      exact ⟨u, rfl, ih.mpr rfl⟩

variable [DecidableEq α]

/-- A text has each literal at least as often as the pattern. -/
theorem Matches.count_le (h : Matches ok ts s) (b : α) : (literals ts).count b ≤ s.count b := by
  induction ts generalizing s with
  | nil => exact Nat.zero_le _
  | cons t ts ih =>
    cases t with
    | lit a =>
      obtain ⟨v, rfl, hv⟩ := h
      have hle := ih hv
      rw [literals_cons_lit, List.count_cons, List.count_cons]
      exact Nat.add_le_add_right hle _
    | one =>
      obtain ⟨c, v, rfl, -, hv⟩ := h
      exact Nat.le_trans (ih hv) List.count_le_count_cons
    | many =>
      obtain ⟨u, v, rfl, -, hv⟩ := h
      rw [List.count_append]
      exact Nat.le_trans (ih hv) (Nat.le_add_left _ _)

/-- Wildcards that do not take `b` match a text exactly when wildcards that take
everything do, and none of them has to take a `b`. -/
theorem matches_ne_iff {b : α} :
    Matches (· ≠ b) ts s ↔ MatchesAny ts s ∧ s.count b = (literals ts).count b := by
  induction ts generalizing s with
  | nil =>
    constructor
    · rintro rfl
      exact ⟨rfl, rfl⟩
    · exact And.left
  | cons t ts ih =>
    cases t with
    | lit a =>
      have hcount : ∀ v : List α, (a :: v).count b = (literals (.lit a :: ts)).count b ↔
          v.count b = (literals ts).count b := by
        intro v
        rw [literals_cons_lit, List.count_cons, List.count_cons]
        exact Nat.add_right_cancel_iff
      constructor
      · rintro ⟨v, rfl, hv⟩
        exact ⟨⟨v, rfl, (ih.mp hv).1⟩, (hcount v).mpr (ih.mp hv).2⟩
      · rintro ⟨⟨v, rfl, hv⟩, heq⟩
        exact ⟨v, rfl, ih.mpr ⟨hv, (hcount v).mp heq⟩⟩
    | one =>
      constructor
      · rintro ⟨c, v, rfl, hc, hv⟩
        rw [literals_cons_one, List.count_cons_of_ne hc]
        exact ⟨⟨c, v, rfl, trivial, (ih.mp hv).1⟩, (ih.mp hv).2⟩
      · rintro ⟨⟨c, v, rfl, -, hv⟩, heq⟩
        rw [literals_cons_one] at heq
        have hle := hv.count_le b
        have hc : c ≠ b := by
          rintro rfl
          rw [List.count_cons_self] at heq
          omega
        rw [List.count_cons_of_ne hc] at heq
        exact ⟨c, v, rfl, hc, ih.mpr ⟨hv, heq⟩⟩
    | many =>
      constructor
      · rintro ⟨u, v, rfl, hu, hv⟩
        have hzero : u.count b = 0 := List.count_eq_zero.mpr fun hb => hu b hb rfl
        rw [literals_cons_many, List.count_append, hzero, Nat.zero_add]
        exact ⟨⟨u, v, rfl, fun _ _ => trivial, (ih.mp hv).1⟩, (ih.mp hv).2⟩
      · rintro ⟨⟨u, v, rfl, -, hv⟩, heq⟩
        rw [literals_cons_many, List.count_append] at heq
        have hle := hv.count_le b
        have hzero : u.count b = 0 := by omega
        refine ⟨u, v, rfl, ?_, ih.mpr ⟨hv, by omega⟩⟩
        rintro c hc rfl
        exact List.count_eq_zero.mp hzero hc

theorem count_literals_widen {p : α → Bool} {b : α} (hp : p b = false) (ts : List (Token α)) :
    (literals (ts.map (Token.widen p))).count b = (literals ts).count b := by
  induction ts with
  | nil => rfl
  | cons t ts ih =>
    cases t with
    | one => exact ih
    | many => exact ih
    | lit a =>
      rw [List.map_cons, Token.widen, literals_cons_lit, List.count_cons]
      split
      · rename_i ha
        have hne : a ≠ b := by
          rintro rfl
          exact Bool.noConfusion (ha.symm.trans hp)
        rw [literals_cons_one, ih, if_neg (by simpa using hne), Nat.add_zero]
      · rw [literals_cons_lit, List.count_cons, ih]

theorem count_fill {b c : α} (h : c ≠ b) (ts : List (Token α)) :
    (fill c ts).count b = (literals ts).count b := by
  induction ts with
  | nil => rfl
  | cons t ts ih =>
    cases t with
    | lit a =>
      rw [literals_cons_lit, List.count_cons, ← ih, fill, List.map_cons, List.count_cons]
      rfl
    | one => exact (List.count_cons_of_ne h).trans ih
    | many => exact (List.count_cons_of_ne h).trans ih

/-- Text with a `b` for each wildcard has more of them than the pattern spells out. -/
theorem count_lt_fill {b : α} {t : Token α} (ht : t ∈ ts) (hwild : ∀ a, t ≠ .lit a) :
    (literals ts).count b < (fill b ts).count b := by
  induction ts with
  | nil => cases ht
  | cons u ts ih =>
    have hle := (matchesAny_fill b ts).count_le b
    cases u with
    | lit a =>
      have htail : t ∈ ts := (List.mem_cons.mp ht).resolve_left (hwild a)
      rw [literals_cons_lit, fill, List.map_cons, List.count_cons, List.count_cons]
      exact Nat.add_lt_add_right (ih htail) _
    | one | many =>
      show (literals ts).count b < (b :: fill b ts).count b
      rw [List.count_cons_self]
      exact Nat.lt_succ_of_le hle

end Laws

end Matching

section Expressions

/-- The characters that a regular expression does not read as themselves. -/
def metacharacters : List Char := ['\\', '.', '^', '$', '|', '(', ')', '[', '{', '*', '+', '?']

def Token.expression : Token Char → List Char
  | .lit c => [c]
  | .one => ['.']
  | .many => ['.', '*']

/-- The regular expression for a whole text that the pattern matches. -/
def anchored (ts : List (Token Char)) : List Char := ['^'] ++ ts.flatMap Token.expression ++ ['$']

/-- What a compiler of regular expressions, where it accepts the text, makes of
literals, of `.`, which takes no newline, and of `.*` between the anchors. -/
def StandardSyntax (compile : List Char → Option (List Char → Bool)) : Prop :=
  ∀ ts, (∀ c, .lit c ∈ ts → c ∉ metacharacters) → ∀ isMatch, compile (anchored ts) = some isMatch →
    ∀ s, isMatch s = true ↔ Matches (· ≠ '\n') ts s

/-- The tokens of an expression that has no other construct. -/
def readTokens : List Char → Option (List (Token Char))
  | [] => some []
  | '.' :: '*' :: s => (readTokens s).map (.many :: ·)
  | '.' :: s => (readTokens s).map (.one :: ·)
  | c :: s => if c ∈ metacharacters then none else (readTokens s).map (.lit c :: ·)

/-- The compiler for that part of the syntax. -/
def compile : List Char → Option (List Char → Bool)
  | '^' :: rest =>
    if rest.getLast? = some '$' then
      (readTokens rest.dropLast).map fun ts s => decide (Matches (· ≠ '\n') ts s)
    else none
  | _ => none

variable {ts : List (Token Char)}

theorem readTokens_expression (h : ∀ c, .lit c ∈ ts → c ∉ metacharacters) :
    readTokens (ts.flatMap Token.expression) = some ts := by
  induction ts with
  | nil => rfl
  | cons t ts ih =>
    have htail := ih fun c hc => h c (List.mem_cons_of_mem _ hc)
    rw [List.flatMap_cons]
    cases t with
    | many =>
      rw [Token.expression, List.cons_append, List.cons_append, List.nil_append, readTokens, htail]
      rfl
    | one =>
      -- A star after the dot could only come from a literal star.
      have hstar : ∀ s, ts.flatMap Token.expression = '*' :: s → False := by
        intro s hs
        cases ts with
        | nil => cases hs
        | cons u ts =>
          cases u with
          | lit c =>
            obtain ⟨rfl, -⟩ := List.cons.inj hs
            exact h '*' (by simp) (by decide)
          | one => cases hs
          | many => cases hs
      rw [Token.expression, List.singleton_append, readTokens, htail]
      · rfl
      · exact hstar
    | lit c =>
      have hc := h c List.mem_cons_self
      have hdot : c ≠ '.' := by
        rintro rfl
        exact hc (by decide)
      rw [Token.expression, List.singleton_append, readTokens, if_neg hc, htail]
      · rfl
      · rintro s rfl
        exact fun _ => hdot rfl
      · exact hdot

theorem compile_anchored (h : ∀ c, .lit c ∈ ts → c ∉ metacharacters) :
    compile (anchored ts) = some fun s => decide (Matches (· ≠ '\n') ts s) := by
  have hlast : (ts.flatMap Token.expression ++ ['$']).getLast? = some '$' := List.getLast?_concat
  rw [anchored, List.append_assoc, List.singleton_append, compile, if_pos hlast,
    List.dropLast_concat, readTokens_expression h]
  rfl

theorem standardSyntax_compile : StandardSyntax compile := by
  intro ts hts isMatch hcompile s
  rw [compile_anchored hts] at hcompile
  obtain rfl := Option.some.inj hcompile
  exact decide_eq_true_iff

end Expressions

end Glob
