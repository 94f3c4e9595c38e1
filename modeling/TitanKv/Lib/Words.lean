import Mathlib.Algebra.Group.Nat.Even
import Mathlib.Data.List.Basic

/-! # Words between separators, with quotes

A text is cut at its separators, but for those between a pair of quotes; quotes
themselves are dropped, also within a word. A separator outside quotes cuts the
text into two that are read apart; the words hold what is left of it, in order. -/

namespace Words

variable {α : Type} (isQuote isSep : α → Bool)

/-- The word under way, if there is one. -/
def finish (current : List α) : List (List α) := if current.isEmpty then [] else [current]

/-- The words from the word under way and the quoting state on. -/
def wordsFrom (current : List α) (inQuotes : Bool) : List α → List (List α)
  | [] => finish current
  | c :: rest =>
    if isQuote c then wordsFrom current (!inQuotes) rest
    else if isSep c && !inQuotes then finish current ++ wordsFrom [] inQuotes rest
    else wordsFrom (current ++ [c]) inQuotes rest

def words (text : List α) : List (List α) := wordsFrom isQuote isSep [] false text

/-- Behind a text with all its quotes closed. -/
def Outside (before : List α) : Prop := Even (before.countP isQuote)

instance (before : List α) : Decidable (Outside isQuote before) :=
  inferInstanceAs (Decidable (Even _))

/-- A text behind another, without its quotes and the separators outside them. -/
def keptFrom (before : List α) : List α → List α
  | [] => []
  | c :: rest =>
    if isQuote c = true ∨ isSep c = true ∧ Outside isQuote before then keptFrom (before ++ [c]) rest
    else c :: keptFrom (before ++ [c]) rest

def kept (text : List α) : List α := keptFrom isQuote isSep [] text

section Laws
variable {isQuote isSep : α → Bool} {current w a b t before : List α} {inQuotes : Bool} {c s : α}

theorem finish_of_ne_nil (h : current ≠ []) : finish current = [current] := by
  rw [finish, if_neg (by simpa using h)]

theorem mem_finish (h : w ∈ finish current) : w = current ∧ current ≠ [] := by
  unfold finish at h
  split at h
  · cases h
  · rename_i hne
    exact ⟨List.mem_singleton.mp h, by simpa using hne⟩

theorem flatten_finish (current : List α) : (finish current).flatten = current := by
  by_cases h : current = []
  · rw [h]
    rfl
  · rw [finish_of_ne_nil h, List.flatten_singleton]

theorem wordsFrom_quote (h : isQuote c = true) :
    wordsFrom isQuote isSep current inQuotes (c :: t) =
      wordsFrom isQuote isSep current (!inQuotes) t := by
  rw [wordsFrom, if_pos h]

theorem wordsFrom_sep (hc : isQuote c = false) (hs : isSep c = true) :
    wordsFrom isQuote isSep current false (c :: t) =
      finish current ++ wordsFrom isQuote isSep [] false t := by
  rw [wordsFrom, if_neg (by simp [hc]), if_pos (by simp [hs])]

/-- Every other character joins the word under way. -/
theorem wordsFrom_other (hc : isQuote c = false) (hs : (isSep c && !inQuotes) = false) :
    wordsFrom isQuote isSep current inQuotes (c :: t) =
      wordsFrom isQuote isSep (current ++ [c]) inQuotes t := by
  rw [wordsFrom, if_neg (by simp [hc]), if_neg (by simp [hs])]

/-- A separator behind closed quotes cuts the text in two. -/
theorem wordsFrom_append (hs : isSep s = true) (hq : isQuote s = false)
    (h : Even (inQuotes.toNat + a.countP isQuote)) :
    wordsFrom isQuote isSep current inQuotes (a ++ s :: b) =
      wordsFrom isQuote isSep current inQuotes a ++ wordsFrom isQuote isSep [] false b := by
  induction a generalizing current inQuotes with
  | nil =>
    cases inQuotes with
    | true =>
      rw [List.countP_nil] at h
      exact absurd h (by decide)
    | false => exact wordsFrom_sep hq hs
  | cons c a ih =>
    rw [List.cons_append]
    cases hc : isQuote c with
    | true =>
      have heven : Even ((!inQuotes).toNat + a.countP isQuote) := by
        rw [List.countP_cons_of_pos hc, Nat.even_iff] at h
        rw [Nat.even_iff]
        cases inQuotes
        · rw [Bool.toNat_false] at h
          rw [Bool.not_false, Bool.toNat_true]
          omega
        · rw [Bool.toNat_true] at h
          rw [Bool.not_true, Bool.toNat_false]
          omega
      rw [wordsFrom_quote hc, wordsFrom_quote hc, ih heven]
    | false =>
      rw [List.countP_cons_of_neg (by simp [hc])] at h
      cases hsep : isSep c && !inQuotes with
      | true =>
        obtain ⟨hsc, hout⟩ := Bool.and_eq_true_iff.mp hsep
        obtain rfl : inQuotes = false := by simpa using hout
        rw [wordsFrom_sep hc hsc, wordsFrom_sep hc hsc, ih h, List.append_assoc]
      | false => rw [wordsFrom_other hc hsep, wordsFrom_other hc hsep, ih h]

theorem words_append (hs : isSep s = true) (hq : isQuote s = false) (h : Outside isQuote a) :
    words isQuote isSep (a ++ s :: b) = words isQuote isSep a ++ words isQuote isSep b :=
  wordsFrom_append hs hq (by rwa [Bool.toNat_false, Nat.zero_add])

/-- No word is empty or holds a quote. -/
theorem mem_wordsFrom (hcurrent : ∀ c ∈ current, isQuote c = false)
    (h : w ∈ wordsFrom isQuote isSep current inQuotes t) : w ≠ [] ∧ ∀ c ∈ w, isQuote c = false := by
  induction t generalizing current inQuotes with
  | nil =>
    obtain ⟨rfl, hne⟩ := mem_finish h
    exact ⟨hne, hcurrent⟩
  | cons c t ih =>
    cases hc : isQuote c with
    | true =>
      rw [wordsFrom_quote hc] at h
      exact ih hcurrent h
    | false =>
      cases hsep : isSep c && !inQuotes with
      | true =>
        obtain ⟨hsc, hout⟩ := Bool.and_eq_true_iff.mp hsep
        obtain rfl : inQuotes = false := by simpa using hout
        rw [wordsFrom_sep hc hsc] at h
        rcases List.mem_append.mp h with hw | hw
        · obtain ⟨rfl, hne⟩ := mem_finish hw
          exact ⟨hne, hcurrent⟩
        · exact ih (by simp) hw
      | false =>
        rw [wordsFrom_other hc hsep] at h
        exact ih (List.forall_mem_append.mpr ⟨hcurrent, List.forall_mem_singleton.mpr hc⟩) h

/-- The words together are what is kept of the text. -/
theorem flatten_wordsFrom (h : inQuotes = true ↔ ¬ Outside isQuote before) :
    (wordsFrom isQuote isSep current inQuotes t).flatten =
      current ++ keptFrom isQuote isSep before t := by
  induction t generalizing current inQuotes before with
  | nil => rw [wordsFrom, flatten_finish, keptFrom, List.append_nil]
  | cons c t ih =>
    have hcount : (before ++ [c]).countP isQuote = before.countP isQuote + [c].countP isQuote :=
      List.countP_append
    cases hc : isQuote c with
    | true =>
      have hflip : (!inQuotes) = true ↔ ¬ Outside isQuote (before ++ [c]) := by
        rw [Outside, hcount, List.countP_singleton, if_pos hc, Nat.even_add_one, not_not,
          Bool.not_eq_true', ← Bool.not_eq_true, h, not_not, Outside]
      rw [wordsFrom_quote hc, ih hflip, keptFrom, if_pos (Or.inl hc)]
    | false =>
      have hsame : inQuotes = true ↔ ¬ Outside isQuote (before ++ [c]) := by
        rw [Outside, hcount, List.countP_singleton, if_neg (by simp [hc]), Nat.add_zero, h, Outside]
      cases hsep : isSep c && !inQuotes with
      | true =>
        obtain ⟨hsc, hout⟩ := Bool.and_eq_true_iff.mp hsep
        obtain rfl : inQuotes = false := by simpa using hout
        have houtside : Outside isQuote before := by
          by_contra hin
          cases h.mpr hin
        rw [wordsFrom_sep hc hsc, List.flatten_append, flatten_finish, ih hsame, keptFrom,
          if_pos (Or.inr ⟨hsc, houtside⟩), List.nil_append]
      | false =>
        have hkeep : ¬ (isQuote c = true ∨ isSep c = true ∧ Outside isQuote before) := by
          rintro (hquote | ⟨hsc, hout⟩)
          · rw [hc] at hquote
            cases hquote
          · have hin : inQuotes = true := by simpa [hsc] using hsep
            exact h.mp hin hout
        rw [wordsFrom_other hc hsep, ih hsame, keptFrom, if_neg hkeep, List.append_assoc,
          List.singleton_append]

theorem flatten_words (t : List α) : (words isQuote isSep t).flatten = kept isQuote isSep t :=
  flatten_wordsFrom (by simp [Outside])

end Laws

section Joined
variable {isQuote isSep : α → Bool} {current w rest : List α} {ws : List (List α)} {s : α}

/-- A text with neither quotes nor separators. -/
def Plain (isQuote isSep : α → Bool) (w : List α) : Prop :=
  ∀ c ∈ w, isQuote c = false ∧ isSep c = false

theorem wordsFrom_plain (h : Plain isQuote isSep w) :
    wordsFrom isQuote isSep current false (w ++ rest) =
      wordsFrom isQuote isSep (current ++ w) false rest := by
  induction w generalizing current with
  | nil => rw [List.nil_append, List.append_nil]
  | cons c w ih =>
    obtain ⟨hc, hw⟩ := List.forall_mem_cons.mp h
    rw [List.cons_append, wordsFrom_other hc.1 (by simp [hc.2]), ih hw, List.append_assoc,
      List.singleton_append]

theorem words_plain (h : Plain isQuote isSep w) (hne : w ≠ []) : words isQuote isSep w = [w] := by
  have hw : wordsFrom isQuote isSep [] false (w ++ []) = _ := wordsFrom_plain h
  rw [List.append_nil, List.nil_append] at hw
  rw [words, hw, wordsFrom, finish_of_ne_nil hne]

theorem outside_plain (h : Plain isQuote isSep w) : Outside isQuote w := by
  have hnone : w.countP isQuote = 0 := List.countP_eq_zero.mpr fun c hc => by simp [(h c hc).1]
  rw [Outside, hnone]
  exact Even.zero

omit isQuote isSep in
theorem mem_intercalate {c : α} (h : c ∈ List.intercalate [s] ws) : c = s ∨ ∃ w ∈ ws, c ∈ w := by
  induction ws with
  | nil => cases h
  | cons w ws ih =>
    cases ws with
    | nil =>
      rw [List.intercalate_singleton] at h
      exact Or.inr ⟨w, List.mem_cons_self, h⟩
    | cons v vs =>
      rw [List.intercalate_cons_cons, List.mem_append, List.mem_append, List.mem_singleton] at h
      rcases h with (hw | hs) | hrest
      · exact Or.inr ⟨w, List.mem_cons_self, hw⟩
      · exact Or.inl hs
      · exact (ih hrest).imp_right fun ⟨u, hu, hc⟩ => ⟨u, List.mem_cons_of_mem _ hu, hc⟩

omit isQuote isSep in
/-- What follows the last word joins it. -/
theorem intercalate_concat_append (init : List (List α)) (w t : List α) :
    List.intercalate [s] (init ++ [w]) ++ t = List.intercalate [s] (init ++ [w ++ t]) := by
  induction init with
  | nil =>
    rw [List.nil_append, List.nil_append, List.intercalate_singleton, List.intercalate_singleton]
  | cons v init ih =>
    rw [List.cons_append, List.cons_append, List.intercalate_cons_of_ne_nil (by simp),
      List.intercalate_cons_of_ne_nil (by simp), List.append_assoc, ih]

theorem outside_intercalate (hq : isQuote s = false) (h : ∀ w ∈ ws, Plain isQuote isSep w) :
    Outside isQuote (List.intercalate [s] ws) := by
  have hnone : (List.intercalate [s] ws).countP isQuote = 0 := by
    refine List.countP_eq_zero.mpr fun c hc => ?_
    rcases mem_intercalate hc with rfl | ⟨w, hw, hcw⟩
    · simp [hq]
    · simp [(h w hw c hcw).1]
  rw [Outside, hnone]
  exact Even.zero

/-- Words joined by one separator each come back. -/
theorem words_intercalate (hs : isSep s = true) (hq : isQuote s = false)
    (h : ∀ w ∈ ws, w ≠ [] ∧ Plain isQuote isSep w) :
    words isQuote isSep (List.intercalate [s] ws) = ws := by
  induction ws with
  | nil => rfl
  | cons w ws ih =>
    obtain ⟨⟨hne, hplain⟩, hws⟩ := List.forall_mem_cons.mp h
    cases ws with
    | nil => rw [List.intercalate_singleton, words_plain hplain hne]
    | cons v vs =>
      rw [List.intercalate_cons_cons, List.append_assoc, List.singleton_append,
        words_append hs hq (outside_plain hplain), words_plain hplain hne, ih hws,
          List.singleton_append]

end Joined

end Words
