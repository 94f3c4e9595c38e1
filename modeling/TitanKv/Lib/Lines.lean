import TitanKv.Lib.Utf8

/-! # Splitting a stream after each terminator

`split` cuts a list after every occurrence of a terminator, which stays at the
end of its piece; the last piece may lack one. On encoded text the byte view
and the character view of the lines agree. -/

namespace Lines

section Split
variable {α : Type} [DecidableEq α] {nl : α}

def split (nl : α) : List α → List (List α)
  | [] => []
  | c :: rest =>
    if c = nl then [c] :: split nl rest
    else match split nl rest with
      | [] => [[c]]
      | l :: ls => (c :: l) :: ls

@[simp] theorem split_nil : split nl [] = [] := rfl

theorem split_cons (c : α) (rest : List α) : split nl (c :: rest) =
    if c = nl then [c] :: split nl rest
    else match split nl rest with
      | [] => [[c]]
      | l :: ls => (c :: l) :: ls := rfl

@[simp] theorem split_terminator (rest : List α) :
    split nl (nl :: rest) = [nl] :: split nl rest := by
  simp [split_cons]

theorem split_eq_nil {l : List α} : split nl l = [] ↔ l = [] := by
  cases l with
  | nil => simp
  | cons c rest =>
    simp only [split_cons, reduceCtorEq, iff_false]
    split
    · simp
    · split <;> simp

/-- A terminated line is the first piece. -/
theorem split_line {l : List α} (h : nl ∉ l) (rest : List α) :
    split nl (l ++ nl :: rest) = (l ++ [nl]) :: split nl rest := by
  induction l with
  | nil => simp
  | cons c l ih =>
    obtain ⟨hc, hl⟩ := not_or.mp (mt List.mem_cons.mpr h)
    simp [split_cons, Ne.symm hc, ih hl]

/-- Text without a terminator is one piece. -/
theorem split_of_notMem {l : List α} (h : nl ∉ l) (hne : l ≠ []) : split nl l = [l] := by
  induction l with
  | nil => exact absurd rfl hne
  | cons c l ih =>
    obtain ⟨hc, hl⟩ := not_or.mp (mt List.mem_cons.mpr h)
    by_cases hnil : l = []
    · simp [split_cons, Ne.symm hc, hnil]
    · simp [split_cons, Ne.symm hc, ih hl hnil]

/-- A terminated text starts with a terminated line. -/
theorem split_first (s : List α) : ∃ line rest, split nl (s ++ [nl]) = (line ++ [nl]) :: rest := by
  induction s with
  | nil => exact ⟨[], [], by simp⟩
  | cons c s ih =>
    obtain ⟨line, rest, hrest⟩ := ih
    by_cases hc : c = nl
    · subst hc
      exact ⟨[], _, split_terminator _⟩
    · exact ⟨c :: line, rest, by simp [split_cons, hc, hrest]⟩

/-- Splitting restarts after a terminator. -/
theorem split_append_terminated (s rest : List α) :
    split nl (s ++ nl :: rest) = split nl (s ++ [nl]) ++ split nl rest := by
  induction s with
  | nil => simp
  | cons c s ih =>
    simp only [List.cons_append, split_cons, ih]
    split
    · rfl
    · have hne : split nl (s ++ [nl]) ≠ [] := by simp [split_eq_nil]
      cases hs : split nl (s ++ [nl]) with
      | nil => exact absurd hs hne
      | cons l ls => rfl

/-- A terminated text has a piece for each terminator in it. -/
theorem length_split_terminated (l : List α) : (split nl (l ++ [nl])).length = l.count nl + 1 := by
  induction l with
  | nil => simp
  | cons c l ih =>
    by_cases hc : c = nl
    · subst hc; simp [ih]
    · have hne : split nl (l ++ [nl]) ≠ [] := by simp [split_eq_nil]
      obtain ⟨first, others, hs⟩ := List.exists_cons_of_ne_nil hne
      rw [hs] at ih
      simp [split_cons, hc, hs, ← ih]

/-- A piece is a terminator-free body, with or without its terminator. -/
theorem mem_split {l : List α} {piece : List α} (h : piece ∈ split nl l) :
    ∃ body, nl ∉ body ∧ (piece = body ++ [nl] ∨ piece = body ∧ body ≠ []) := by
  induction l generalizing piece with
  | nil => simp at h
  | cons c l ih =>
    by_cases hc : c = nl
    · subst hc
      simp only [split_terminator, List.mem_cons] at h
      rcases h with rfl | h
      · exact ⟨[], by simp, Or.inl rfl⟩
      · exact ih h
    · simp only [split_cons, hc, if_false] at h
      split at h
      · rw [List.mem_singleton] at h
        exact ⟨[c], by simpa using Ne.symm hc, Or.inr ⟨h, by simp⟩⟩
      · rename_i first others hs
        rw [List.mem_cons] at h
        rcases h with rfl | h
        · obtain ⟨body, hb, he⟩ := @ih first (by rw [hs]; simp)
          refine ⟨c :: body, by simp [Ne.symm hc, hb], ?_⟩
          rcases he with rfl | ⟨rfl, _⟩
          · exact Or.inl rfl
          · exact Or.inr ⟨rfl, by simp⟩
        · exact ih (by rw [hs]; exact List.mem_cons_of_mem _ h)

/-- A prefix with no terminator joins the first piece of what follows. -/
theorem split_prefix {p : List α} (hp : nl ∉ p) {t first : List α} {others : List (List α)}
    (ht : split nl t = first :: others) : split nl (p ++ t) = (p ++ first) :: others := by
  induction p with
  | nil => simpa using ht
  | cons c p ih =>
    obtain ⟨hc, hl⟩ := not_or.mp (mt List.mem_cons.mpr hp)
    simp [split_cons, Ne.symm hc, ih hl]

omit [DecidableEq α] in
theorem prefix_append_cases {p a b : List α} (h : p <+: a ++ b) :
    p <+: a ∨ ∃ g, p = a ++ g ∧ g <+: b := by
  rcases List.prefix_or_prefix_of_prefix h (List.prefix_append a b) with hp | hp
  · exact Or.inl hp
  · obtain ⟨g, rfl⟩ := hp
    exact Or.inr ⟨g, rfl, (List.prefix_append_right_inj a).mp h⟩

omit [DecidableEq α] in
/-- A prefix of terminated lines is a number of whole lines and a part of one
line without its terminator. -/
theorem prefix_lines {ls : List (List α)} {p : List α} (h : p <+: ls.flatMap (· ++ [nl])) :
    ∃ m q, p = (ls.take m).flatMap (· ++ [nl]) ++ q ∧ m ≤ ls.length ∧
      (q = [] ∨ ∃ l ∈ ls, q <+: l) := by
  induction ls generalizing p with
  | nil => exact ⟨0, p, rfl, Nat.le_refl _, Or.inl (List.prefix_nil.mp h)⟩
  | cons l ls ih =>
    rw [List.flatMap_cons, List.append_assoc] at h
    rcases prefix_append_cases h with hp | ⟨g, rfl, hg⟩
    · exact ⟨0, p, rfl, Nat.zero_le _, Or.inr ⟨l, by simp, hp⟩⟩
    · rcases List.prefix_cons_iff.mp hg with rfl | ⟨t, rfl, ht⟩
      · exact ⟨0, l ++ [], rfl, Nat.zero_le _, Or.inr ⟨l, by simp, by simp⟩⟩
      · obtain ⟨m, q, rfl, hm, hq⟩ := ih ht
        refine ⟨m + 1, q, by simp, Nat.succ_le_succ hm, hq.imp_right ?_⟩
        rintro ⟨l', hl', hpre⟩
        exact ⟨l', List.mem_cons_of_mem _ hl', hpre⟩

/-- A line with its terminator, and no other in it. -/
def Terminated (nl : α) (line : List α) : Prop := ∃ body, nl ∉ body ∧ line = body ++ [nl]

/-- The pieces that end in the terminator: all but perhaps the last. -/
def complete (nl : α) (l : List α) : List (List α) :=
  (split nl l).filter fun piece => piece.getLast? = some nl

theorem complete_line {line : List α} (h : Terminated nl line) (rest : List α) :
    complete nl (line ++ rest) = line :: complete nl rest := by
  obtain ⟨body, hbody, rfl⟩ := h
  rw [complete, List.append_assoc, List.singleton_append, split_line hbody,
    List.filter_cons_of_pos (by simp)]
  rfl

theorem complete_lines {ls : List (List α)} (h : ∀ line ∈ ls, Terminated nl line) (rest : List α) :
    complete nl (ls.flatten ++ rest) = ls ++ complete nl rest := by
  induction ls with
  | nil => rfl
  | cons line ls ih =>
    rw [List.flatten_cons, List.append_assoc, complete_line (h line (by simp)),
      ih fun l hl => h l (List.mem_cons_of_mem _ hl), List.cons_append]

theorem complete_of_notMem {part : List α} (h : nl ∉ part) : complete nl part = [] := by
  by_cases hne : part = []
  · rw [hne]; rfl
  · rw [complete, split_of_notMem h hne, List.filter_eq_nil_iff]
    intro piece hpiece hlast
    obtain rfl := List.mem_singleton.mp hpiece
    exact h (List.mem_of_getLast? (of_decide_eq_true hlast))

end Split

open Utf8

/-- The byte lines of encoded text are its character lines, encoded. -/
theorem split_encode (t : Text) : split 10 (encode t) = (split '\n' t).map encode := by
  induction t with
  | nil => rfl
  | cons c t ih =>
    by_cases hc : c = '\n'
    · subst hc
      have hnl : String.utf8EncodeChar '\n' = [10] := rfl
      simp [encode_cons, hnl, ih]
    · have hbytes : (10 : UInt8) ∉ String.utf8EncodeChar c :=
        fun hm => hc (ascii_mem_encodeChar (a := '\n') (by decide) hm)
      have hne : String.utf8EncodeChar c ≠ [] := String.utf8EncodeChar_ne_nil
      simp only [split_cons, hc, if_false]
      cases hs : split '\n' t with
      | nil =>
        rw [split_eq_nil.mp hs]
        simpa [encode_cons] using split_of_notMem hbytes hne
      | cons first others =>
        rw [hs] at ih
        rw [encode_cons, split_prefix hbytes ih]
        simp [encode_cons]

end Lines
