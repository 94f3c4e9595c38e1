import TitanKv.Lib.Words
import TitanKv.Protocol

/-! # The tokenizer

`tokenize` finds the words of a text, with double quotes and with space, tab and
newline as separators, and encodes them. So a text may be tokenized in parts, cut
at any separator that is not within quotes. -/

namespace TitanKv
open Utf8 Words

section Tokenizer
variable {a b t current : Text} {s : Char} {token : Bytes} {inQuotes : Bool}

def isQuote (ch : Char) : Bool := ch = '"'

theorem flush_eq (current : Text) : flush current = (Words.finish current).map encode := by
  cases current <;> rfl

theorem tokenizeFrom_eq : tokenizeFrom current inQuotes t =
    (wordsFrom isQuote isBlank current inQuotes t).map encode := by
  induction t generalizing current inQuotes with
  | nil => exact flush_eq current
  | cons c t ih =>
    rw [tokenizeFrom_cons]
    split
    · rename_i hc
      have hquote : isQuote c = true := decide_eq_true hc
      rw [wordsFrom_quote hquote, ih]
    · rename_i hc
      have hquote : isQuote c = false := decide_eq_false hc
      split
      · rename_i hblank
        obtain ⟨hsep, rfl⟩ := hblank
        rw [wordsFrom_sep hquote hsep, flush_eq, ih, List.map_append]
      · rename_i hblank
        have hother : (isBlank c && !inQuotes) = false := by simpa using hblank
        rw [wordsFrom_other hquote hother, ih]

theorem tokenize_eq (t : Text) : tokenize t = (words isQuote isBlank t).map encode :=
  tokenizeFrom_eq

theorem countP_isQuote (t : Text) : t.countP isQuote = t.count '"' := by
  rw [List.count_eq_countP]
  exact List.countP_congr fun c _ => by simp [isQuote]

/-- The text without its double quotes and the separators outside them. -/
def unquoted (t : Text) : Text := kept isQuote isBlank t

theorem tokenize_append (hs : isBlank s = true) (hq : s ≠ '"') (h : Even (a.count '"')) :
    tokenize (a ++ s :: b) = tokenize a ++ tokenize b := by
  have houtside : Outside isQuote a := by rwa [Outside, countP_isQuote]
  rw [tokenize_eq, words_append hs (decide_eq_false hq) houtside, List.map_append, tokenize_eq,
    tokenize_eq]

theorem mem_tokenize_word (h : token ∈ tokenize t) :
    ∃ w, token = encode w ∧ w ∈ words isQuote isBlank t ∧ w ≠ [] ∧ '"' ∉ w := by
  rw [tokenize_eq] at h
  obtain ⟨w, hw, rfl⟩ := List.mem_map.mp h
  obtain ⟨hne, hquote⟩ := mem_wordsFrom (by simp) hw
  refine ⟨w, rfl, hw, hne, fun hmem => ?_⟩
  cases (hquote '"' hmem)

theorem flatten_tokenize (t : Text) : (tokenize t).flatten = encode (unquoted t) := by
  rw [tokenize_eq, unquoted, ← flatten_words, encode_flatten]

/-- The tokenizer works part by part, and loses nothing but quotes and separators. -/
theorem tokenize_compositional :
    (∀ a b : Text, ∀ s, s = ' ' ∨ s = '\t' ∨ s = '\n' → Even (a.count '"') →
      tokenize (a ++ s :: b) = tokenize a ++ tokenize b) ∧
    ∀ t : Text, (∀ token ∈ tokenize t, token ≠ [] ∧ 34 ∉ token) ∧
      (tokenize t).flatten = encode (unquoted t) := by
  refine ⟨fun a b s hs heven => ?_, fun t => ⟨fun token htoken => ?_, flatten_tokenize t⟩⟩
  · rcases hs with rfl | rfl | rfl
    · exact tokenize_append rfl (by decide) heven
    · exact tokenize_append rfl (by decide) heven
    · exact tokenize_append rfl (by decide) heven
  · obtain ⟨w, rfl, -, hne, hquote⟩ := mem_tokenize_word htoken
    refine ⟨fun hnil => hne (encode_eq_nil.mp hnil), fun hmem => hquote ?_⟩
    exact ascii_mem_encode (a := '"') (by decide) hmem

theorem tokenize_compositional_set : tokenize "SET \"a key\" b".toList =
    tokenize "SET \"a key\"".toList ++ tokenize "b".toList :=
  tokenize_compositional.1 "SET \"a key\"".toList "b".toList ' ' (Or.inl rfl) (by decide)

end Tokenizer

end TitanKv
