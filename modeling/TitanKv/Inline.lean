import TitanKv.Sizes
import TitanKv.Tokenizer

/-! # Inline requests

A line that does not start with `*` is a request of the words on it. The line keeps
its end when it is tokenized, and the carriage return is no separator: words on a
line that ends in a newline alone are read as the arguments of the same request in
RESP, behind a line that ends in CRLF the last of them has a character too many. -/

namespace TitanKv
open Utf8 Words

section Requests

/-- `char::is_ascii_whitespace`. -/
def isAsciiWhitespace (c : Char) : Bool := c = ' ' || c = '\t' || c = '\n' || c = '\x0C' || c = '\r'

structure IsWord (w : Text) : Prop where
  ne_nil : w ≠ []
  chars : ∀ c ∈ w, isAsciiWhitespace c = false ∧ c ≠ '"'

inductive LineEnding where
  | lf
  | crlf
  deriving DecidableEq

def LineEnding.text : LineEnding → Text
  | .lf => ['\n']
  | .crlf => ['\r', '\n']

/-- The words on a line, with a space between any two. -/
def inlineRequest (words : List Text) (ending : LineEnding) : Bytes :=
  encode (List.intercalate [' '] words ++ ending.text)

/-- The line is read as the same arguments as the request in RESP, and no further. -/
def AgreesWithResp (words : List Text) (ending : LineEnding) (rest : Bytes) : Prop :=
  ∃ args, readResp (inlineRequest words ending ++ rest) = .ok (args, rest) ∧
    readResp (encodeRequest (words.map encode) ++ rest) = .ok (args, rest)

end Requests

section Line
variable {words : List Text} {w line : Text} {rest : Bytes}

theorem IsWord.plain (h : IsWord w) : Plain isQuote isBlank w := by
  intro c hc
  obtain ⟨hspace, hquote⟩ := h.chars c hc
  simp only [isAsciiWhitespace, Bool.or_eq_false_iff] at hspace
  refine ⟨decide_eq_false hquote, ?_⟩
  simp only [isBlank, hspace, Bool.or_self]

/-- A word with a carriage return behind it is still one. -/
theorem plain_append_return (h : IsWord w) : Plain isQuote isBlank (w ++ ['\r']) :=
  List.forall_mem_append.mpr ⟨h.plain, List.forall_mem_singleton.mpr ⟨rfl, rfl⟩⟩

theorem newline_notMem_intercalate (h : ∀ w ∈ words, Plain isQuote isBlank w) :
    '\n' ∉ List.intercalate [' '] words := by
  intro hmem
  rcases mem_intercalate hmem with hspace | ⟨w, hw, hc⟩
  · cases hspace
  · cases (h w hw '\n' hc).2

/-- The tokenizer's words on a line with its newline. -/
theorem tokenize_line (h : ∀ w ∈ words, w ≠ [] ∧ Plain isQuote isBlank w) :
    tokenize (List.intercalate [' '] words ++ ['\n']) = words.map encode := by
  have houtside : Outside isQuote (List.intercalate [' '] words) :=
    outside_intercalate rfl fun w hw => (h w hw).2
  rw [tokenize_eq, words_append rfl rfl houtside, words_intercalate rfl rfl h]
  exact congrArg (List.map encode) (List.append_nil words)

/-- The reader hands a line that does not start with a star to the tokenizer. -/
theorem readResp_line (hnl : '\n' ∉ line) (hstar : line.head? ≠ some '*') (hne : line ≠ [])
    (rest : Bytes) :
    readResp (encode (line ++ ['\n']) ++ rest) = .ok (tokenize (line ++ ['\n']), rest) := by
  have hhead : (line ++ ['\n']).head? ≠ some '*' := by rwa [List.head?_append_of_ne_nil _ hne]
  rw [readResp, bind_of_ok (readLine_terminated hnl rest), if_pos hhead]
  rfl

theorem head_intercalate (h : ∀ w ∈ words, w ≠ []) :
    (List.intercalate [' '] words).head? = words.head?.bind List.head? := by
  cases words with
  | nil => rfl
  | cons w ws =>
    have hw := h w List.mem_cons_self
    cases ws with
    | nil => rw [List.intercalate_singleton, List.head?_cons, Option.bind_some]
    | cons v vs =>
      rw [List.intercalate_cons_cons, List.append_assoc, List.head?_append_of_ne_nil _ hw,
        List.head?_cons, Option.bind_some]

/-- Words on a line with its newline are read as the arguments. -/
theorem readResp_words (h : ∀ w ∈ words, w ≠ [] ∧ Plain isQuote isBlank w) (hne : words ≠ [])
    (hstar : words.head?.bind List.head? ≠ some '*') (rest : Bytes) :
    readResp (encode (List.intercalate [' '] words ++ ['\n']) ++ rest) =
      .ok (words.map encode, rest) := by
  have hhead := head_intercalate fun w hw => (h w hw).1
  have hline : List.intercalate [' '] words ≠ [] := by
    obtain ⟨w, ws, rfl⟩ := List.exists_cons_of_ne_nil hne
    obtain ⟨c, cs, hw⟩ := List.exists_cons_of_ne_nil (h w List.mem_cons_self).1
    intro hnil
    rw [hnil, List.head?_cons, Option.bind_some, hw] at hhead
    cases hhead
  rw [readResp_line (newline_notMem_intercalate fun w hw => (h w hw).2) (hhead ▸ hstar) hline,
    tokenize_line h]

end Line

section Resp
variable {args : List Bytes} {bytes rest : Bytes} {r : List Bytes × Bytes}

/-- Arguments read back are ones that a buffer has room for. -/
theorem length_lt_of_readArgs
    (h : readArgs args.length (Resp.Value.encodeAll (args.map .bulk) ++ rest) = .ok r) :
    ∀ arg ∈ args, arg.length < 2 ^ 63 - 2 := by
  induction args generalizing r with
  | nil => simp
  | cons arg args ih =>
    have hdigits := digits?_printInt_natCast arg.length
    rw [encodeAll_cons_bulk, List.length_cons, readArgs,
      bind_of_ok (readLine_header (by decide) hdigits _), if_neg (by simp [header])] at h
    obtain ⟨content, rest₁, hpayload, h⟩ := bind_eq_ok.mp h
    obtain ⟨tail, rest₂, htail, -⟩ := bind_eq_ok.mp h
    obtain ⟨len, hnum, hfits, -, heq⟩ := readPayload_eq_ok.mp hpayload
    rw [headerNumber_header rfl hdigits] at hnum
    split at hnum
    · obtain rfl := Option.some.inj hnum
      have hrest : rest₁ = Resp.Value.encodeAll (args.map .bulk) ++ rest := by
        rw [(Prod.mk.inj heq).2, ← List.drop_drop, List.drop_left]
        rfl
      rw [hrest] at htail
      unfold isizeMax at hfits
      exact List.forall_mem_cons.mpr ⟨by omega, ih htail⟩
    · cases hnum

theorem opens_encodeRequest (args : List Bytes) (rest : Bytes) : Opens (encodeRequest args ++ rest)
    (if args.length ≤ 2 ^ 64 - 1 then some args.length else none)
    (Resp.Value.encodeAll (args.map .bulk) ++ rest) := by
  have hdigits := digits?_printInt_natCast args.length
  have hbytes : encodeRequest args ++ rest = encode (header '*' (Decimal.printInt args.length)) ++
      (Resp.Value.encodeAll (args.map .bulk) ++ rest) := by
    rw [← frame_eq_header '*' (by decide)]
    simp [encodeRequest, Resp.Value.encode]
  refine ⟨header '*' (Decimal.printInt args.length), ?_, rfl, headerNumber_header rfl hdigits⟩
  rw [hbytes]
  exact readLine_header (by decide) hdigits _

/-- Exactly the requests with sizes that vectors have are read back. -/
theorem readResp_encodeRequest_iff :
    (∃ r, readResp (encodeRequest args ++ rest) = .ok r) ↔ Admissible args := by
  constructor
  · rintro ⟨r, hread⟩
    have hopens := opens_encodeRequest args rest
    by_cases hcount : args.length ≤ 2 ^ 64 - 1
    · rw [if_pos hcount] at hopens
      rw [readResp_of_opens hopens] at hread
      split at hread
      · cases hread
      · rename_i hcap
        unfold isizeMax bytesSize at hcap
        exact ⟨by omega, length_lt_of_readArgs hread⟩
    · rw [if_neg hcount] at hopens
      rw [readResp_malformed (Or.inl ⟨_, hopens⟩)] at hread
      cases hread
  · exact fun h => ⟨_, readResp_encodeRequest h rest⟩

end Resp

section Agreement
variable {words init : List Text} {last : Text} {ending : LineEnding} {rest : Bytes}

theorem readResp_lf (hne : words ≠ []) (hwords : ∀ w ∈ words, IsWord w)
    (hstar : words.head?.bind List.head? ≠ some '*') (rest : Bytes) :
    readResp (inlineRequest words .lf ++ rest) = .ok (words.map encode, rest) :=
  readResp_words (fun w hw => ⟨(hwords w hw).ne_nil, (hwords w hw).plain⟩) hne hstar rest

/-- The carriage return joins the last word. -/
theorem readResp_crlf (hwords : ∀ w ∈ init ++ [last], IsWord w)
    (hstar : (init ++ [last]).head?.bind List.head? ≠ some '*') (rest : Bytes) :
    readResp (inlineRequest (init ++ [last]) .crlf ++ rest) =
      .ok ((init ++ [last ++ ['\r']]).map encode, rest) := by
  obtain ⟨hinit, hlast⟩ := List.forall_mem_append.mp hwords
  have hword := hlast last (List.mem_singleton_self last)
  have hjoined : List.intercalate [' '] (init ++ [last]) ++ ['\r', '\n'] =
      List.intercalate [' '] (init ++ [last ++ ['\r']]) ++ ['\n'] := by
    rw [← intercalate_concat_append, List.append_assoc]
    rfl
  rw [inlineRequest, LineEnding.text, hjoined]
  refine readResp_words ?_ (by simp) ?_ rest
  · refine List.forall_mem_append.mpr ⟨fun w hw => ⟨(hinit w hw).ne_nil, (hinit w hw).plain⟩, ?_⟩
    exact List.forall_mem_singleton.mpr ⟨by simp, plain_append_return hword⟩
  · cases init with
    | nil =>
      rwa [List.nil_append, List.head?_cons, Option.bind_some,
        List.head?_append_of_ne_nil _ hword.ne_nil]
    | cons w init => exact hstar

/-- Exactly when the inline path agrees with the RESP path: on a line that ends in
a newline alone, for a request that vectors have room for. -/
theorem agreesWithResp_iff (hne : words ≠ []) (hwords : ∀ w ∈ words, IsWord w)
    (hstar : words.head?.bind List.head? ≠ some '*') :
    AgreesWithResp words ending rest ↔ ending = .lf ∧ Admissible (words.map encode) := by
  cases ending with
  | lf =>
    constructor
    · rintro ⟨args, -, hresp⟩
      exact ⟨rfl, readResp_encodeRequest_iff.mp ⟨_, hresp⟩⟩
    · rintro ⟨-, hadmissible⟩
      exact ⟨_, readResp_lf hne hwords hstar rest, readResp_encodeRequest hadmissible rest⟩
  | crlf =>
    refine iff_of_false ?_ (fun h => by cases h.1)
    rintro ⟨args, hinline, hresp⟩
    obtain rfl : words.map encode = args := by
      have hback := readResp_encodeRequest (readResp_encodeRequest_iff.mp ⟨_, hresp⟩) rest
      exact (Prod.mk.inj (Except.ok.inj (hback.symm.trans hresp))).1
    obtain ⟨init, last, rfl⟩ := (List.eq_nil_or_concat' words).resolve_left hne
    rw [readResp_crlf hwords hstar] at hinline
    have hargs : (init ++ [last ++ ['\r']]).map encode = (init ++ [last]).map encode :=
      (Prod.mk.inj (Except.ok.inj hinline)).1
    have hlast : last ++ ['\r'] = last := by
      rw [List.map_append, List.map_append] at hargs
      exact encode_injective (List.cons.inj (List.append_cancel_left hargs)).1
    simpa using congrArg List.length hlast

def getName : List Text := [['G', 'E', 'T'], ['n', 'a', 'm', 'e']]

theorem isWord_getName : ∀ w ∈ getName, IsWord w := by
  refine List.forall_mem_cons.mpr ⟨⟨by decide, ?_⟩, List.forall_mem_singleton.mpr ⟨by decide, ?_⟩⟩
  · simp [isAsciiWhitespace]
  · simp [isAsciiWhitespace]

theorem agreesWithResp_iff_get :
    AgreesWithResp getName .lf [] ↔ LineEnding.lf = .lf ∧ Admissible (getName.map encode) :=
  agreesWithResp_iff (by decide) isWord_getName (by decide)

/-- `GET name`, as telnet sends it, asks for another key. -/
theorem not_agreesWithResp_telnet :
    ¬ ∀ (words : List Text) (ending : LineEnding) (rest : Bytes), words ≠ [] →
    (∀ w ∈ words, IsWord w) → words.head?.bind List.head? ≠ some '*' →
      AgreesWithResp words ending rest := by
  intro h
  obtain ⟨args, hinline, hresp⟩ := h getName .crlf [] (by decide) isWord_getName (by decide)
  have hline : readResp (inlineRequest getName .crlf ++ []) =
      .ok ([lit "GET", lit "name\r"], []) := rfl
  have hrequest : readResp (encodeRequest (getName.map encode) ++ []) =
      .ok ([lit "GET", lit "name"], []) := rfl
  obtain rfl := (Prod.mk.inj (Except.ok.inj (hline.symm.trans hinline))).1
  cases hrequest.symm.trans hresp

end Agreement

end TitanKv
