import TitanKv.Replay

/-! # The codec of the log lines

A line is a command word and its arguments, each bare, in quotes or a decimal
number. Reading a written line back gives the command exactly where every bare
argument is a word and every quoted one has neither a quote nor a newline. A
token never holds a quote, and a token of quote-free text never holds a blank;
so a damaged argument cannot come back from another place of the line. -/

namespace TitanKv
open Utf8

section Tokens
variable {cur w rest t : Text} {token : Bytes}

/-- A character that neither ends a token outside quotes nor toggles them. -/
def isPlain (ch : Char) : Bool := !isBlank ch && ch != '"'

theorem isPlain_iff {ch : Char} : isPlain ch = true ↔ isBlank ch = false ∧ ch ≠ '"' := by
  simp [isPlain]

theorem alphanum_range {c : Char} (h : c.isAlphanum = true) :
    48 ≤ c.toNat ∧ c.toNat < 128 := by
  have hpair : ∀ {lo hi : Nat}, (decide (lo ≤ c.toNat) && decide (c.toNat ≤ hi)) = true →
      lo ≤ c.toNat ∧ c.toNat ≤ hi := fun h => by simpa using h
  rcases Bool.or_eq_true_iff.mp (show (c.isAlpha || c.isDigit) = true from h) with halpha | hdigit
  · rcases Bool.or_eq_true_iff.mp (show (c.isUpper || c.isLower) = true from halpha)
      with hupper | hlower
    · have hrange : 65 ≤ c.toNat ∧ c.toNat ≤ 90 := of_decide_eq_true hupper
      omega
    · have hrange : 97 ≤ c.toNat ∧ c.toNat ≤ 122 := hpair hlower
      omega
  · have hrange := Decimal.isDigit_range hdigit
    omega

theorem alphanum_ne {c d : Char} (h : c.isAlphanum = true) (hd : d.toNat < 48) : c ≠ d := by
  rintro rfl
  have := (alphanum_range h).1
  omega

theorem isPlain_of_alphanum {c : Char} (h : c.isAlphanum = true) : isPlain c = true := by
  have hne : ∀ d : Char, d.toNat < 48 → c ≠ d := fun _ => alphanum_ne h
  simp [isPlain, isBlank, hne]

/-- No blank and no quote is in a plain text. -/
theorem notMem_of_plain {d : Char} (h : ∀ c ∈ t, isPlain c) (hd : isPlain d = false) : d ∉ t := by
  intro hm
  rw [h d hm] at hd
  cases hd

theorem flush_of_ne_nil (h : t ≠ []) : flush t = [encode t] := by simp [flush, h]

theorem tokenizeFrom_plain (h : ∀ c ∈ w, isPlain c) :
    tokenizeFrom cur false (w ++ rest) = tokenizeFrom (cur ++ w) false rest := by
  induction w generalizing cur with
  | nil => simp
  | cons c w ih =>
    obtain ⟨hb, hq⟩ := isPlain_iff.mp (h c (by simp))
    have hw : tokenizeFrom (cur ++ [c]) false (w ++ rest) = _ :=
      ih fun d hd => h d (List.mem_cons_of_mem _ hd)
    simpa [tokenizeFrom_cons, hb, hq] using hw

theorem tokenizeFrom_inside (h : '"' ∉ w) :
    tokenizeFrom cur true (w ++ rest) = tokenizeFrom (cur ++ w) true rest := by
  induction w generalizing cur with
  | nil => simp
  | cons c w ih =>
    obtain ⟨hc, hw⟩ := not_or.mp (mt List.mem_cons.mpr h)
    have hin : tokenizeFrom (cur ++ [c]) true (w ++ rest) = _ := ih hw
    simpa [tokenizeFrom_cons, Ne.symm hc] using hin

theorem tokenizeFrom_quoted (h : '"' ∉ w) :
    tokenizeFrom cur false (quoted w ++ rest) = tokenizeFrom (cur ++ w) false rest := by
  have hclose : tokenizeFrom (cur ++ w) true ('"' :: rest) =
      tokenizeFrom (cur ++ w) false rest := by
    simp [tokenizeFrom_cons]
  rw [← hclose, ← tokenizeFrom_inside h]
  simp [quoted, tokenizeFrom_cons]

theorem tokenizeFrom_space :
    tokenizeFrom cur false (' ' :: rest) = flush cur ++ tokenizeFrom [] false rest := by
  simp [tokenizeFrom_cons, isBlank]

/-- A space after quote-free text ends its last token. -/
theorem tokenizeFrom_append_space (h : '"' ∉ t) :
    tokenizeFrom cur false (t ++ ' ' :: rest) =
      tokenizeFrom cur false t ++ tokenizeFrom [] false rest := by
  induction t generalizing cur with
  | nil => simpa using tokenizeFrom_space
  | cons c t ih =>
    obtain ⟨hc, ht⟩ := not_or.mp (mt List.mem_cons.mpr h)
    by_cases hb : isBlank c = true
    · simp [tokenizeFrom_cons, Ne.symm hc, hb, ih ht]
    · simp [tokenizeFrom_cons, Ne.symm hc, hb, ih ht]

theorem mem_flush (h : token ∈ flush cur) : token = encode cur ∧ cur ≠ [] := by
  unfold flush at h
  split at h
  · cases h
  · exact ⟨List.mem_singleton.mp h, ‹_›⟩

/-- A token is non-empty text without a quote, made of the input's characters. -/
theorem mem_tokenizeFrom {q : Bool} (hcur : '"' ∉ cur) (h : token ∈ tokenizeFrom cur q t) :
    ∃ s, token = encode s ∧ s ≠ [] ∧ '"' ∉ s ∧ ∀ c ∈ s, c ∈ cur ∨ c ∈ t := by
  induction t generalizing cur q with
  | nil =>
    obtain ⟨rfl, hne⟩ := mem_flush h
    exact ⟨cur, rfl, hne, hcur, fun c hc => Or.inl hc⟩
  | cons d t ih =>
    rw [tokenizeFrom_cons] at h
    split at h
    · obtain ⟨s, hs, hne, hquote, hmem⟩ := ih hcur h
      exact ⟨s, hs, hne, hquote, fun c hc => (hmem c hc).imp_right (List.mem_cons_of_mem _)⟩
    · rename_i hd
      split at h
      · rcases List.mem_append.mp h with hf | hrest
        · obtain ⟨rfl, hne⟩ := mem_flush hf
          exact ⟨cur, rfl, hne, hcur, fun c hc => Or.inl hc⟩
        · obtain ⟨s, hs, hne, hquote, hmem⟩ := ih (by simp) hrest
          exact ⟨s, hs, hne, hquote, fun c hc =>
            Or.inr (List.mem_cons_of_mem _ ((hmem c hc).resolve_left (by simp)))⟩
      · have hcons : '"' ∉ cur ++ [d] := by simp [hcur, Ne.symm hd]
        obtain ⟨s, hs, hne, hquote, hmem⟩ := ih hcons h
        refine ⟨s, hs, hne, hquote, fun c hc => ?_⟩
        have := hmem c hc
        simp only [List.mem_append, List.mem_cons] at this ⊢
        tauto

theorem mem_tokenize (h : token ∈ tokenize t) :
    ∃ s, token = encode s ∧ s ≠ [] ∧ '"' ∉ s ∧ ∀ c ∈ s, c ∈ t := by
  obtain ⟨s, hs, hne, hquote, hmem⟩ := mem_tokenizeFrom (by simp) h
  exact ⟨s, hs, hne, hquote, fun c hc => (hmem c hc).resolve_left (by simp)⟩

/-- A token of quote-free text has no blank. -/
theorem mem_tokenizeFrom_plain (hcur : ∀ c ∈ cur, isPlain c) (ht : '"' ∉ t)
    (h : token ∈ tokenizeFrom cur false t) :
    ∃ s, token = encode s ∧ s ≠ [] ∧ ∀ c ∈ s, isPlain c := by
  induction t generalizing cur with
  | nil =>
    obtain ⟨rfl, hne⟩ := mem_flush h
    exact ⟨cur, rfl, hne, hcur⟩
  | cons d t ih =>
    obtain ⟨hd, ht⟩ := not_or.mp (mt List.mem_cons.mpr ht)
    rw [tokenizeFrom_cons, if_neg (Ne.symm hd)] at h
    split at h
    · rcases List.mem_append.mp h with hf | hrest
      · obtain ⟨rfl, hne⟩ := mem_flush hf
        exact ⟨cur, rfl, hne, hcur⟩
      · exact ih (by simp) ht hrest
    · rename_i hb
      refine ih (fun c hc => ?_) ht h
      rcases List.mem_append.mp hc with hc | hc
      · exact hcur c hc
      · obtain rfl := List.mem_singleton.mp hc
        exact isPlain_iff.mpr ⟨by simpa using hb, Ne.symm hd⟩

end Tokens

/-- An argument as a line writes it. -/
inductive Arg where
  | bare (b : Bytes)
  | quoted (b : Bytes)
  | number (z : Int)

namespace Arg

def text : Arg → Text
  | .bare b => bytesToStr b
  | .quoted b => bytesToStr b
  | .number z => Decimal.printInt z

def written : Arg → Text
  | .bare b => bytesToStr b
  | .quoted b => TitanKv.quoted (bytesToStr b)
  | .number z => Decimal.printInt z

/-- The token the argument should come back as. -/
def token : Arg → Bytes
  | .bare b => b
  | .quoted b => b
  | .number z => decimal z

/-- Non-empty text without blanks and quotes. -/
def Bare (b : Bytes) : Prop :=
  ∃ t, decode? b = some t ∧ t ≠ [] ∧ ' ' ∉ t ∧ '\t' ∉ t ∧ '\n' ∉ t ∧ '"' ∉ t

/-- Non-empty text without newlines and quotes. -/
def Quotable (b : Bytes) : Prop := ∃ t, decode? b = some t ∧ t ≠ [] ∧ '\n' ∉ t ∧ '"' ∉ t

def Readable : Arg → Prop
  | .bare b => Bare b
  | .quoted b => Quotable b
  | .number _ => True

/-- A carriage return at the end of a line is dropped with the newline. -/
def EndsInReturn : Arg → Prop
  | .bare b => ∃ t, decode? b = some (t ++ ['\r'])
  | _ => False

end Arg

section Lines
variable {body rest : Text}

/-- A log is read line by line as text. -/
theorem aofCommands_encode (t : Text) :
    aofCommands (encode t) = (Lines.split '\n' t).map lineCommand := by
  unfold aofCommands
  rw [Lines.split_encode]
  induction Lines.split '\n' t with
  | nil => rfl
  | cons piece pieces ih => simp [lineCommands, ih]

theorem aofCommands_line (h : '\n' ∉ body) (rest : Text) :
    aofCommands (encode (body ++ '\n' :: rest)) =
      lineCommand (body ++ ['\n']) :: aofCommands (encode rest) := by
  simp only [aofCommands_encode, Lines.split_line h, List.map_cons]

/-- Terminated lines are read before what follows them. -/
theorem aofCommands_terminated (body rest : Text) :
    aofCommands (encode (body ++ ['\n'] ++ rest)) =
      aofCommands (encode (body ++ ['\n'])) ++ aofCommands (encode rest) := by
  rw [aofCommands_encode, aofCommands_encode, aofCommands_encode, List.append_assoc,
    List.singleton_append, Lines.split_append_terminated, List.map_append]

theorem lineContent_terminated (body : Text) :
    lineContent (body ++ ['\n']) = (stripLast '\r' body).getD body := by
  simp [lineContent, stripLast]

theorem lineContent_return (body : Text) : lineContent (body ++ ['\r', '\n']) = body := by
  rw [List.append_cons, lineContent_terminated]
  simp [stripLast]

theorem lineContent_of_last (h : body.getLast? ≠ some '\r') :
    lineContent (body ++ ['\n']) = body := by
  rw [lineContent_terminated]
  simp [stripLast, h]

end Lines

section Render
variable {verb : Verb} {arg : Arg} {args : List Arg} {cur : Text}

/-- The arguments, each after a space. -/
def argsText (args : List Arg) : Text := args.flatMap fun arg => ' ' :: arg.written

/-- A line without its newline. -/
def lineText (verb : Verb) (args : List Arg) : Text := verb.name.toList ++ argsText args

theorem formatLine_written (verb : Verb) (args : List Arg) :
    formatLine verb.name (args.map Arg.written) = lineText verb args ++ ['\n'] := by
  simp [formatLine, lineText, argsText, List.flatMap_map]

@[simp] theorem argsText_append (args args' : List Arg) :
    argsText (args ++ args') = argsText args ++ argsText args' := by
  simp [argsText]

@[simp] theorem argsText_singleton (arg : Arg) : argsText [arg] = ' ' :: arg.written := by
  simp [argsText]

/-- The tokenizer gives the argument's text back. -/
def Arg.Sound : Arg → Prop
  | .bare b => ∀ c ∈ bytesToStr b, isPlain c
  | .quoted b => '"' ∉ bytesToStr b
  | .number _ => True

theorem isPlain_of_mem_printInt {z : Int} {c : Char} (h : c ∈ Decimal.printInt z) :
    isPlain c = true := by
  rcases Decimal.mem_printInt h with rfl | hd
  · decide
  · have hne : ∀ d : Char, d.isDigit = false → c ≠ d := by
      rintro d hf rfl
      rw [hf] at hd
      cases hd
    simp [isPlain, isBlank, hne ' ' rfl, hne '\t' rfl, hne '\n' rfl, hne '"' rfl]

theorem Arg.Sound.tokenizeFrom (h : arg.Sound) (rest : Text) :
    tokenizeFrom cur false (arg.written ++ rest) = tokenizeFrom (cur ++ arg.text) false rest := by
  cases arg with
  | bare b => exact tokenizeFrom_plain h
  | quoted b => exact tokenizeFrom_quoted h
  | number z => exact tokenizeFrom_plain fun c hc => isPlain_of_mem_printInt hc

theorem tokenizeFrom_argsText (h : ∀ arg ∈ args, arg.Sound) :
    tokenizeFrom cur false (argsText args) = flush cur ++ args.flatMap fun arg =>
      flush arg.text := by
  induction args generalizing cur with
  | nil => simp [argsText]
  | cons arg args ih =>
    have harg := h arg (by simp)
    have hargs : TitanKv.tokenizeFrom arg.text false (argsText args) = _ :=
      ih fun a ha => h a (List.mem_cons_of_mem _ ha)
    rw [← List.singleton_append, argsText_append, argsText_singleton, List.cons_append,
      tokenizeFrom_space, harg.tokenizeFrom, List.nil_append, hargs]
    simp

theorem isAlphanum_of_mem_name {c : Char} (h : c ∈ verb.name.toList) : c.isAlphanum = true := by
  have hall : verb.name.toList.all Char.isAlphanum = true := by cases verb <;> rfl
  exact List.all_eq_true.mp hall c h

theorem isPlain_of_mem_name {c : Char} (h : c ∈ verb.name.toList) : isPlain c = true :=
  isPlain_of_alphanum (isAlphanum_of_mem_name h)

theorem name_ne_nil (verb : Verb) : verb.name.toList ≠ [] := by cases verb <;> decide

/-- The word of a line is its first token. -/
theorem tokenize_name (verb : Verb) (t : Text) :
    tokenize (verb.name.toList ++ ' ' :: t) = lit verb.name :: tokenizeFrom [] false t := by
  rw [tokenize, tokenizeFrom_plain fun c hc => isPlain_of_mem_name hc, tokenizeFrom_space,
    List.nil_append, flush_of_ne_nil (name_ne_nil verb)]
  rfl

theorem tokenize_lineText (h : ∀ arg ∈ args, arg.Sound) :
    tokenize (lineText verb args) = lit verb.name :: args.flatMap fun arg => flush arg.text := by
  rw [tokenize, lineText, tokenizeFrom_plain fun c hc => isPlain_of_mem_name hc,
    tokenizeFrom_argsText h, List.nil_append, flush_of_ne_nil (name_ne_nil verb)]
  rfl

theorem bytesToStr_encode (t : Text) : bytesToStr (encode t) = t := by simp [bytesToStr]

theorem Arg.Readable.sound (h : arg.Readable) : arg.Sound := by
  cases arg with
  | bare b =>
    obtain ⟨t, ht, -, hs, htab, hn, hq⟩ := h
    intro c hc
    rw [bytesToStr, ht, Option.getD_some] at hc
    have hne : ∀ d, d ∉ t → c ≠ d := by rintro d hd rfl; exact hd hc
    simp [isPlain, isBlank, hne _ hs, hne _ htab, hne _ hn, hne _ hq]
  | quoted b =>
    obtain ⟨t, ht, -, -, hq⟩ := h
    simpa [Arg.Sound, bytesToStr, ht] using hq
  | number z => trivial

theorem Arg.Readable.flush (h : arg.Readable) : flush arg.text = [arg.token] := by
  have htext : ∀ {b t}, decode? b = some t → t ≠ [] → TitanKv.flush (bytesToStr b) = [b] := by
    intro b t ht hne
    rw [bytesToStr, ht, Option.getD_some, flush_of_ne_nil hne, encode_of_decode? ht]
  cases arg with
  | bare b => obtain ⟨t, ht, hne, -⟩ := h; exact htext ht hne
  | quoted b => obtain ⟨t, ht, hne, -⟩ := h; exact htext ht hne
  | number z => exact flush_of_ne_nil (Decimal.printInt_ne_nil z)

theorem Arg.Readable.newline (h : arg.Readable) : '\n' ∉ arg.written := by
  cases arg with
  | bare b => obtain ⟨t, ht, -, -, -, hn, -⟩ := h; simpa [written, bytesToStr, ht] using hn
  | quoted b =>
    obtain ⟨t, ht, -, hn, -⟩ := h; simpa [written, TitanKv.quoted, bytesToStr, ht] using hn
  | number z => exact notMem_of_plain (fun _ => isPlain_of_mem_printInt) rfl

theorem flatMap_flush (h : ∀ arg ∈ args, arg.Readable) :
    (args.flatMap fun arg => TitanKv.flush arg.text) = args.map Arg.token := by
  induction args with
  | nil => rfl
  | cons arg args ih =>
    rw [List.flatMap_cons, (h arg (by simp)).flush, ih fun a ha => h a (List.mem_cons_of_mem _ ha)]
    rfl

/-- A readable line comes back as its words. -/
theorem tokenize_readable (h : ∀ arg ∈ args, arg.Readable) :
    tokenize (lineText verb args) = lit verb.name :: args.map Arg.token := by
  rw [tokenize_lineText fun arg ha => (h arg ha).sound, flatMap_flush h]

/-- The verb and the blanks between the words hold neither a line feed nor a quote. -/
theorem notMem_lineText {d : Char} (hd : isPlain d = false) (hspace : d ≠ ' ')
    (h : ∀ arg ∈ args, d ∉ arg.written) : d ∉ lineText verb args := by
  have hname : d ∉ verb.name.toList := notMem_of_plain (fun _ => isPlain_of_mem_name) hd
  simp only [lineText, argsText, List.mem_append, hname, false_or, List.mem_flatMap, not_exists,
    not_and, List.mem_cons]
  exact fun arg ha => not_or.mpr ⟨hspace, h arg ha⟩

theorem newline_notMem_lineText (h : ∀ arg ∈ args, '\n' ∉ arg.written) :
    '\n' ∉ lineText verb args := notMem_lineText rfl (by decide) h

end Render

section Commands
variable {c : Command} {verb : Verb} {args : List Arg}

/-- The word and the arguments of the line a write command is logged with. -/
def Command.writes : Command → Option (Verb × List Arg)
  | .set key value => some (.set, [.bare key, .bare value])
  | .setEx key seconds value => some (.setEx, [.bare key, .number seconds, .bare value])
  | .del key => some (.del, [.bare key])
  | .incr key => some (.incr, [.bare key])
  | .lPush key value => some (.lPush, [.bare key, .quoted value])
  | .rPush key value => some (.rPush, [.bare key, .quoted value])
  | .lPop key => some (.lPop, [.bare key])
  | .rPop key => some (.rPop, [.bare key])
  | .lTrim key start stop => some (.lTrim, [.bare key, .number start, .number stop])
  | .hSet key field value => some (.hSet, [.bare key, .bare field, .quoted value])
  | .sAdd key member => some (.sAdd, [.bare key, .bare member])
  | .lRem key _ value => some (.lRem, [.bare key, .number 1, .quoted value])
  | .rPopLPush source destination => some (.rPopLPush, [.bare source, .bare destination])
  | _ => none

theorem logLine_eq (h : c.writes = some (verb, args)) :
    logLine c = lineText verb args ++ ['\n'] := by
  rw [← formatLine_written]
  cases c <;> cases h <;> rfl

/-- The integers fit the types the parser reads them at. -/
def Command.Typed : Command → Prop
  | .setEx _ seconds _ => -2 ^ 63 ≤ seconds ∧ seconds ≤ 2 ^ 63 - 1
  | .lTrim _ start stop =>
    (-2 ^ 31 ≤ start ∧ start ≤ 2 ^ 31 - 1) ∧ (-2 ^ 31 ≤ stop ∧ stop ≤ 2 ^ 31 - 1)
  | _ => True

/-- The command as the log has it: the arm of `LREM` removes one element. -/
def Command.logged : Command → Command
  | .lRem key _ value => .lRem key 1 value
  | c => c

theorem uppercase_name (verb : Verb) : uppercase (lit verb.name) = lit verb.name := by
  cases verb <;> decide

theorem parseI64_decimal {z : Int} (h : -2 ^ 63 ≤ z ∧ z ≤ 2 ^ 63 - 1) :
    parseI64 (decimal z) = some z := by
  rw [parseI64, decimal, decode?_encode, Option.bind_some, Decimal.parseInt_printInt]
  exact if_pos h

theorem parseI32_decimal {z : Int} (h : -2 ^ 31 ≤ z ∧ z ≤ 2 ^ 31 - 1) :
    parseI32 (decimal z) = some z := by
  rw [parseI32, decimal, decode?_encode, Option.bind_some, Decimal.parseInt_printInt]
  exact if_pos h

/-- The words of a logged command parse as it. -/
theorem parseCommand_writes (h : c.writes = some (verb, args)) (ht : c.Typed) :
    parseCommand (lit verb.name :: args.map Arg.token) = c.logged := by
  rw [parseCommand, uppercase_name, Verb.of?_lit]
  cases c with
  | setEx key seconds value =>
    cases h
    exact parseArgs_setEx_of_some (parseI64_decimal ht)
  | lTrim key start stop =>
    cases h
    exact parseArgs_lTrim_of_some (parseI32_decimal ht.1) (parseI32_decimal ht.2)
  | lRem key count value =>
    cases h
    show Command.lRem key ((parseI64 (decimal 1)).getD 1) value = _
    rw [parseI64_decimal (by decide)]
    rfl
  | _ => cases h <;> rfl

theorem writes_logged (c : Command) : c.logged.writes = c.writes := by cases c <;> rfl

/-- What a token says of the argument it is parsed as. -/
def Arg.Reads : Arg → Bytes → Prop
  | .bare b, token => token = b
  | .quoted b, token => token = b
  | .number _, _ => True

theorem parseArgs_inv {v : Option Verb} {rest : List Bytes}
    (h : (parseArgs v rest).writes = some (verb, args)) :
    v = some verb ∧ List.Forall₂ Arg.Reads args rest := by
  have hparsed := parsedFrom_parseArgs v rest
  generalize parseArgs v rest = c at h hparsed
  cases c <;> cases h
  case setEx =>
    obtain ⟨rfl, _, rfl, -⟩ := hparsed
    simp [Arg.Reads]
  case lRem =>
    obtain ⟨rfl, _, rfl, -⟩ := hparsed
    simp [Arg.Reads]
  case lTrim =>
    obtain ⟨rfl, _, _, rfl, -⟩ := hparsed
    simp [Arg.Reads]
  all_goals
    obtain ⟨rfl, rfl⟩ := hparsed
    simp [Arg.Reads]

/-- A list of words that parses as a write command has its verb and arguments. -/
theorem parseCommand_inv {tokens : List Bytes}
    (h : (parseCommand tokens).writes = some (verb, args)) :
    ∃ word rest, tokens = word :: rest ∧ uppercase word = lit verb.name ∧
      List.Forall₂ Arg.Reads args rest := by
  cases tokens with
  | nil => cases h
  | cons word rest =>
    obtain ⟨hv, hargs⟩ := parseArgs_inv h
    exact ⟨word, rest, rfl, Verb.of?_eq_some hv, hargs⟩

theorem forall₂_mem {α β : Type} {R : α → β → Prop} {xs : List α} {ys : List β} {x : α}
    (h : List.Forall₂ R xs ys) (hx : x ∈ xs) : ∃ y ∈ ys, R x y := by
  induction h with
  | nil => cases hx
  | cons hR _ ih =>
    rcases List.mem_cons.mp hx with rfl | hx
    · exact ⟨_, List.mem_cons_self, hR⟩
    · obtain ⟨y, hy, hRy⟩ := ih hx
      exact ⟨y, List.mem_cons_of_mem _ hy, hRy⟩

theorem forall₂_concat {α β : Type} {R : α → β → Prop} {xs : List α} {x : α} {ys : List β}
    (h : List.Forall₂ R (xs ++ [x]) ys) :
    ∃ ys' y, ys = ys' ++ [y] ∧ List.Forall₂ R xs ys' ∧ R x y := by
  induction xs generalizing ys with
  | nil =>
    obtain ⟨y, ys', hR, hnil, rfl⟩ := List.forall₂_cons_left_iff.mp h
    obtain rfl := List.forall₂_nil_left_iff.mp hnil
    exact ⟨[], y, rfl, .nil, hR⟩
  | cons a xs ih =>
    obtain ⟨b, bs, hab, hrest, rfl⟩ := List.forall₂_cons_left_iff.mp h
    obtain ⟨ys', y, rfl, hxs, hR⟩ := ih hrest
    exact ⟨b :: ys', y, rfl, .cons hab hxs, hR⟩

/-- Only the last argument of a line is in quotes. -/
def Arg.isQuoted : Arg → Bool
  | .quoted _ => true
  | _ => false

theorem writes_shape (h : c.writes = some (verb, args)) :
    ∃ init last, args = init ++ [last] ∧ ∀ arg ∈ init, arg.isQuoted = false := by
  cases c <;> cases h <;>
    first
    | exact ⟨[], _, rfl, by simp⟩
    | exact ⟨[_], _, rfl, by simp [Arg.isQuoted]⟩
    | exact ⟨[_, _], _, rfl, by simp [Arg.isQuoted]⟩

end Commands

section OnlyIf
variable {c : Command} {verb : Verb} {init : List Arg} {last : Arg} {args : List Arg}
  {body : Text} {rest : List Bytes}

/-- A terminated text that reads as one command is one line. -/
theorem one_line {cmd : Command} (h : aofCommands (encode (body ++ ['\n'])) = [cmd]) :
    '\n' ∉ body ∧ lineCommand (body ++ ['\n']) = cmd := by
  have hlen := congrArg List.length h
  rw [aofCommands_encode, List.length_map, Lines.length_split_terminated] at hlen
  have hnot : '\n' ∉ body := List.count_eq_zero.mp (by simpa using hlen)
  rw [aofCommands_line hnot] at h
  exact ⟨hnot, (List.cons.inj h).1⟩

theorem mem_lineContent {ch : Char} (h : ch ∈ lineContent (body ++ ['\n'])) : ch ∈ body := by
  rw [lineContent_terminated] at h
  unfold stripLast at h
  split at h
  · exact List.dropLast_subset body h
  · exact h

theorem lineText_concat (verb : Verb) (init : List Arg) (last : Arg) :
    lineText verb (init ++ [last]) = lineText verb init ++ ' ' :: last.written := by
  simp [lineText]

/-- An argument that came back is text without quotes. -/
def Arg.Textual : Arg → Prop
  | .bare b => ∃ t, b = encode t ∧ t ≠ [] ∧ '"' ∉ t
  | .quoted b => ∃ t, b = encode t ∧ t ≠ [] ∧ '"' ∉ t
  | .number _ => True

theorem Arg.Reads.textual {arg : Arg} {t : Text} {x : Bytes} (h : arg.Reads x)
    (hx : x ∈ tokenize t) : arg.Textual := by
  obtain ⟨s, hs, hne, hq, -⟩ := mem_tokenize hx
  cases arg with
  | bare b => exact ⟨s, h.symm.trans hs, hne, hq⟩
  | quoted b => exact ⟨s, h.symm.trans hs, hne, hq⟩
  | number z => trivial

theorem Arg.Textual.written_quote {arg : Arg} (h : arg.Textual) (hq : arg.isQuoted = false) :
    '"' ∉ arg.written := by
  cases arg with
  | bare b =>
    obtain ⟨s, rfl, -, hs⟩ := h
    simpa [written, bytesToStr_encode] using hs
  | quoted b => cases hq
  | number z => exact notMem_of_plain (fun _ => isPlain_of_mem_printInt) rfl

theorem bare_of_plain {s : Text} (hne : s ≠ []) (h : ∀ c ∈ s, isPlain c) : Arg.Bare (encode s) := by
  have hnot : ∀ {d}, isPlain d = false → d ∉ s := notMem_of_plain h
  exact ⟨s, decode?_encode s, hne, hnot rfl, hnot rfl, hnot rfl, hnot rfl⟩

/-- A bare argument that came back from quote-free text is a word. -/
theorem Arg.Reads.readable {arg : Arg} {t : Text} {x : Bytes} (h : arg.Reads x)
    (hq : arg.isQuoted = false) (ht : '"' ∉ t) (hx : x ∈ tokenize t) : arg.Readable := by
  obtain ⟨s, hs, hne, hplain⟩ := mem_tokenizeFrom_plain (by simp) ht hx
  cases arg with
  | bare b =>
    obtain rfl : encode s = b := hs.symm.trans h
    exact bare_of_plain hne hplain
  | quoted b => cases hq
  | number z => trivial

theorem quote_notMem_lineText (verb : Verb) (h : ∀ arg ∈ args, arg.Textual)
    (hq : ∀ arg ∈ args, arg.isQuoted = false) : '"' ∉ lineText verb args :=
  notMem_lineText rfl (by decide) fun arg ha => (h arg ha).written_quote (hq arg ha)

theorem newline_of_lineText (h : '\n' ∉ lineText verb args) {arg : Arg} (ha : arg ∈ args) :
    '\n' ∉ arg.written := by
  intro hm
  refine h (List.mem_append_right _ (List.mem_flatMap.mpr ⟨arg, ha, ?_⟩))
  exact List.mem_cons_of_mem _ hm

/-- A line that ends in a quoted argument keeps its last character. -/
theorem lineContent_quoted (b : Bytes) :
    lineContent (lineText verb (init ++ [.quoted b]) ++ ['\n']) =
      lineText verb (init ++ [.quoted b]) := by
  refine lineContent_of_last ?_
  have hend : lineText verb (init ++ [.quoted b]) =
      (lineText verb init ++ ' ' :: '"' :: bytesToStr b) ++ ['"'] := by
    simp [lineText_concat, Arg.written, quoted]
  rw [hend, List.getLast?_concat]
  decide

/-- The tokens before a quoted last argument are those of the text before it. -/
theorem tokenize_quoted {b : Bytes}
    (hinit : '"' ∉ lineText verb init) (ht : Arg.Textual (.quoted b)) :
    tokenize (lineText verb (init ++ [.quoted b])) = tokenize (lineText verb init) ++ [b] := by
  obtain ⟨s, rfl, hne, hs⟩ := ht
  rw [tokenize, lineText_concat, tokenizeFrom_append_space hinit]
  congr 1
  rw [Arg.written, bytesToStr_encode, ← List.append_nil (quoted s), tokenizeFrom_quoted hs]
  exact flush_of_ne_nil hne

/-- A last word that ends in a carriage return does not come back. -/
theorem not_endsInReturn (hinit : ∀ arg ∈ init, arg.Readable) (hlast : last.Readable)
    (hr : ∃ word rest, tokenize (lineContent (lineText verb (init ++ [last]) ++ ['\n'])) =
      word :: rest ∧
      List.Forall₂ Arg.Reads (init ++ [last]) rest) : ¬ last.EndsInReturn := by
  cases last with
  | bare b =>
    rintro ⟨t, ht⟩
    obtain ⟨word, rest, htokens, hr⟩ := hr
    obtain rfl := encode_of_decode? ht
    have hcontent : lineContent (lineText verb (init ++ [.bare (encode (t ++ ['\r']))]) ++ ['\n']) =
        lineText verb (init ++ [.bare (encode t)]) := by
      have hsplit : lineText verb (init ++ [.bare (encode (t ++ ['\r']))]) ++ ['\n'] =
          lineText verb (init ++ [.bare (encode t)]) ++ ['\r', '\n'] := by
        simp [lineText_concat, Arg.written, bytesToStr, -encode_append]
      rw [hsplit, lineContent_return]
    have hsound : ∀ arg ∈ init ++ [.bare (encode t)], arg.Sound := by
      intro arg ha
      rcases List.mem_append.mp ha with ha | ha
      · exact (hinit arg ha).sound
      · obtain rfl := List.mem_singleton.mp ha
        have hs := hlast.sound
        simp only [Arg.Sound, bytesToStr_encode] at hs ⊢
        exact fun c hc => hs c (List.mem_append_left _ hc)
    rw [hcontent, tokenize_lineText hsound] at htokens
    obtain ⟨-, rfl⟩ := List.cons.inj htokens
    obtain ⟨rest', x, hrest, hinit', rfl⟩ := forall₂_concat hr
    have hlen := hinit'.length_eq
    rw [List.flatMap_append, flatMap_flush hinit] at hrest
    simp only [List.flatMap_singleton, Arg.text, bytesToStr_encode] at hrest
    by_cases hnil : t = []
    · have := congrArg List.length hrest
      simp [hnil, flush, hlen] at this
    · rw [flush_of_ne_nil hnil] at hrest
      have hx := (List.append_inj' hrest rfl).2
      have htext := encode_injective (List.singleton_inj.mp hx)
      simpa using congrArg List.length htext
  | quoted b => exact id
  | number z => exact id

/-- What a line must be like to come back. -/
theorem readable_of_read (hinit : ∀ arg ∈ init, arg.isQuoted = false)
    (hn : '\n' ∉ lineText verb (init ++ [last]))
    (hr : ∃ word rest, tokenize (lineContent (lineText verb (init ++ [last]) ++ ['\n'])) =
      word :: rest ∧
      List.Forall₂ Arg.Reads (init ++ [last]) rest) :
    ∀ arg ∈ init ++ [last], arg.Readable := by
  obtain ⟨word, rest, htokens, hr⟩ := hr
  have htextual : ∀ arg ∈ init ++ [last], arg.Textual := fun arg ha => by
    obtain ⟨x, hx, hreads⟩ := forall₂_mem hr ha
    exact hreads.textual (htokens ▸ List.mem_cons_of_mem _ hx)
  by_cases hlast : last.isQuoted = true
  · -- the tokens of the quote-free text before the last argument
    have hquote : '"' ∉ lineText verb init :=
      quote_notMem_lineText verb (fun arg ha => htextual arg (by simp [ha])) hinit
    cases last with
    | bare b => cases hlast
    | number z => cases hlast
    | quoted b =>
      have hb := htextual (.quoted b) (by simp)
      rw [lineContent_quoted, tokenize_quoted hquote hb] at htokens
      obtain ⟨rest', x, rfl, hinit', -⟩ := forall₂_concat hr
      rw [← List.cons_append] at htokens
      have hwords := (List.append_inj' htokens rfl).1
      intro arg ha
      rcases List.mem_append.mp ha with ha | ha
      · obtain ⟨y, hy, hreads⟩ := forall₂_mem hinit' ha
        exact hreads.readable (hinit arg ha) hquote (hwords ▸ List.mem_cons_of_mem _ hy)
      · obtain rfl := List.mem_singleton.mp ha
        obtain ⟨s, rfl, hne, hs⟩ := hb
        have hnl := newline_of_lineText hn (List.mem_append_right _ ha)
        simp only [Arg.written, quoted, bytesToStr_encode] at hnl
        exact ⟨s, decode?_encode s, hne, fun hm => hnl (by simp [hm]), hs⟩
  · have hall : ∀ arg ∈ init ++ [last], arg.isQuoted = false := fun arg ha => by
      rcases List.mem_append.mp ha with ha | ha
      · exact hinit arg ha
      · rw [List.mem_singleton.mp ha]; simpa using hlast
    have hquote : '"' ∉ lineText verb (init ++ [last]) := quote_notMem_lineText verb htextual hall
    intro arg ha
    obtain ⟨x, hx, hreads⟩ := forall₂_mem hr ha
    exact hreads.readable (hall arg ha) (fun hm => hquote (mem_lineContent hm))
      (htokens ▸ List.mem_cons_of_mem _ hx)

end OnlyIf

/-- The line ends in a carriage return only if its last word does. -/
theorem getLast?_lineText {verb : Verb} {init : List Arg} {last : Arg} (h : last.Readable)
    (hlast : ¬ last.EndsInReturn) : (lineText verb (init ++ [last])).getLast? ≠ some '\r' := by
  intro hcr
  have hw : last.written.getLast? = some '\r' := by
    rw [lineText_concat, List.getLast?_append, List.getLast?_cons] at hcr
    cases hl : last.written.getLast? with
    | none => simp [hl] at hcr
    | some ch => simpa [hl] using hcr
  obtain ⟨ws, hws⟩ := List.getLast?_eq_some_iff.mp hw
  cases last with
  | bare b =>
    obtain ⟨t, ht, -⟩ := h
    rw [Arg.written, bytesToStr, ht, Option.getD_some] at hws
    exact hlast ⟨ws, ht.trans (congrArg some hws)⟩
  | quoted b =>
    rw [Arg.written, quoted, List.getLast?_concat] at hw
    cases hw
  | number z =>
    have hmem : '\r' ∈ Decimal.printInt z := List.mem_of_getLast? hw
    rcases Decimal.mem_printInt hmem with hc | hc <;> cases hc

/-- A written line comes back as one command. -/
theorem aofCommands_lineText (verb : Verb) {init : List Arg} {last : Arg}
    (h : ∀ arg ∈ init ++ [last], arg.Readable) (hlast : ¬ last.EndsInReturn) (rest : Text) :
    aofCommands (encode (lineText verb (init ++ [last]) ++ '\n' :: rest)) =
      parseCommand (lit verb.name :: (init ++ [last]).map Arg.token) ::
        aofCommands (encode rest) := by
  rw [aofCommands_line (newline_notMem_lineText fun arg ha => (h arg ha).newline)]
  congr 1
  rw [lineCommand, lineContent_of_last (getLast?_lineText (h last (by simp)) hlast),
    tokenize_readable h]

/-- The exact domain of the codec: a logged line reads back as its one command
if and only if every bare argument is a word, every quoted one has neither quote
nor newline, and the last word does not end in a carriage return. -/
theorem log_line_codec {c : Command} {verb : Verb} {args : List Arg}
    (hw : c.writes = some (verb, args)) (ht : c.Typed) :
    aofCommands (encode (logLine c)) = [c.logged] ↔
      (∀ arg ∈ args, arg.Readable) ∧ ∀ arg ∈ args.getLast?, ¬ arg.EndsInReturn := by
  obtain ⟨init, last, rfl, hinit⟩ := writes_shape hw
  rw [logLine_eq hw, List.getLast?_concat]
  constructor
  · intro h
    obtain ⟨hn, hline⟩ := one_line h
    have hwords : (parseCommand (tokenize (lineContent
        (lineText verb (init ++ [last]) ++ ['\n'])))).writes = some (verb, init ++ [last]) :=
      (congrArg Command.writes hline).trans ((writes_logged c).trans hw)
    obtain ⟨word, rest, htokens, -, hr⟩ := parseCommand_inv hwords
    have hread := readable_of_read hinit hn ⟨word, rest, htokens, hr⟩
    refine ⟨hread, fun arg ha => ?_⟩
    obtain rfl := Option.some.inj ha
    exact not_endsInReturn (fun a ha => hread a (by simp [ha])) (hread _ (by simp))
      ⟨word, rest, htokens, hr⟩
  · rintro ⟨hread, hlast⟩
    have hline := aofCommands_lineText verb hread (hlast last rfl) []
    rw [hline, parseCommand_writes hw ht]
    rfl

/-- `LPUSH q x`, whose line is `LPUSH q "x"`. -/
theorem log_line_codec_push :
    aofCommands (encode (logLine (.lPush [113] [120]))) = [.lPush [113] [120]] ↔
      (∀ arg ∈ [Arg.bare [113], .quoted [120]], arg.Readable) ∧
        ∀ arg ∈ [Arg.bare [113], .quoted [120]].getLast?, ¬ arg.EndsInReturn :=
  log_line_codec rfl trivial

end TitanKv
