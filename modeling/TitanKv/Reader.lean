import Mathlib.Data.List.TakeWhile
import TitanKv.Lib.Lines
import TitanKv.Lib.Resp
import TitanKv.Protocol

/-! # Reading requests from the stream

`readResp` takes one request off the bytes still to come: a line that does not
start with `*` is tokenized, any other announces a number of arguments, each
behind a line with its length. A line ends at its newline or at the end of the
stream. The loop over the arguments passes over a line that is no length header
and does not look at the two bytes behind a payload. -/

namespace TitanKv
open Utf8

/-- How a read ends without a request. -/
inductive Failure where
  | err
  | panic
  deriving DecidableEq

/-- A computation on the bytes still to come. -/
abbrev Reader := StateT Bytes (Except Failure)

section Text

/-- `char::is_whitespace`. -/
def isWhitespace (c : Char) : Bool :=
  let n := c.toNat
  (9 ≤ n && n ≤ 13) || n = 0x20 || n = 0x85 || n = 0xA0 || n = 0x1680 ||
    (0x2000 ≤ n && n ≤ 0x200A) ||
    n = 0x2028 || n = 0x2029 || n = 0x202F || n = 0x205F || n = 0x3000

def trim (s : Text) : Text :=
  ((s.dropWhile isWhitespace).reverse.dropWhile isWhitespace).reverse

def trimStartMatches (c : Char) (s : Text) : Text := s.dropWhile fun d => d = c

end Text

section Primitives

/-- The bytes up to the first newline, which they include. -/
def untilNewline : Bytes → Bytes × Bytes
  | [] => ([], [])
  | b :: rest => if b = 10 then ([b], rest) else (b :: (untilNewline rest).1, (untilNewline rest).2)

/-- `read_line` into an empty string. -/
def readLine : Reader Text := fun bytes =>
  match decode? (untilNewline bytes).1 with
  | some line => .ok (line, (untilNewline bytes).2)
  | none => .error .err

def readExact (n : Nat) : Reader Bytes := fun bytes =>
  if n ≤ bytes.length then .ok (bytes.take n, bytes.drop n) else .error .err

/-- The number on a header line. -/
def headerNumber (tag : Char) (line : Text) : Option Nat :=
  Decimal.parseNat (2 ^ 64 - 1) (trim (trimStartMatches tag line))

def parseHeader (tag : Char) (line : Text) : Reader Nat :=
  match headerNumber tag line with
  | some n => pure n
  | none => throw .err

end Primitives

section ReadResp

/-- The largest capacity in bytes that `Vec` accepts. -/
def isizeMax : Nat := 2 ^ 63 - 1

/-- The size in memory of one argument handle. -/
def bytesSize : Nat := 32

/-- The payload a length line announces and the two bytes behind it. The buffer
is two bytes longer than the payload, in `usize` arithmetic. -/
def readPayload (lenLine : Text) : Reader (Bytes × Bytes) := do
  let len ← parseHeader '$' lenLine
  let size := (len + 2) % 2 ^ 64
  if size > isizeMax then throw .panic
  else do
    let buf ← readExact size
    if len > size then throw .panic
    else return (buf.take len, buf.drop len)

def readArgs : Nat → Reader (List Bytes)
  | 0 => return []
  | n + 1 => do
    let lenLine ← readLine
    if lenLine.head? ≠ some '$' then readArgs n
    else do
      let arg ← readPayload lenLine
      let args ← readArgs n
      return arg.1 :: args

def readResp : Reader (List Bytes) := do
  let line ← readLine
  if line.head? ≠ some '*' then return tokenize line
  else do
    let count ← parseHeader '*' line
    if count * bytesSize > isizeMax then throw .panic
    else readArgs count

end ReadResp

section Bind
variable {α β : Type} {x : Reader α} {f : α → Reader β} {bytes rest : Bytes} {a : α}

theorem bind_of_ok (h : x bytes = .ok (a, rest)) : (x >>= f) bytes = f a rest := by
  show (x bytes >>= fun r => f r.1 r.2) = f a rest
  rw [h]
  rfl

theorem bind_eq_ok {r : β × Bytes} :
    (x >>= f) bytes = .ok r ↔ ∃ a rest, x bytes = .ok (a, rest) ∧ f a rest = .ok r := by
  show (x bytes >>= fun r => f r.1 r.2) = .ok r ↔ _
  cases hx : x bytes with
  | error e =>
    constructor
    · intro h
      cases h
    · rintro ⟨a, rest, h, -⟩
      cases h
  | ok p =>
    constructor
    · exact fun h => ⟨p.1, p.2, rfl, h⟩
    · rintro ⟨a, rest, h, hf⟩
      obtain rfl := Except.ok.inj h
      exact hf

end Bind

section Header
variable {tag : Char} {ds body : Text} {n : Nat}

/-- A header line: the tag, digits and CRLF. -/
def header (tag : Char) (ds : Text) : Text := tag :: (ds ++ ['\r', '\n'])

theorem untilNewline_append {l : Bytes} (h : 10 ∉ l) (rest : Bytes) :
    untilNewline (l ++ 10 :: rest) = (l ++ [10], rest) := by
  induction l with
  | nil => simp [untilNewline]
  | cons b l ih =>
    obtain ⟨hb, hl⟩ := not_or.mp (mt List.mem_cons.mpr h)
    simp [untilNewline, Ne.symm hb, ih hl]

theorem readLine_terminated (h : '\n' ∉ body) (rest : Bytes) :
    readLine (encode (body ++ ['\n']) ++ rest) = .ok (body ++ ['\n'], rest) := by
  have hbytes : 10 ∉ encode body := fun hm => h (ascii_mem_encode (a := '\n') (by decide) hm)
  have hnl : encode ['\n'] = [10] := rfl
  have hcut : untilNewline (encode (body ++ ['\n']) ++ rest) = (encode (body ++ ['\n']), rest) := by
    rw [encode_append, hnl, List.append_assoc]
    exact untilNewline_append hbytes rest
  rw [readLine, hcut, decode?_encode]

theorem untilNewline_join (bytes : Bytes) :
    (untilNewline bytes).1 ++ (untilNewline bytes).2 = bytes := by
  induction bytes with
  | nil => rfl
  | cons b bytes ih =>
    rw [untilNewline]
    split
    · rfl
    · exact congrArg (b :: ·) ih

theorem untilNewline_unterminated {bytes : Bytes} (h : 10 ∉ (untilNewline bytes).1) :
    untilNewline bytes = (bytes, []) := by
  induction bytes with
  | nil => rfl
  | cons b bytes ih =>
    rw [untilNewline] at h ⊢
    split at h
    · rename_i hb
      exact absurd (List.mem_singleton.mpr hb.symm) h
    · rename_i hb
      rw [if_neg hb, ih (List.not_mem_of_not_mem_cons h)]

theorem readLine_eq_ok {bytes rest : Bytes} {line : Text} :
    readLine bytes = .ok (line, rest) ↔ untilNewline bytes = (encode line, rest) := by
  unfold readLine
  constructor
  · intro h
    split at h
    · rename_i hline
      obtain ⟨rfl, rfl⟩ := Prod.mk.inj (Except.ok.inj h)
      rw [encode_of_decode? hline]
    · cases h
  · intro h
    rw [h, decode?_encode]

/-- A line read is what was taken off the stream. -/
theorem encode_of_readLine {bytes rest : Bytes} {line : Text}
    (h : readLine bytes = .ok (line, rest)) :
    bytes = encode line ++ rest := by
  rw [← untilNewline_join bytes, readLine_eq_ok.mp h]

theorem head_of_readLine {bytes rest : Bytes} {line : Text} (hb : bytes.head? = some 42)
    (h : readLine bytes = .ok (line, rest)) : line.head? = some '*' := by
  obtain ⟨bytes, rfl⟩ : ∃ tail, bytes = 42 :: tail := List.head?_eq_some_iff.mp hb
  have hcut := readLine_eq_ok.mp h
  rw [untilNewline, if_neg (by decide)] at hcut
  obtain ⟨hline, -⟩ := Prod.mk.inj hcut
  cases line with
  | nil => cases hline
  | cons c line =>
    rw [encode_cons] at hline
    obtain ⟨b, bs, hc⟩ := List.exists_cons_of_ne_nil (String.utf8EncodeChar_ne_nil (c := c))
    rw [hc, List.cons_append, List.cons.injEq] at hline
    have hmem : UInt8.ofNat '*'.toNat ∈ String.utf8EncodeChar c := by
      rw [hc, ← hline.1]
      exact List.mem_cons_self
    rw [← ascii_mem_encodeChar (a := '*') (by decide) hmem]
    rfl

theorem newline_notMem_digits (h : Decimal.digits? ds = some n) : '\n' ∉ ds := by
  intro hm
  have := List.all_eq_true.mp (Decimal.digits?_eq_some h).2 _ hm
  cases this

theorem readLine_header (htag : tag ≠ '\n') (h : Decimal.digits? ds = some n) (rest : Bytes) :
    readLine (encode (header tag ds) ++ rest) = .ok (header tag ds, rest) := by
  have hbody : '\n' ∉ tag :: (ds ++ ['\r']) := by
    simp [newline_notMem_digits h, Ne.symm htag]
  simpa [header] using readLine_terminated hbody rest

theorem not_isWhitespace_of_isDigit {c : Char} (h : c.isDigit = true) : isWhitespace c = false := by
  have hrange := Decimal.isDigit_range h
  simp only [isWhitespace, Bool.or_eq_false_iff, Bool.and_eq_false_iff, decide_eq_false_iff_not]
  omega

/-- Trimming takes the blanks on both sides away, and nothing else. -/
theorem trim_middle {left right t : Text} (hblanks : ∀ c ∈ left ++ right, isWhitespace c = true)
    (hne : t ≠ []) (hplain : ∀ c ∈ t, isWhitespace c = false) : trim (left ++ t ++ right) = t := by
  obtain ⟨c, cs, rfl⟩ := List.exists_cons_of_ne_nil hne
  have hfront : (left ++ (c :: cs) ++ right).dropWhile isWhitespace = (c :: cs) ++ right := by
    rw [List.append_assoc,
      List.dropWhile_append_of_pos fun d hd => hblanks d (List.mem_append_left _ hd)]
    simp [hplain c (by simp)]
  have hback : ((c :: cs).reverse).dropWhile isWhitespace = (c :: cs).reverse := by
    cases hr : (c :: cs).reverse with
    | nil => rfl
    | cons d ds => simp [hplain d (List.mem_reverse.mp (by simp [hr]))]
  rw [trim, hfront, List.reverse_append, List.dropWhile_append_of_pos fun d hd =>
    hblanks d (List.mem_append_right _ (List.mem_reverse.mp hd)), hback, List.reverse_reverse]

/-- The digits are what trimming leaves of a header line. -/
theorem trim_digits (hne : ds ≠ []) (h : ds.all Char.isDigit = true) :
    trim (ds ++ ['\r', '\n']) = ds :=
  trim_middle (List.all_eq_true.mp (show ([] ++ ['\r', '\n']).all isWhitespace = true from rfl))
    hne fun c hc => not_isWhitespace_of_isDigit (List.all_eq_true.mp h c hc)

theorem headerNumber_header (htag : tag.isDigit = false) (h : Decimal.digits? ds = some n) :
    headerNumber tag (header tag ds) = if n ≤ 2 ^ 64 - 1 then some n else none := by
  obtain ⟨hne, hall⟩ := Decimal.digits?_eq_some h
  obtain ⟨c, cs, rfl⟩ := List.exists_cons_of_ne_nil hne
  have hc : c ≠ tag := by
    rintro rfl
    rw [List.all_eq_true.mp hall c (by simp)] at htag
    cases htag
  have hstart : trimStartMatches tag (header tag (c :: cs)) = (c :: cs) ++ ['\r', '\n'] := by
    simp [trimStartMatches, header, hc]
  rw [headerNumber, hstart, trim_digits hne hall, Decimal.parseNat_digits hall, h, Option.bind_some]

end Header

section Payload
variable {ds : Text} {bytes rest : Bytes} {n : Nat} {r : (Bytes × Bytes) × Bytes}

theorem readExact_eq_ok {r : Bytes × Bytes} :
    readExact n bytes = .ok r ↔ n ≤ bytes.length ∧ r = (bytes.take n, bytes.drop n) := by
  unfold readExact
  split
  · rename_i h
    simp only [Except.ok.injEq, h, true_and]
    exact eq_comm
  · rename_i h
    simp [h]

theorem parseHeader_eq_ok {tag : Char} {line : Text} {r : Nat × Bytes} :
    parseHeader tag line bytes = .ok r ↔ headerNumber tag line = some r.1 ∧ r.2 = bytes := by
  unfold parseHeader
  obtain ⟨n, rest⟩ := r
  cases headerNumber tag line with
  | none => exact ⟨fun h => (by cases h), fun h => (by cases h.1)⟩
  | some m =>
    show Except.ok (m, bytes) = .ok (n, rest) ↔ _
    simp only [Except.ok.injEq, Prod.mk.injEq, Option.some.injEq, eq_comm (a := bytes)]

/-- What a payload read takes off the stream. -/
theorem readPayload_eq_ok {lenLine : Text} : readPayload lenLine bytes = .ok r ↔
    ∃ len, headerNumber '$' lenLine = some len ∧ len + 2 ≤ isizeMax ∧ len + 2 ≤ bytes.length ∧
      r = ((bytes.take len, (bytes.drop len).take 2), bytes.drop (len + 2)) := by
  constructor
  · intro h
    obtain ⟨len, rest, hp, hread⟩ := bind_eq_ok.mp h
    obtain ⟨hnum, hrest⟩ := parseHeader_eq_ok.mp hp
    dsimp only at hnum hrest
    subst hrest
    have hmax : len ≤ 2 ^ 64 - 1 := Decimal.parseNat_le hnum
    by_cases hcap : (len + 2) % 2 ^ 64 > isizeMax
    · rw [if_pos hcap] at hread
      cases hread
    · rw [if_neg hcap] at hread
      obtain ⟨buf, rest', hb, hbuf⟩ := bind_eq_ok.mp hread
      obtain ⟨hle, heq⟩ := readExact_eq_ok.mp hb
      by_cases hslice : len > (len + 2) % 2 ^ 64
      · rw [if_pos hslice] at hbuf
        cases hbuf
      · rw [if_neg hslice] at hbuf
        unfold isizeMax at hcap
        -- a sum that wraps leaves the slice out of bounds
        have hsize : (len + 2) % 2 ^ 64 = len + 2 := by omega
        rw [hsize] at hle heq hcap
        obtain ⟨rfl, rfl⟩ := Prod.mk.inj heq
        obtain rfl := Except.ok.inj hbuf
        exact ⟨len, hnum, by unfold isizeMax; omega, hle, by simp [List.take_take, List.drop_take]⟩
  · rintro ⟨len, hnum, hcap, hle, rfl⟩
    have hsize : (len + 2) % 2 ^ 64 = len + 2 := by unfold isizeMax at hcap; omega
    refine (bind_of_ok (parseHeader_eq_ok.mpr ⟨hnum, rfl⟩)).trans ?_
    rw [hsize, if_neg (by omega)]
    refine (bind_of_ok (readExact_eq_ok.mpr ⟨hle, rfl⟩)).trans ?_
    rw [if_neg (by omega)]
    show Except.ok _ = Except.ok _
    simp [List.take_take, List.drop_take]

/-- A payload behind its length comes back with the two bytes behind it. -/
theorem readPayload_header {payload : Bytes} (h : Decimal.digits? ds = some payload.length)
    (hfits : payload.length < 2 ^ 63 - 2) (rest : Bytes) :
    readPayload (header '$' ds) (payload ++ 13 :: 10 :: rest) =
      .ok ((payload, [13, 10]), rest) := by
  refine readPayload_eq_ok.mpr ⟨payload.length, ?_, ?_, ?_, ?_⟩
  · rw [headerNumber_header rfl h, if_pos (by omega)]
  · unfold isizeMax; omega
  · simp
  · simp

end Payload

section RoundTrip

/-- The encoding of an argument list: an array of bulk strings. -/
def encodeRequest (args : List Bytes) : Bytes := Resp.Value.encode (.array (args.map .bulk))

/-- What a request asks of `Vec`. -/
def Admissible (args : List Bytes) : Prop :=
  args.length < 2 ^ 58 ∧ ∀ arg ∈ args, arg.length < 2 ^ 63 - 2

theorem frame_eq_header (tag : Char) (htag : tag.toNat < 128) (z : Int) :
    Resp.frame (UInt8.ofNat tag.toNat) (Resp.number z) =
      encode (header tag (Decimal.printInt z)) := by
  rw [header, encode_cons, encodeChar_ascii htag, encode_append]
  rfl

theorem digits?_printInt_natCast (n : Nat) : Decimal.digits? (Decimal.printInt n) = some n := by
  rw [Decimal.printInt, if_neg (by omega)]
  exact Decimal.digits?_printNat n

theorem encodeAll_cons_bulk (arg : Bytes) (args : List Bytes) (rest : Bytes) :
    Resp.Value.encodeAll ((arg :: args).map .bulk) ++ rest =
      encode (header '$' (Decimal.printInt arg.length)) ++
        (arg ++ 13 :: 10 :: (Resp.Value.encodeAll (args.map .bulk) ++ rest)) := by
  rw [← frame_eq_header '$' (by decide)]
  simp [Resp.Value.encodeAll, Resp.Value.encode]

theorem readArgs_encodeAll {args : List Bytes} (h : ∀ arg ∈ args, arg.length < 2 ^ 63 - 2)
    (rest : Bytes) :
    readArgs args.length (Resp.Value.encodeAll (args.map .bulk) ++ rest) = .ok (args, rest) := by
  induction args with
  | nil => rfl
  | cons arg args ih =>
    have hdigits := digits?_printInt_natCast arg.length
    rw [encodeAll_cons_bulk, List.length_cons, readArgs]
    rw [bind_of_ok (readLine_header (by decide) hdigits _), if_neg (by simp [header]),
      bind_of_ok (readPayload_header hdigits (h arg (by simp)) _),
      bind_of_ok (ih fun a ha => h a (List.mem_cons_of_mem _ ha))]
    rfl

/-- A request is read back from its encoding, and nothing behind it is touched. -/
theorem readResp_encodeRequest {args : List Bytes} (h : Admissible args) (rest : Bytes) :
    readResp (encodeRequest args ++ rest) = .ok (args, rest) := by
  have hdigits := digits?_printInt_natCast args.length
  have hbytes : encodeRequest args ++ rest = encode (header '*' (Decimal.printInt args.length)) ++
      (Resp.Value.encodeAll (args.map .bulk) ++ rest) := by
    rw [← frame_eq_header '*' (by decide)]
    simp [encodeRequest, Resp.Value.encode]
  have hcount : headerNumber '*' (header '*' (Decimal.printInt args.length)) =
      some args.length := by
    rw [headerNumber_header rfl hdigits, if_pos (by have := h.1; omega)]
  rw [hbytes, readResp, bind_of_ok (readLine_header (by decide) hdigits _),
    if_neg (by simp [header]), bind_of_ok (parseHeader_eq_ok.mpr ⟨hcount, rfl⟩),
    if_neg (by have := h.1; unfold isizeMax bytesSize; omega)]
  exact readArgs_encodeAll h.2 rest

/-- Reading so many requests one after another. -/
def readRequests : Nat → Reader (List (List Bytes))
  | 0 => return []
  | n + 1 => do
    let request ← readResp
    let requests ← readRequests n
    return request :: requests

/-- A pipeline is read request by request: after any number of reads exactly
the encodings of that many requests are gone from the stream. -/
theorem readRequests_pipeline {requests : List (List Bytes)}
    (h : ∀ args ∈ requests, Admissible args) (rest : Bytes) {n : Nat} (hn : n ≤ requests.length) :
    readRequests n (requests.flatMap encodeRequest ++ rest) =
      .ok (requests.take n, (requests.drop n).flatMap encodeRequest ++ rest) := by
  induction requests generalizing n with
  | nil =>
    obtain rfl := Nat.le_zero.mp hn
    rfl
  | cons args requests ih =>
    cases n with
    | zero => rfl
    | succ n =>
      have hrest := ih (fun a ha => h a (List.mem_cons_of_mem _ ha)) (Nat.le_of_succ_le_succ hn)
      rw [List.flatMap_cons, List.append_assoc, readRequests,
        bind_of_ok (readResp_encodeRequest (h args (by simp)) _), bind_of_ok hrest]
      rfl

theorem readRequests_pipeline_ping :
    readRequests 1 ([[[80, 73, 78, 71]], [[71, 69, 84], [36, 13, 10]]].flatMap encodeRequest ++
      [42]) =
      .ok ([[[80, 73, 78, 71]]], [[[71, 69, 84], [36, 13, 10]]].flatMap encodeRequest ++ [42]) :=
  readRequests_pipeline (by simp [Admissible]) [42] (by simp)

end RoundTrip

section Grammar
variable {tag : Char} {line : Text} {count n : Nat} {bytes rest input : Bytes} {args : List Bytes}

/-- A line that announces a number as the reader takes it: the tag once or more, a number
with or without a `+`, blanks on both sides of it. -/
def Announces (tag : Char) (line : Text) (n : Nat) : Prop :=
  ∃ tags left sign ds right, tags ≠ [] ∧ (∀ c ∈ tags, c = tag) ∧
    (∀ c ∈ left ++ right, isWhitespace c = true) ∧ (sign = [] ∨ sign = ['+']) ∧
    Decimal.digits? ds = some n ∧ n ≤ 2 ^ 64 - 1 ∧ line = tags ++ (left ++ (sign ++ ds) ++ right)

theorem Announces.head (h : Announces tag line n) : line.head? = some tag := by
  obtain ⟨tags, left, sign, ds, right, hne, htags, -, -, -, -, rfl⟩ := h
  obtain ⟨c, cs, rfl⟩ := List.exists_cons_of_ne_nil hne
  rw [← htags c List.mem_cons_self]
  rfl

/-- A line that is no length line: the argument loop passes over it. -/
def IsSkipped (bytes : Bytes) : Prop :=
  ∃ line, Lines.Terminated '\n' line ∧ line.head? ≠ some '$' ∧ bytes = encode line

/-- A length line and as many bytes as it announces, with any two bytes behind them. -/
def IsLooseBulk (bytes : Bytes) : Prop :=
  ∃ line len payload, Lines.Terminated '\n' line ∧ Announces '$' line len ∧ len + 2 ≤ isizeMax ∧
    payload.length = len + 2 ∧ bytes = encode line ++ payload

/-- The end of a stream in a line without its newline, which may be empty. -/
def IsLastLine (bytes : Bytes) : Prop :=
  ∃ line, '\n' ∉ line ∧ line.head? ≠ some '$' ∧ bytes = encode line

/-- What the argument loop takes for so many elements. -/
def AreLooseItems (count : Nat) (bytes : Bytes) : Prop :=
  ∃ (items : List Bytes) (rest : Bytes), bytes = items.flatten ++ rest ∧
    (∀ item ∈ items, IsSkipped item ∨ IsLooseBulk item) ∧
    (items.length = count ∨ items.length < count ∧ IsLastLine rest)

/-- An array as the reader takes it: a first line that announces a number, and as many
lines to skip and loose bulk strings, or fewer if the stream ends. -/
def IsLoose (input : Bytes) : Prop :=
  ∃ line count, Announces '*' line count ∧ count * bytesSize ≤ isizeMax ∧
    ('\n' ∉ line ∧ input = encode line ∨
      Lines.Terminated '\n' line ∧ ∃ bytes, input = encode line ++ bytes ∧
        AreLooseItems count bytes)

/-- One bulk string: a length header, the payload and CRLF. -/
def IsBulk (arg bytes : Bytes) : Prop :=
  ∃ ds, Decimal.digits? ds = some arg.length ∧ bytes = encode (header '$' ds) ++ (arg ++ [13, 10])

/-- An array of bulk strings: the number of its elements, then the elements. -/
def IsRequest (args : List Bytes) (bytes : Bytes) : Prop :=
  ∃ ds bulks, Decimal.digits? ds = some args.length ∧ List.Forall₂ IsBulk args bulks ∧
    bytes = encode (header '*' ds) ++ bulks.flatten

/-- A stream that begins with a complete request. -/
def BeginsComplete (input : Bytes) : Prop :=
  ∃ args consumed rest, input = consumed ++ rest ∧ IsRequest args consumed

theorem exists_trim (s : Text) : ∃ left right,
    (∀ c ∈ left ++ right, isWhitespace c = true) ∧ s = left ++ trim s ++ right := by
  let front := s.dropWhile isWhitespace
  have hback : front = trim s ++ (front.reverse.takeWhile isWhitespace).reverse := by
    have hsplit := congrArg List.reverse
      (List.takeWhile_append_dropWhile (p := isWhitespace) (l := front.reverse))
    rw [List.reverse_append, List.reverse_reverse] at hsplit
    exact hsplit.symm
  refine ⟨s.takeWhile isWhitespace, (front.reverse.takeWhile isWhitespace).reverse,
    fun c hc => ?_, ?_⟩
  · rcases List.mem_append.mp hc with hc | hc
    · exact List.mem_takeWhile_imp hc
    · exact List.mem_takeWhile_imp (List.mem_reverse.mp hc)
  · rw [List.append_assoc, ← hback, List.takeWhile_append_dropWhile]

/-- The number of a header line is the one it announces. -/
theorem headerNumber_eq_some (hblank : isWhitespace tag = false) (hplus : tag ≠ '+')
    (hdigit : tag.isDigit = false) (hhead : line.head? = some tag) :
    headerNumber tag line = some n ↔ Announces tag line n := by
  unfold headerNumber
  rw [Decimal.parseNat_eq_some]
  constructor
  · rintro ⟨sign, ds, htrim, hsign, hds, hn⟩
    obtain ⟨left, right, hblanks, hcut⟩ := exists_trim (trimStartMatches tag line)
    refine ⟨line.takeWhile fun d => d = tag, left, sign, ds, right, ?_, ?_, hblanks, hsign,
      hds, hn, ?_⟩
    · obtain ⟨tail, rfl⟩ := List.head?_eq_some_iff.mp hhead
      simp
    · intro c hc
      simpa using List.mem_takeWhile_imp hc
    · rw [← htrim, ← hcut, trimStartMatches, List.takeWhile_append_dropWhile]
  · rintro ⟨tags, left, sign, ds, right, -, htags, hblanks, hsign, hds, hn, rfl⟩
    have hnumber : ∀ c ∈ sign ++ ds, c ≠ tag ∧ isWhitespace c = false := by
      intro c hc
      rcases List.mem_append.mp hc with hc | hc
      · rcases hsign with rfl | rfl
        · cases hc
        · obtain rfl := List.mem_singleton.mp hc
          exact ⟨hplus.symm, rfl⟩
      · have hc := List.all_eq_true.mp (Decimal.digits?_eq_some hds).2 c hc
        refine ⟨?_, not_isWhitespace_of_isDigit hc⟩
        rintro rfl
        rw [hdigit] at hc
        cases hc
    have hstart : trimStartMatches tag (tags ++ (left ++ (sign ++ ds) ++ right)) =
        left ++ (sign ++ ds) ++ right := by
      have hplain : ∀ c ∈ left ++ (sign ++ ds) ++ right, c ≠ tag := by
        intro c hc
        have hne : isWhitespace c = true → c ≠ tag := by
          rintro hc rfl
          rw [hblank] at hc
          cases hc
        simp only [List.mem_append] at hc hblanks hnumber
        rcases hc with (hc | hc) | hc
        · exact hne (hblanks c (Or.inl hc))
        · exact (hnumber c hc).1
        · exact hne (hblanks c (Or.inr hc))
      rw [trimStartMatches, List.dropWhile_append_of_pos (by simpa using htags)]
      cases hrest : left ++ (sign ++ ds) ++ right with
      | nil => rfl
      | cons c cs => simp [hplain c (by rw [hrest]; exact List.mem_cons_self)]
    refine ⟨sign, ds, ?_, hsign, hds, hn⟩
    rw [hstart]
    exact trim_middle hblanks (by simp [(Decimal.digits?_eq_some hds).1]) fun c hc =>
      (hnumber c hc).2

/-- A line read ends at its newline, or the stream ends with it. -/
theorem readLine_iff : readLine bytes = .ok (line, rest) ↔
    Lines.Terminated '\n' line ∧ bytes = encode line ++ rest ∨
      '\n' ∉ line ∧ bytes = encode line ∧ rest = [] := by
  constructor
  · intro h
    have hbytes := encode_of_readLine h
    rw [readLine_eq_ok] at h
    by_cases hnl : '\n' ∈ line
    · obtain ⟨body, tail, rfl, hbody⟩ := List.eq_append_cons_of_mem hnl
      have hfirst := readLine_terminated hbody (encode tail ++ rest)
      have hcut : bytes = encode (body ++ ['\n']) ++ (encode tail ++ rest) := by
        rw [hbytes, ← List.singleton_append, ← List.append_assoc, encode_append _ tail,
          List.append_assoc]
      rw [← hcut, readLine_eq_ok, h] at hfirst
      obtain ⟨hline, -⟩ := Prod.mk.inj hfirst
      exact Or.inl ⟨⟨body, hbody, encode_injective hline⟩, hbytes⟩
    · have hlast : 10 ∉ (untilNewline bytes).1 := by
        rw [h]
        exact fun hm => hnl (ascii_mem_encode (a := '\n') (by decide) hm)
      rw [untilNewline_unterminated hlast] at h
      obtain ⟨hline, hrest⟩ := Prod.mk.inj h
      exact Or.inr ⟨hnl, hline, hrest.symm⟩
  · rintro (⟨⟨body, hbody, rfl⟩, rfl⟩ | ⟨hnl, rfl, rfl⟩)
    · exact readLine_terminated hbody rest
    · refine readLine_eq_ok.mpr (untilNewline_unterminated fun hm => hnl ?_)
      refine ascii_mem_encode (a := '\n') (by decide) ?_
      rw [← untilNewline_join (encode line)]
      exact List.mem_append_left _ hm

theorem readArgs_nil (n : Nat) : readArgs n [] = .ok ([], []) := by
  induction n with
  | zero => rfl
  | succ n ih => exact ih

/-- Exactly what the argument loop reads. -/
theorem readArgs_isOk_iff : (∃ r, readArgs n bytes = .ok r) ↔ AreLooseItems n bytes := by
  induction n generalizing bytes with
  | zero => exact iff_of_true ⟨_, rfl⟩ ⟨[], bytes, rfl, by simp, Or.inl rfl⟩
  | succ n ih =>
    constructor
    · rintro ⟨r, hread⟩
      obtain ⟨line, rest₁, hline, hr⟩ := bind_eq_ok.mp hread
      by_cases hd : line.head? ≠ some '$'
      · rw [if_pos hd] at hr
        rcases readLine_iff.mp hline with ⟨hterm, rfl⟩ | ⟨hnl, rfl, rfl⟩
        · obtain ⟨items, rest, rfl, hitems, hend⟩ := ih.mp ⟨r, hr⟩
          refine ⟨encode line :: items, rest, by simp, ?_, by simpa using hend⟩
          exact List.forall_mem_cons.mpr ⟨Or.inl ⟨line, hterm, hd, rfl⟩, hitems⟩
        · exact ⟨[], encode line, rfl, by simp, Or.inr ⟨n.succ_pos, line, hnl, hd, rfl⟩⟩
      · rw [if_neg hd] at hr
        obtain ⟨content, rest₂, hc, hr⟩ := bind_eq_ok.mp hr
        obtain ⟨tail, rest₃, ht, -⟩ := bind_eq_ok.mp hr
        obtain ⟨len, hnum, hcap, hle, heq⟩ := readPayload_eq_ok.mp hc
        obtain ⟨-, rfl⟩ := Prod.mk.inj heq
        rcases readLine_iff.mp hline with ⟨hterm, rfl⟩ | ⟨-, -, rfl⟩
        · obtain ⟨items, rest, hrest, hitems, hend⟩ := ih.mp ⟨_, ht⟩
          refine ⟨(encode line ++ rest₁.take (len + 2)) :: items, rest, ?_, ?_, by simpa using hend⟩
          · rw [List.flatten_cons, List.append_assoc, List.append_assoc, ← hrest,
              List.take_append_drop]
          · refine List.forall_mem_cons.mpr ⟨Or.inr ⟨line, len, _, hterm, ?_, hcap, ?_, rfl⟩,
              hitems⟩
            · exact (headerNumber_eq_some rfl (by decide) rfl (not_not.mp hd)).mp hnum
            · simp [hle]
        · simp at hle
    · rintro ⟨items, rest, rfl, hitems, hend⟩
      cases items with
      | nil =>
        obtain ⟨-, line, hnl, hd, rfl⟩ := hend.resolve_left (by simp)
        refine ⟨([], []), ?_⟩
        rw [List.flatten_nil, List.nil_append, readArgs,
          bind_of_ok (readLine_iff.mpr (Or.inr ⟨hnl, rfl, rfl⟩)), if_pos hd]
        exact readArgs_nil n
      | cons item items =>
        obtain ⟨hitem, hitems⟩ := List.forall_mem_cons.mp hitems
        obtain ⟨r, hr⟩ := ih.mpr ⟨items, rest, rfl, hitems, by simpa using hend⟩
        rw [List.flatten_cons, List.append_assoc, readArgs]
        rcases hitem with ⟨line, hterm, hd, rfl⟩ | ⟨line, len, payload, hterm, hlen, hcap,
          hpayload, rfl⟩
        · refine ⟨r, ?_⟩
          rw [bind_of_ok (readLine_iff.mpr (Or.inl ⟨hterm, rfl⟩)), if_pos hd]
          exact hr
        · have hd : line.head? = some '$' := hlen.head
          rw [List.append_assoc, bind_of_ok (readLine_iff.mpr (Or.inl ⟨hterm, rfl⟩)),
            if_neg (not_not.mpr hd)]
          have hread : readPayload line (payload ++ (items.flatten ++ rest)) =
              .ok ((payload.take len, payload.drop len), items.flatten ++ rest) := by
            refine readPayload_eq_ok.mpr ⟨len, ?_, hcap, by simp [hpayload], ?_⟩
            · exact (headerNumber_eq_some rfl (by decide) rfl hd).mpr hlen
            · simp [List.take_append_of_le_length, List.drop_append_of_le_length, hpayload]
          rw [bind_of_ok hread, bind_of_ok hr]
          exact ⟨_, rfl⟩

/-- Exactly what the reader takes for a request, complete or not. -/
theorem readResp_isOk_iff (h : input.head? = some 42) :
    (∃ r, readResp input = .ok r) ↔ IsLoose input := by
  constructor
  · rintro ⟨r, hr⟩
    obtain ⟨line, rest, hline, hr⟩ := bind_eq_ok.mp hr
    have hstar := head_of_readLine h hline
    rw [if_neg (not_not.mpr hstar)] at hr
    obtain ⟨count, rest', hcount, hargs⟩ := bind_eq_ok.mp hr
    obtain ⟨hnum, hrest⟩ := parseHeader_eq_ok.mp hcount
    dsimp only at hnum hrest
    subst hrest
    by_cases hcap : count * bytesSize > isizeMax
    · rw [if_pos hcap] at hargs
      cases hargs
    · rw [if_neg hcap] at hargs
      have hannounces := (headerNumber_eq_some rfl (by decide) rfl hstar).mp hnum
      refine ⟨line, count, hannounces, by omega, ?_⟩
      rcases readLine_iff.mp hline with ⟨hterm, rfl⟩ | ⟨hnl, rfl, -⟩
      · exact Or.inr ⟨hterm, rest', rfl, readArgs_isOk_iff.mp ⟨r, hargs⟩⟩
      · exact Or.inl ⟨hnl, rfl⟩
  · rintro ⟨line, count, hannounces, hcap, hcases⟩
    have hstar := hannounces.head
    have hnum := (headerNumber_eq_some rfl (by decide) rfl hstar).mpr hannounces
    have hread : ∀ {rest}, readLine input = .ok (line, rest) →
        readResp input = readArgs count rest := by
      intro rest hline
      rw [readResp, bind_of_ok hline, if_neg (not_not.mpr hstar),
        bind_of_ok (parseHeader_eq_ok.mpr ⟨hnum, rfl⟩), if_neg (by omega)]
    rcases hcases with ⟨hnl, hinput⟩ | ⟨hterm, bytes, hinput, hitems⟩
    · rw [hread (readLine_iff.mpr (Or.inr ⟨hnl, hinput, rfl⟩))]
      exact ⟨_, readArgs_nil count⟩
    · rw [hread (readLine_iff.mpr (Or.inl ⟨hterm, hinput⟩))]
      exact readArgs_isOk_iff.mpr hitems

/-- Elements as RESP spells them are read as what they are, if they are read. -/
theorem readArgs_bulks {bulks : List Bytes} {r : List Bytes × Bytes}
    (h : List.Forall₂ IsBulk args bulks)
    (hread : readArgs args.length (bulks.flatten ++ rest) = .ok r) : r = (args, rest) := by
  induction h generalizing r with
  | nil => exact (Except.ok.inj hread).symm
  | @cons arg bulk args bulks hbulk _ ih =>
    obtain ⟨ds, hds, rfl⟩ := hbulk
    rw [List.length_cons, readArgs, List.flatten_cons, List.append_assoc, List.append_assoc,
      bind_of_ok (readLine_header (by decide) hds _), if_neg (by simp [header])] at hread
    obtain ⟨content, rest₁, hc, hread⟩ := bind_eq_ok.mp hread
    obtain ⟨tail, rest₂, ht, hread⟩ := bind_eq_ok.mp hread
    cases hread
    obtain ⟨len, hnum, -, -, heq⟩ := readPayload_eq_ok.mp hc
    rw [headerNumber_header rfl hds] at hnum
    split at hnum
    · obtain rfl := Option.some.inj hnum
      simp only [List.append_assoc, List.take_left', List.drop_left', Prod.mk.injEq] at heq
      obtain ⟨rfl, rfl⟩ := heq
      have hrest : ((arg ++ ([13, 10] ++ (bulks.flatten ++ rest))).drop (arg.length + 2)) =
          bulks.flatten ++ rest := by
        simp [← List.drop_drop]
      rw [hrest] at ht
      obtain ⟨rfl, rfl⟩ := Prod.mk.inj (ih ht)
      rfl
    · cases hnum

/-- A complete request is read as what it is, if it is read. -/
theorem readResp_request {consumed : Bytes} {r : List Bytes × Bytes} (h : IsRequest args consumed)
    (hread : readResp (consumed ++ rest) = .ok r) : r = (args, rest) := by
  obtain ⟨ds, bulks, hds, hall, rfl⟩ := h
  rw [List.append_assoc, readResp, bind_of_ok (readLine_header (by decide) hds _),
    if_neg (by simp [header])] at hread
  obtain ⟨count, rest', hcount, hread⟩ := bind_eq_ok.mp hread
  obtain ⟨hnum, rfl⟩ := parseHeader_eq_ok.mp hcount
  rw [headerNumber_header rfl hds] at hnum
  split at hnum
  · obtain rfl := Option.some.inj hnum
    split at hread
    · cases hread
    · exact readArgs_bulks hall hread
  · cases hnum

/-- What the reader returns is a complete request, and what it took off the
stream is that request. -/
def AcceptsOnlyComplete (input : Bytes) : Prop :=
  ∀ args rest, readResp input = .ok (args, rest) →
    ∃ consumed, input = consumed ++ rest ∧ IsRequest args consumed

/-- Exactly the inputs on which the reader accepts nothing but a complete request: those
that begin with one, and those that are not even loosely an array. -/
theorem acceptsOnlyComplete_iff (h : input.head? = some 42) :
    AcceptsOnlyComplete input ↔ BeginsComplete input ∨ ¬ IsLoose input := by
  constructor
  · intro haccept
    by_cases hloose : IsLoose input
    · obtain ⟨⟨args, rest⟩, hread⟩ := (readResp_isOk_iff h).mpr hloose
      obtain ⟨consumed, hinput, hrequest⟩ := haccept args rest hread
      exact Or.inl ⟨args, consumed, rest, hinput, hrequest⟩
    · exact Or.inr hloose
  · rintro (⟨args, consumed, rest, rfl, hrequest⟩ | hloose) args' rest' hread
    · obtain ⟨rfl, rfl⟩ := Prod.mk.inj (readResp_request hrequest hread)
      exact ⟨consumed, rfl, hrequest⟩
    · exact absurd ((readResp_isOk_iff h).mp ⟨_, hread⟩) hloose

theorem acceptsOnlyComplete_iff_ping : AcceptsOnlyComplete (encode "*1\r\n$4\r\nPING\r\n".toList) :=
  (acceptsOnlyComplete_iff (by decide)).mpr
    (Or.inl ⟨[[80, 73, 78, 71]], _, [], (List.append_nil _).symm,
    ['1'], [encode "$4\r\nPING\r\n".toList],
      by decide, .cons ⟨['4'], by decide, by decide⟩ .nil, by decide⟩)

/-- `DEL a b` cut off behind its first key is read as `DEL a`. -/
theorem not_acceptsOnlyComplete_truncated :
    ¬ AcceptsOnlyComplete (encode "*3\r\n$3\r\nDEL\r\n$1\r\na\r\n".toList) := by
  intro h
  obtain ⟨consumed, hinput, ds, bulks, hds, -, rfl⟩ := h [[68, 69, 76], [97]] [] rfl
  have hline := readLine_header (show '*' ≠ '\n' by decide) hds (bulks.flatten ++ [])
  rw [← List.append_assoc, ← hinput] at hline
  have hthree : header '*' ds = "*3\r\n".toList := congrArg Prod.fst (Except.ok.inj hline).symm
  have htail : ds ++ ['\r', '\n'] = ['3'] ++ ['\r', '\n'] := (List.cons.inj hthree).2
  rw [List.append_cancel_right htail] at hds
  cases hds

end Grammar

end TitanKv

