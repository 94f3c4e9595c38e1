import TitanKv.Connection
import TitanKv.Lib.Lines
import TitanKv.Lib.Runs

/-! # A connection in subscriber mode

The loop of `handle_subscribe`: each turn starts a `read_line` and a `recv` and goes
on with whichever ends first, dropping the other. A dropped `read_line` takes the part
of a line that it has read with it. The loop ends at a line that contains the word
UNSUBSCRIBE anywhere, at one that is no text, and when the connection does. -/

namespace TitanKv
open Utf8 Runs

section Loop

/-- `str::contains`. -/
def contains (pattern text : Text) : Bool := text.tails.any fun rest => pattern.isPrefixOf rest

/-- The last message of the loop to its client. -/
def unsubscribeAck (channel : Bytes) : Bytes :=
  lit "*3\r\n$11\r\nunsubscribe\r\n" ++ writeBulk (encode (bytesToStr channel)) ++ lit ":0\r\n"

/-- The payload of a message. -/
def messagePush (channel : Bytes) (msg : Text) : Bytes :=
  lit "*3\r\n$7\r\nmessage\r\n" ++ writeBulk (encode (bytesToStr channel)) ++ writeBulk (encode msg)

/-- What happens to a subscribed connection: the client's bytes arrive, it closes, or
it breaks; `read_line` is polled or fails; `recv` returns a message, with the outcome
of writing it to the client, or that it lags. -/
inductive Select where
  | segment (bytes : Bytes)
  | shutdown
  | failure
  | readLine
  | readError
  | recv (msg : Text) (written : Bool)
  | lagged
  deriving DecidableEq

/-- The loop and its connection. `unread` is still to be read and `taken` is what the
running `read_line` has; `received` and `lines` record all that came from the client
and all that `read_line` returned. -/
structure Listener where
  channel : Bytes
  unread : Bytes
  taken : Bytes
  isClosed : Bool
  hasFailed : Bool
  hasLeft : Bool
  sent : List Bytes
  received : Bytes
  lines : List Bytes
  deriving DecidableEq

namespace Listener

/-- The loop's start, with what the client had sent behind its request. -/
def subscribed (channel leftover : Bytes) : Listener where
  channel := channel
  unread := leftover
  taken := []
  isClosed := false
  hasFailed := false
  hasLeft := false
  sent := [subscribeAck channel]
  received := leftover
  lines := []

def isOpen (l : Listener) : Bool := !l.isClosed && !l.hasFailed

/-- What `read_line` returns now, if it does not wait: it needs a newline or the end
of the stream. -/
def line? (l : Listener) : Option Bytes :=
  if 10 ∈ (untilNewline l.unread).1 ∨
    l.isClosed = true then some (l.taken ++ (untilNewline l.unread).1)
  else none

variable (toUppercase : Char → Text)

/-- The loop's body for a line: nothing at the end of the stream, an error where it is
no UTF-8. -/
def handleLine (l : Listener) (line : Bytes) : Listener :=
  if line = [] then { l with hasLeft := true }
  else match decode? line with
    | none => { l with hasLeft := true }
    | some text =>
      if contains "UNSUBSCRIBE".toList ((trim text).flatMap toUppercase) then
        { l with hasLeft := true, sent := l.sent ++ [unsubscribeAck l.channel] }
      else l

def pollLine (l : Listener) : Listener :=
  match l.line? with
  | none => { l with taken := l.taken ++ l.unread, unread := [] }
  | some line =>
    handleLine toUppercase
      { l with taken := [], unread := (untilNewline l.unread).2, lines := l.lines ++ [line] } line

/-- A write fails only on a connection that is not open. -/
def react (l : Listener) : Select → Option Listener
  | .segment bytes =>
    if l.isOpen then some { l with unread := l.unread ++ bytes, received := l.received ++ bytes }
      else none
  | .shutdown => if l.isOpen then some { l with isClosed := true } else none
  | .failure => some { l with hasFailed := true }
  | .readLine => some (l.pollLine toUppercase)
  | .readError => if l.hasFailed then some { l with hasLeft := true } else none
  | .recv msg true => some { l with taken := [], sent := l.sent ++ [messagePush l.channel msg] }
  | .recv _ false => if l.isOpen then none else some { l with taken := [], hasLeft := true }
  | .lagged => some { l with taken := [] }

def step (l : Listener) (e : Select) : Option Listener :=
  if l.hasLeft then none else l.react toUppercase e

end Listener

end Loop

section Ends
variable (toUppercase : Char → Text)

/-- The first word of a line. -/
def commandWord (text : Text) : Text :=
  (text.dropWhile isWhitespace).takeWhile fun c => !isWhitespace c

/-- The command of the line is UNSUBSCRIBE, in any case. -/
def IsUnsubscribe (line : Bytes) : Prop :=
  (commandWord (fromUtf8Lossy line)).flatMap toUppercase = "UNSUBSCRIBE".toList

/-- The lines at which the loop ends. -/
def EndsMode (line : Bytes) : Prop :=
  line = [] ∨ ∀ text, decode? line = some text →
    contains "UNSUBSCRIBE".toList ((trim text).flatMap toUppercase) = true

namespace Listener

/-- The client has sent an UNSUBSCRIBE, or the connection closed or failed. -/
def MayLeave (l : Listener) : Prop :=
  (∃ line ∈ Lines.complete 10 l.received, IsUnsubscribe toUppercase line) ∨
    l.isClosed = true ∨ l.hasFailed = true

/-- The loop has left, or has nothing more to read. -/
def Settled (l : Listener) : Prop :=
  l.hasLeft = true ∨ l.unread = [] ∧ l.isClosed = false ∧ l.hasFailed = false

/-- Subscriber mode ends when it should and only then, and no byte of the client is
lost: each is in a line, in the line being read, or still to be read. -/
structure EndsExactly (l : Listener) : Prop where
  only : l.hasLeft = true → l.MayLeave toUppercase
  when : l.Settled → l.MayLeave toUppercase → l.hasLeft = true
  kept : l.lines.flatten ++ (l.taken ++ l.unread) = l.received

/-- No message arrives within a line, and a line that ends the mode comes when the
mode may end. -/
def Undisturbed (l : Listener) : Select → Prop
  | .recv _ _ | .lagged => l.taken = []
  | .readLine => ∀ line, l.line? = some line → EndsMode toUppercase line → l.MayLeave toUppercase
  | _ => True

end Listener

end Ends

section CommandWord
variable {toUppercase : Char → Text} {text : Text} {line : Bytes}

theorem contains_iff {pattern : Text} : contains pattern text = true ↔ pattern <:+: text := by
  simp only [contains, List.any_eq_true, List.mem_tails, List.isPrefixOf_iff_prefix,
    List.infix_iff_prefix_suffix, and_comm]

/-- Trimming takes nothing off the first word. -/
theorem commandWord_prefix_trim (text : Text) : commandWord text <+: trim text := by
  unfold commandWord trim
  generalize text.dropWhile isWhitespace = s
  have hsplit := List.takeWhile_append_dropWhile (p := fun c => !isWhitespace c) (l := s)
  generalize hword : s.takeWhile (fun c => !isWhitespace c) = word at hsplit ⊢
  generalize s.dropWhile (fun c => !isWhitespace c) = rest at hsplit
  have hplain : ∀ c ∈ word.reverse, isWhitespace c = false := by
    intro c hc
    rw [List.mem_reverse, ← hword] at hc
    simpa using List.mem_takeWhile_imp hc
  rw [← hsplit, List.reverse_append, List.dropWhile_append]
  split
  · have hkeep : word.reverse.dropWhile isWhitespace = word.reverse := by
      rw [List.dropWhile_eq_self_iff]
      intro hpos
      rw [hplain _ (List.getElem_mem hpos)]
      decide
    rw [hkeep, List.reverse_reverse]
  · rw [List.reverse_append, List.reverse_reverse]
    exact List.prefix_append _ _

/-- The loop ends at every UNSUBSCRIBE, and where the line is no text. -/
theorem endsMode_of_isUnsubscribe (h : IsUnsubscribe toUppercase line) :
    EndsMode toUppercase line := by
  refine Or.inr fun text htext => ?_
  rw [IsUnsubscribe, ← encode_of_decode? htext, fromUtf8Lossy_encode] at h
  obtain ⟨tail, htail⟩ := commandWord_prefix_trim text
  rw [contains_iff, ← h, ← htail, List.flatMap_append]
  exact (List.prefix_append _ _).isInfix

end CommandWord

namespace Listener
variable {toUppercase : Char → Text} {l l' : Listener} {e : Select} {line : Bytes}

section Poll

theorem untilNewline_terminated {bytes : Bytes} (h : 10 ∈ (untilNewline bytes).1) :
    ∃ body, 10 ∉ body ∧ (untilNewline bytes).1 = body ++ [10] := by
  induction bytes with
  | nil => cases h
  | cons b bytes ih =>
    rw [untilNewline] at h ⊢
    split at h
    · rename_i hb
      exact ⟨[], by simp, by simp [hb]⟩
    · rename_i hb
      rcases List.mem_cons.mp h with rfl | h
      · exact absurd rfl hb
      · obtain ⟨body, hbody, heq⟩ := ih h
        exact ⟨b :: body, by simp [Ne.symm hb, hbody], by simp [hb, heq]⟩

/-- Handling a line changes nothing but what was sent, and whether the loop has left. -/
theorem handleLine_eq (toUppercase : Char → Text) (line : Bytes) (hleft : l.hasLeft = false) :
    ∃ acks left, l.handleLine toUppercase line =
      { l with sent := l.sent ++ acks, hasLeft := left } ∧
      (left = true ↔ EndsMode toUppercase line) ∧
      (acks = [] ∨ acks = [unsubscribeAck l.channel]) := by
  unfold handleLine EndsMode
  split
  · rename_i hnil
    exact ⟨[], true, by simp, iff_of_true rfl (Or.inl hnil), Or.inl rfl⟩
  · rename_i hne
    cases htext : decode? line with
    | none =>
      exact ⟨[], true, by simp, iff_of_true rfl (Or.inr fun text h => by cases h), Or.inl rfl⟩
    | some text =>
      dsimp only
      split
      · rename_i hc
        refine ⟨_, true, rfl, iff_of_true rfl (Or.inr fun text' h => ?_), Or.inr rfl⟩
        rwa [← Option.some.inj h]
      · rename_i hc
        refine ⟨[], false, by simp [← hleft], iff_of_false (by decide) ?_, Or.inl rfl⟩
        rintro (h | h)
        · exact hne h
        · exact hc (h text rfl)

end Poll

section Steps

/-- What a poll of `read_line` does: it takes all there is and waits, or returns a line. -/
theorem pollLine_cases (toUppercase : Char → Text) (hleft : l.hasLeft = false) :
    (l.line? = none ∧ l.isClosed = false ∧ 10 ∉ l.unread ∧
      l.pollLine toUppercase = { l with taken := l.taken ++ l.unread, unread := [] }) ∨
    ∃ line rest acks left, l.line? = some line ∧ line ++ rest = l.taken ++ l.unread ∧
      (l.isClosed = false → 10 ∉ l.taken → Lines.Terminated 10 line) ∧
      l.pollLine toUppercase = { l with taken := [], unread := rest, lines := l.lines ++ [line],
                                        sent := l.sent ++ acks, hasLeft := left } ∧
      (left = true ↔ EndsMode toUppercase line) ∧
        (acks = [] ∨ acks = [unsubscribeAck l.channel]) := by
  unfold pollLine
  by_cases hready : 10 ∈ (untilNewline l.unread).1 ∨ l.isClosed = true
  · have hline : l.line? = some (l.taken ++ (untilNewline l.unread).1) := if_pos hready
    obtain ⟨acks, left, heq, hends, hacks⟩ := handleLine_eq toUppercase
      (l.taken ++ (untilNewline l.unread).1)
      (l := { l with taken := [], unread := (untilNewline l.unread).2,
                     lines := l.lines ++ [l.taken ++ (untilNewline l.unread).1] }) hleft
    refine Or.inr ⟨_, _, acks, left, hline, ?_, fun hopen htaken => ?_,
      by rw [hline]; exact heq, hends, hacks⟩
    · rw [List.append_assoc, untilNewline_join]
    · obtain ⟨body, hbody, hpiece⟩ :=
        untilNewline_terminated (hready.resolve_right (by simp [hopen]))
      exact ⟨l.taken ++ body, by simp [htaken, hbody], by rw [hpiece, List.append_assoc]⟩
  · have hline : l.line? = none := if_neg hready
    obtain ⟨hnl, hopen⟩ := not_or.mp hready
    have hall := untilNewline_unterminated hnl
    refine Or.inl ⟨hline, by simpa using hopen, ?_, by rw [hline]⟩
    rw [hall] at hnl
    exact hnl

theorem step_eq_some : l.step toUppercase e = some l' ↔
    l.hasLeft = false ∧ l.react toUppercase e = some l' := by
  rw [step, Option.ite_none_left_eq_some, Bool.not_eq_true]

theorem react_segment {bytes : Bytes} (h : l.react toUppercase (.segment bytes) = some l') :
    l.isOpen = true ∧ l' = { l with
      unread := l.unread ++ bytes, received := l.received ++ bytes } :=
  (Option.ite_none_right_eq_some.mp h).imp_right fun h => (Option.some.inj h).symm

theorem react_shutdown (h : l.react toUppercase .shutdown = some l') :
    l.isOpen = true ∧ l' = { l with isClosed := true } :=
  (Option.ite_none_right_eq_some.mp h).imp_right fun h => (Option.some.inj h).symm

theorem react_readError (h : l.react toUppercase .readError = some l') :
    l.hasFailed = true ∧ l' = { l with hasLeft := true } :=
  (Option.ite_none_right_eq_some.mp h).imp_right fun h => (Option.some.inj h).symm

theorem react_unwritten {msg : Text} (h : l.react toUppercase (.recv msg false) = some l') :
    ¬ l.isOpen = true ∧ l' = { l with taken := [], hasLeft := true } :=
  (Option.ite_none_left_eq_some.mp h).imp_right fun h => (Option.some.inj h).symm

/-- What every step keeps. -/
structure Base (toUppercase : Char → Text) (l : Listener) : Prop where
  taken : 10 ∉ l.taken
  lines : l.isClosed = false → ∀ line ∈ l.lines, Lines.Terminated 10 line
  stayed : l.hasLeft = false → ∀ line ∈ l.lines, ¬ EndsMode toUppercase line

theorem base_subscribed (channel leftover : Bytes) :
    Base toUppercase (.subscribed channel leftover) :=
  ⟨by simp [subscribed], by simp [subscribed], by simp [subscribed]⟩

theorem base_pollLine (hb : Base toUppercase l) (hleft : l.hasLeft = false) :
    Base toUppercase (l.pollLine toUppercase) := by
  rcases pollLine_cases toUppercase hleft with
    ⟨-, -, hnl, heq⟩ | ⟨line, rest, acks, left, -, -, hterm, heq, hends, -⟩
  · rw [heq]
    exact ⟨by simp [hb.taken, hnl], hb.lines, hb.stayed⟩
  · rw [heq]
    refine ⟨List.not_mem_nil, fun hclosed => ?_, fun hstay => ?_⟩
    · exact List.forall_mem_append.mpr
        ⟨hb.lines hclosed, List.forall_mem_singleton.mpr (hterm hclosed hb.taken)⟩
    · have hnot : ¬ EndsMode toUppercase line :=
        mt hends.mpr (by simp [show left = false from hstay])
      exact List.forall_mem_append.mpr ⟨hb.stayed hleft, List.forall_mem_singleton.mpr hnot⟩

theorem base_step (hb : Base toUppercase l) (h : l.step toUppercase e = some l') :
    Base toUppercase l' := by
  obtain ⟨hleft, h⟩ := step_eq_some.mp h
  cases e with
  | segment bytes =>
    obtain ⟨-, rfl⟩ := react_segment h
    exact ⟨hb.taken, hb.lines, hb.stayed⟩
  | shutdown =>
    obtain ⟨-, rfl⟩ := react_shutdown h
    exact ⟨hb.taken, fun hc => (by cases hc), hb.stayed⟩
  | failure =>
    cases h
    exact ⟨hb.taken, hb.lines, hb.stayed⟩
  | readLine =>
    cases h
    exact base_pollLine hb hleft
  | readError =>
    obtain ⟨-, rfl⟩ := react_readError h
    exact ⟨hb.taken, hb.lines, fun hc => (by cases hc)⟩
  | recv msg written =>
    cases written with
    | true =>
      cases h
      exact ⟨List.not_mem_nil, hb.lines, hb.stayed⟩
    | false =>
      obtain ⟨-, rfl⟩ := react_unwritten h
      exact ⟨List.not_mem_nil, hb.lines, fun hc => (by cases hc)⟩
  | lagged =>
    cases h
    exact ⟨List.not_mem_nil, hb.lines, hb.stayed⟩

/-- The push that an event sends. -/
def pushes (channel : Bytes) : Select → List Bytes
  | .recv msg true => [messagePush channel msg]
  | _ => []

/-- What a step sends: its push, or the acknowledgement of the end. -/
theorem sent_step (h : l.step toUppercase e = some l') : l'.channel = l.channel ∧
    ∃ acks, l'.sent = l.sent ++ (pushes l.channel e ++ acks) ∧
      (acks = [] ∨ acks = [unsubscribeAck l.channel]) := by
  obtain ⟨hleft, h⟩ := step_eq_some.mp h
  have hquiet : l.sent = l.sent ++ ([] ++ []) := by simp
  cases e with
  | segment bytes =>
    obtain ⟨-, rfl⟩ := react_segment h
    exact ⟨rfl, [], hquiet, Or.inl rfl⟩
  | shutdown =>
    obtain ⟨-, rfl⟩ := react_shutdown h
    exact ⟨rfl, [], hquiet, Or.inl rfl⟩
  | failure =>
    cases h
    exact ⟨rfl, [], hquiet, Or.inl rfl⟩
  | readLine =>
    cases h
    rcases pollLine_cases toUppercase hleft with ⟨-, -, -, heq⟩ | ⟨line, rest, acks, left, -, -, -,
      heq, -, hacks⟩
    · rw [heq]
      exact ⟨rfl, [], hquiet, Or.inl rfl⟩
    · rw [heq]
      exact ⟨rfl, acks, rfl, hacks⟩
  | readError =>
    obtain ⟨-, rfl⟩ := react_readError h
    exact ⟨rfl, [], hquiet, Or.inl rfl⟩
  | recv msg written =>
    cases written with
    | true =>
      cases h
      exact ⟨rfl, [], rfl, Or.inl rfl⟩
    | false =>
      obtain ⟨-, rfl⟩ := react_unwritten h
      exact ⟨rfl, [], hquiet, Or.inl rfl⟩
  | lagged =>
    cases h
    exact ⟨rfl, [], hquiet, Or.inl rfl⟩

end Steps

section Exactness

/-- A settled loop that has kept every byte has seen every complete line. -/
theorem hasLeft_of_settled (hb : Base toUppercase l)
    (hkept : l.lines.flatten ++ (l.taken ++ l.unread) = l.received)
    (hsettled : l.Settled) (hmay : l.MayLeave toUppercase) : l.hasLeft = true := by
  rcases hsettled with hleft | ⟨hnil, hopen, hsound⟩
  · exact hleft
  · obtain ⟨line, hline, hunsub⟩ := hmay.resolve_right (by simp [hopen, hsound])
    rw [← hkept, hnil, List.append_nil, Lines.complete_lines (hb.lines hopen),
      Lines.complete_of_notMem hb.taken, List.append_nil] at hline
    cases hleft : l.hasLeft with
    | true => rfl
    | false => exact absurd (endsMode_of_isUnsubscribe hunsub) (hb.stayed hleft line hline)

theorem endsExactly_iff_of_base (hb : Base toUppercase l) : l.EndsExactly toUppercase ↔
    (l.hasLeft = true → l.MayLeave toUppercase) ∧ l.lines.flatten ++ (l.taken ++ l.unread) =
      l.received :=
  ⟨fun h => ⟨h.only, h.kept⟩, fun h => ⟨h.1, hasLeft_of_settled hb h.2, h.2⟩⟩

theorem endsExactly_pollLine (hb : Base toUppercase l) (h : l.EndsExactly toUppercase)
    (hleft : l.hasLeft = false) :
    (l.pollLine toUppercase).EndsExactly toUppercase ↔ l.Undisturbed toUppercase .readLine := by
  rw [endsExactly_iff_of_base (base_pollLine hb hleft)]
  have hkept := h.kept
  rcases pollLine_cases toUppercase hleft with
    ⟨hnone, -, -, heq⟩ | ⟨line, rest, acks, left, hline, hjoin, -, heq, hends, -⟩
  · rw [heq]
    refine iff_of_true ⟨fun hc => absurd hc (by simp [hleft]),
      by simpa using hkept⟩ fun line hline => ?_
    rw [hnone] at hline
    cases hline
  · rw [heq]
    constructor
    · rintro ⟨honly, -⟩ line' hline' hends'
      obtain rfl := Option.some.inj (hline.symm.trans hline')
      exact honly (hends.mpr hends')
    · intro honly
      refine ⟨fun hc => honly line hline (hends.mp hc), ?_⟩
      rw [← hkept, ← hjoin]
      simp

/-- The steps that keep the mode exact. -/
theorem endsExactly_step (hb : Base toUppercase l) (h : l.EndsExactly toUppercase)
    (hs : l.step toUppercase e = some l') :
    l'.EndsExactly toUppercase ↔ l.Undisturbed toUppercase e := by
  have hiff := endsExactly_iff_of_base (base_step hb hs)
  have hkept := h.kept
  have hlost : l.lines.flatten ++ ([] ++ l.unread) = l.received ↔ l.taken = [] := by
    rw [← hkept, List.append_cancel_left_eq, List.append_left_inj]
    exact eq_comm
  obtain ⟨hleft, hs⟩ := step_eq_some.mp hs
  have hstay {P : Prop} (hc : l.hasLeft = true) : P := absurd hc (by simp [hleft])
  rw [hiff]
  cases e with
  | segment bytes =>
    obtain ⟨-, rfl⟩ := react_segment hs
    refine iff_of_true ⟨hstay, ?_⟩ trivial
    rw [← hkept]
    simp
  | shutdown =>
    obtain ⟨-, rfl⟩ := react_shutdown hs
    exact iff_of_true ⟨hstay, hkept⟩ trivial
  | failure =>
    cases hs
    exact iff_of_true ⟨hstay, hkept⟩ trivial
  | readLine =>
    cases hs
    rw [← hiff]
    exact endsExactly_pollLine hb h hleft
  | readError =>
    obtain ⟨hfailed, rfl⟩ := react_readError hs
    exact iff_of_true ⟨fun _ => Or.inr (Or.inr hfailed), hkept⟩ trivial
  | recv msg written =>
    cases written with
    | true =>
      cases hs
      exact ⟨fun hc => hlost.mp hc.2, fun hc => ⟨hstay, hlost.mpr hc⟩⟩
    | false =>
      obtain ⟨hopen, rfl⟩ := react_unwritten hs
      refine ⟨fun hc => hlost.mp hc.2, fun hc => ⟨fun _ => Or.inr ?_, hlost.mpr hc⟩⟩
      simpa [isOpen, or_iff_not_imp_left] using hopen
  | lagged =>
    cases hs
    exact ⟨fun hc => hlost.mp hc.2, fun hc => ⟨hstay, hlost.mpr hc⟩⟩

theorem endsExactly_subscribed (channel leftover : Bytes) :
    (subscribed channel leftover).EndsExactly toUppercase :=
  (endsExactly_iff_of_base (base_subscribed channel leftover)).mpr ⟨fun hc => (by cases hc), rfl⟩

/-- However much is still to be read, the loop gets through it or leaves. -/
theorem exists_settled (toUppercase : Char → Text) (l : Listener) :
    ∃ polls t, (∀ e ∈ polls, e = .readLine ∨ e = .readError) ∧
      run (step toUppercase) l polls = some t ∧ t.Settled := by
  induction hn : l.taken.length + l.unread.length using Nat.strongRecOn generalizing l with
  | ind n ih =>
    have hone (t : Listener) (hs : l.step toUppercase .readLine = some t) (ht : t.Settled) :
        ∃ polls t, (∀ e ∈ polls, e = .readLine ∨ e = .readError) ∧
          run (step toUppercase) l polls = some t ∧ t.Settled :=
      ⟨[.readLine], t, by simp, by rw [run_cons, hs]; rfl, ht⟩
    cases hleft : l.hasLeft with
    | true => exact ⟨[], l, by simp, rfl, Or.inl hleft⟩
    | false =>
      cases hfailed : l.hasFailed with
      | true =>
        have hs : l.step toUppercase .readError = some { l with hasLeft := true } :=
          step_eq_some.mpr ⟨hleft, if_pos hfailed⟩
        exact ⟨[.readError], _, by simp, by rw [run_cons, hs]; rfl, Or.inl rfl⟩
      | false =>
        have hs : l.step toUppercase .readLine = some (l.pollLine toUppercase) :=
          step_eq_some.mpr ⟨hleft, rfl⟩
        rcases pollLine_cases toUppercase hleft with
          ⟨-, hopen, -, heq⟩ | ⟨line, rest, acks, left, -, hjoin, -, heq, hends, -⟩
        · exact hone _ hs (by rw [heq]; exact Or.inr ⟨rfl, hopen, hfailed⟩)
        · cases left with
          | true => exact hone _ hs (Or.inl (by rw [heq]))
          | false =>
            have hne : line ≠ [] := fun hnil => absurd (hends.mpr (Or.inl hnil)) (by decide)
            -- The line that was read is gone from what is left to be read.
            have hlt : rest.length < n := by
              have hlen := congrArg List.length hjoin
              have hpos := List.length_pos_of_ne_nil hne
              simp only [List.length_append] at hlen
              omega
            obtain ⟨polls, t, hpolls, hrun, ht⟩ :=
              ih rest.length hlt (l.pollLine toUppercase) (by rw [heq]; simp)
            exact ⟨.readLine :: polls, t, List.forall_mem_cons.mpr ⟨Or.inl rfl, hpolls⟩,
              by rw [run_cons, hs]; exact hrun, ht⟩

/-- Subscriber mode ends exactly as it should over the runs in which no message
arrives within a line of the client and every line that ends it may, whatever the
segments and the order of all the rest. -/
theorem endsExactly_iff (toUppercase : Char → Text) (channel leftover : Bytes) {es : List Select}
    (hrun : run (step toUppercase) (subscribed channel leftover) es = some l) :
    ((∀ fs, fs <+: es → ∀ t, run (step toUppercase) (subscribed channel leftover) fs = some t →
        t.EndsExactly toUppercase) ↔
      AllOk (step toUppercase) (Undisturbed toUppercase) (subscribed channel leftover) es) ∧
    ∃ polls t, (∀ e ∈ polls, e = .readLine ∨ e = .readError) ∧
      run (step toUppercase) l polls = some t ∧ t.Settled :=
  ⟨allOk_iff (fun _ _ _ hb hs => base_step hb hs) (fun _ _ _ hb h hs => endsExactly_step hb h hs)
    (base_subscribed channel leftover) (endsExactly_subscribed channel leftover) hrun,
    exists_settled toUppercase l⟩

/-- ASCII's part of `to_uppercase`. -/
def upperAscii (c : Char) : Text := [c.toUpper]

theorem endsExactly_iff_unsubscribe :
    ((∀ fs, fs <+: [.segment (lit "unsub"), .segment (lit "scribe\r\n"), .readLine] →
        ∀ t, run (step upperAscii) (subscribed (lit "news") []) fs = some t →
          t.EndsExactly upperAscii) ↔
      AllOk (step upperAscii) (Undisturbed upperAscii) (subscribed (lit "news") [])
        [.segment (lit "unsub"), .segment (lit "scribe\r\n"), .readLine]) ∧
    ∃ polls t, (∀ e ∈ polls, e = .readLine ∨ e = .readError) ∧
      run (step upperAscii)
        { subscribed (lit "news") [] with
          hasLeft := true, sent := [subscribeAck (lit "news"), unsubscribeAck (lit "news")],
          received := lit "unsubscribe\r\n", lines := [lit "unsubscribe\r\n"] } polls = some t ∧
      t.Settled :=
  endsExactly_iff upperAscii (lit "news") [] (by decide +kernel)

/-- A message within the line `UNSUBSCRIBE` keeps the client in subscriber mode, and
a line that is a PING ends it. -/
theorem not_endsExactly_either_way :
    (∃ t, run (step upperAscii) (subscribed (lit "news") [])
        [.segment (lit "UNSUB"), .readLine, .recv "hello".toList true, .segment (lit "SCRIBE\n"),
          .readLine] =
          some t ∧ ¬ t.EndsExactly upperAscii) ∧
    ∃ t, run (step upperAscii) (subscribed (lit "news") [])
      [.segment (lit "PING UNSUBSCRIBERS\n"), .readLine] = some t ∧ ¬ t.EndsExactly upperAscii := by
  constructor
  · refine ⟨{ subscribed (lit "news") [] with
      sent := [subscribeAck (lit "news"), messagePush (lit "news") "hello".toList],
      received := lit "UNSUBSCRIBE\n", lines := [lit "SCRIBE\n"] }, by decide +kernel, fun h => ?_⟩
    have hmay : IsUnsubscribe upperAscii (lit "UNSUBSCRIBE\n") := by
      unfold IsUnsubscribe
      decide +kernel
    have hleft := h.when (Or.inr ⟨rfl, rfl, rfl⟩) (Or.inl ⟨lit "UNSUBSCRIBE\n", by decide, hmay⟩)
    cases hleft
  · refine ⟨{ subscribed (lit "news") [] with
      hasLeft := true, sent := [subscribeAck (lit "news"), unsubscribeAck (lit "news")],
      received := lit "PING UNSUBSCRIBERS\n", lines := [lit "PING UNSUBSCRIBERS\n"] },
      by decide +kernel, fun h => ?_⟩
    have hlines : Lines.complete 10 (lit "PING UNSUBSCRIBERS\n") =
        [lit "PING UNSUBSCRIBERS\n"] := by decide
    obtain ⟨line, hline, hunsub⟩ := (h.only rfl).resolve_right (by simp [subscribed])
    obtain rfl : line = lit "PING UNSUBSCRIBERS\n" := List.mem_singleton.mp (hlines ▸ hline)
    unfold IsUnsubscribe at hunsub
    revert hunsub
    decide +kernel

end Exactness

end Listener

end TitanKv
