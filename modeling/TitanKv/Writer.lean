import TitanKv.Background

/-! # The log writer and failed writes

The loop of the writer with the outcome of each `write_all`: it writes the whole
batch, or fails after some of it. The loop ignores the outcome and clears its
buffer. It loses nothing exactly if every write of the run wrote its whole
batch. -/

namespace TitanKv
open Utf8 Files

/-- How a `write_all` ends. -/
inductive WriteOutcome where
  | ok
  | failed (written : Nat)
  deriving DecidableEq

/-- What a write puts into the file. -/
def WriteOutcome.written (batch : Bytes) : WriteOutcome → Bytes
  | .ok => batch
  | .failed n => batch.take n

structure Writer where
  buffer : Bytes
  file : Bytes
  deriving DecidableEq

/-- An arm of the writer's `select!`, with the outcome of its write if it makes one. -/
inductive WriterEvent where
  | receive (log : Bytes) (outcome : WriteOutcome)
  | tick (outcome : WriteOutcome)

namespace Writer

/-- The file is opened for appending. -/
def opened (file : Bytes) : Writer := ⟨[], file⟩

/-- `let _ = file.write_all(buffer.as_bytes()).await; …; buffer.clear()`. -/
def flush (outcome : WriteOutcome) (w : Writer) : Writer := ⟨[], w.file ++ outcome.written w.buffer⟩

def step (w : Writer) : WriterEvent → Writer
  | .receive log outcome =>
    let w := { w with buffer := w.buffer ++ log }
    if threshold ≤ w.buffer.length then w.flush outcome else w
  | .tick outcome => if w.buffer = [] then w else w.flush outcome

def run : Writer → List WriterEvent → Writer := List.foldl step

end Writer

/-- The lines taken from the channel. -/
def taken : List WriterEvent → List Bytes
  | [] => []
  | .receive log _ :: events => log :: taken events
  | .tick _ :: events => taken events

section Lines

/-- The lines lie in the text in this order, each in full, with anything between. -/
inductive InOrder : List Bytes → Bytes → Prop
  | nil (text : Bytes) : InOrder [] text
  | line {lines : List Bytes} {rest : Bytes} (before line : Bytes) (h : InOrder lines rest) :
      InOrder (line :: lines) (before ++ (line ++ rest))

theorem InOrder.flatten (lines : List Bytes) : InOrder lines lines.flatten := by
  induction lines with
  | nil => exact .nil _
  | cons line lines ih => exact .line [] line ih

theorem InOrder.length_le {lines : List Bytes} {text : Bytes} (h : InOrder lines text) :
    lines.flatten.length ≤ text.length := by
  induction h with
  | nil text => exact Nat.zero_le _
  | line before line _ ih =>
    simp only [List.flatten_cons, List.length_append]
    omega

end Lines

/-- Every line taken is in what the file has got since it was opened, in full, or
in the buffer; first the lines of the file, then those of the buffer, in order. -/
def NothingLost (old : Bytes) (lines : List Bytes) (w : Writer) : Prop :=
  ∃ inFile inBuffer new, lines = inFile ++ inBuffer ∧ w.file = old ++ new ∧ InOrder inFile new ∧
    w.buffer = inBuffer.flatten

/-- The write of the event, if it makes one, writes its whole batch. -/
def WholeWrite (w : Writer) : WriterEvent → Prop
  | .receive log outcome => threshold ≤ (w.buffer ++ log).length →
      outcome.written (w.buffer ++ log) = w.buffer ++ log
  | .tick outcome => outcome.written w.buffer = w.buffer

def AllWhole : Writer → List WriterEvent → Prop
  | _, [] => True
  | w, event :: events => WholeWrite w event ∧ AllWhole (w.step event) events

namespace Writer
variable {w : Writer} {old : Bytes} {lines : List Bytes} {event : WriterEvent}
  {events : List WriterEvent}

/-- The bytes in the file and the buffer. -/
def size (w : Writer) : Nat := w.file.length + w.buffer.length

theorem written_length_le (outcome : WriteOutcome) (batch : Bytes) :
    (outcome.written batch).length ≤ batch.length := by
  cases outcome with
  | ok => exact Nat.le_refl _
  | failed n =>
    simp only [WriteOutcome.written, List.length_take]
    exact Nat.min_le_right _ _

/-- A write that is not of the whole batch writes less. -/
theorem written_length_lt {outcome : WriteOutcome} {batch : Bytes}
    (h : outcome.written batch ≠ batch) :
    (outcome.written batch).length < batch.length := by
  cases outcome with
  | ok => exact absurd rfl h
  | failed n =>
    have hn : n < batch.length := by
      by_contra hle
      exact h (List.take_of_length_le (by omega))
    simp only [WriteOutcome.written, List.length_take]
    omega

theorem taken_cons_length (event : WriterEvent) (events : List WriterEvent) :
    (taken (event :: events)).flatten.length =
      (taken [event]).flatten.length + (taken events).flatten.length := by
  cases event <;> simp [taken]

/-- A step adds at most the bytes it takes, and less if its write is not whole. -/
theorem size_step (w : Writer) (event : WriterEvent) :
    (w.step event).size ≤ w.size + (taken [event]).flatten.length ∧
      (¬ WholeWrite w event → (w.step event).size < w.size + (taken [event]).flatten.length) := by
  cases event with
  | receive log outcome =>
    have hle := written_length_le outcome (w.buffer ++ log)
    have hsum : (w.buffer ++ log).length = w.buffer.length + log.length := List.length_append
    have htaken : (taken [.receive log outcome]).flatten.length = log.length := by simp [taken]
    rw [htaken]
    unfold step size
    dsimp only
    split
    · rename_i hfull
      simp only [flush, List.length_append, List.length_nil] at hle ⊢
      refine ⟨by omega, fun hnot => ?_⟩
      have hlt := written_length_lt fun heq => hnot fun _ => heq
      omega
    · rename_i hfull
      simp only [List.length_append]
      refine ⟨by omega, fun hnot => ?_⟩
      exact absurd (fun h => absurd h hfull) hnot
  | tick outcome =>
    have hle := written_length_le outcome w.buffer
    have htaken : (taken [.tick outcome]).flatten.length = 0 := rfl
    rw [htaken]
    unfold step size
    dsimp only
    split
    · rename_i hempty
      refine ⟨Nat.le_refl _, fun hnot => ?_⟩
      rw [WholeWrite, hempty] at hnot
      exact absurd (List.eq_nil_of_length_eq_zero (Nat.le_zero.mp (written_length_le outcome [])))
        hnot
    · simp only [flush, List.length_append, List.length_nil]
      refine ⟨by omega, fun hnot => ?_⟩
      have hlt := written_length_lt hnot
      omega

theorem size_run (w : Writer) (events : List WriterEvent) :
    (w.run events).size ≤ w.size + (taken events).flatten.length ∧
      (¬ AllWhole w events → (w.run events).size < w.size + (taken events).flatten.length) := by
  induction events generalizing w with
  | nil => exact ⟨Nat.le_refl _, fun hnot => absurd trivial hnot⟩
  | cons event events ih =>
    obtain ⟨hle, hlt⟩ := size_step w event
    obtain ⟨ihle, ihlt⟩ := ih (w.step event)
    rw [taken_cons_length]
    change ((w.step event).run events).size ≤ _ ∧ (_ → ((w.step event).run events).size < _)
    refine ⟨by omega, fun hnot => ?_⟩
    by_cases hwhole : WholeWrite w event
    · have := ihlt fun hrest => hnot ⟨hwhole, hrest⟩
      omega
    · have := hlt hwhole
      omega

/-- What whole writes keep: the lines of the file, then those of the buffer. -/
def Holds (old : Bytes) (lines : List Bytes) (w : Writer) : Prop :=
  ∃ inFile inBuffer, lines = inFile ++ inBuffer ∧ w.file = old ++ inFile.flatten ∧
    w.buffer = inBuffer.flatten

theorem Holds.flush {outcome : WriteOutcome} (h : Holds old lines w)
    (hw : outcome.written w.buffer = w.buffer) :
    Holds old lines (w.flush outcome) := by
  obtain ⟨inFile, inBuffer, rfl, hfile, hbuffer⟩ := h
  refine ⟨inFile ++ inBuffer, [], by simp, ?_, rfl⟩
  rw [Writer.flush, hw, hfile, hbuffer, List.flatten_append, List.append_assoc]

theorem Holds.step (h : Holds old lines w) (hw : WholeWrite w event) :
    Holds old (lines ++ taken [event]) (w.step event) := by
  cases event with
  | receive log outcome =>
    have htaken : Holds old (lines ++ [log]) { w with buffer := w.buffer ++ log } := by
      obtain ⟨inFile, inBuffer, rfl, hfile, hbuffer⟩ := h
      exact ⟨inFile, inBuffer ++ [log], by simp, hfile, by simp [hbuffer]⟩
    show Holds old (lines ++ [log]) _
    unfold Writer.step
    dsimp only
    split
    · rename_i hfull
      exact htaken.flush (hw hfull)
    · exact htaken
  | tick outcome =>
    show Holds old (lines ++ []) _
    rw [List.append_nil]
    unfold Writer.step
    dsimp only
    split
    · exact h
    · exact h.flush hw

theorem taken_cons (event : WriterEvent) (events : List WriterEvent) :
    taken (event :: events) = taken [event] ++ taken events := by
  cases event <;> rfl

theorem Holds.run (h : Holds old lines w) (hw : AllWhole w events) :
    Holds old (lines ++ taken events) (w.run events) := by
  induction events generalizing w lines with
  | nil =>
    rw [taken, List.append_nil]
    exact h
  | cons event events ih =>
    rw [taken_cons, ← List.append_assoc]
    exact ih (h.step hw.1) hw.2

theorem size_of_nothingLost (h : NothingLost old lines w) :
    old.length + lines.flatten.length ≤ w.size := by
  obtain ⟨inFile, inBuffer, new, rfl, hfile, hinOrder, hbuffer⟩ := h
  have hle := hinOrder.length_le
  rw [size, hfile, hbuffer, List.flatten_append, List.length_append, List.length_append]
  omega

/-- The writer loses no line exactly if each write of the run is whole. -/
theorem nothingLost_iff (old : Bytes) (events : List WriterEvent) :
    NothingLost old (taken events) ((opened old).run events) ↔ AllWhole (opened old) events := by
  constructor
  · intro h
    by_contra hnot
    have hlt := (size_run (opened old) events).2 hnot
    have hle := size_of_nothingLost h
    have hopened : (opened old).size = old.length := rfl
    omega
  · intro h
    have hstart : Holds old [] (opened old) := ⟨[], [], rfl, by simp [opened], rfl⟩
    obtain ⟨inFile, inBuffer, hlines, hfile, hbuffer⟩ := hstart.run h
    exact ⟨inFile, inBuffer, inFile.flatten, hlines, hfile, .flatten inFile, hbuffer⟩

/-- A line is taken, and the timer's write fails at once. -/
theorem loses_line : ¬ ∀ (old : Bytes) (events : List WriterEvent),
    NothingLost old (taken events) ((opened old).run events) := by
  intro h
  have hsize := size_of_nothingLost (h [] [.receive (lit "SET k v\n") .ok, .tick (.failed 0)])
  exact absurd hsize (by decide)

end Writer

section Background
variable {s s' : System}

/-- The writer of the running system: its buffer, and the file behind its handle. -/
def System.writer (s : System) : Writer :=
  ⟨encode (linesLog s.buffer), encode (s.fs.content s.handle).text⟩

theorem writer_flush (s : System) : s.flush.writer = s.writer.flush .ok := by
  simp [System.writer, System.flush, Writer.flush, WriteOutcome.written, FileSystem.modify,
    File.append, File.text, linesLog]

theorem writer_collect (line : Line) (channel : List Line) (s : System) :
    (s.collect line channel).writer =
    { s.writer with buffer := s.writer.buffer ++ encode (logLine line.command) } := by
  simp [System.writer, System.collect, linesLog]

/-- The writer's two steps in the system are those of the loop whose writes succeed. -/
theorem writer_receive (h : stepReceive s = some s') :
    ∃ line ∈ s.channel, s'.writer =
      s.writer.step (.receive (encode (logLine line.command)) .ok) := by
  unfold stepReceive at h
  split at h
  · cases h
  · rename_i line channel hchannel
    refine ⟨line, by simp [hchannel], ?_⟩
    have hfull : (encode (linesLog (s.collect line channel).buffer)).length =
        (s.writer.buffer ++ encode (logLine line.command)).length :=
      congrArg (fun w : Writer => w.buffer.length) (writer_collect line channel s)
    dsimp only at h
    unfold Writer.step
    dsimp only
    rw [hfull] at h
    split at h
    · obtain rfl := Option.some.inj h
      rename_i hle
      rw [if_pos hle, writer_flush, writer_collect]
    · obtain rfl := Option.some.inj h
      rename_i hlt
      rw [if_neg hlt, writer_collect]

theorem writer_tick (h : stepTick s = some s') : s'.writer = s.writer.step (.tick .ok) := by
  have hflush : ∀ w : Writer, w.step (.tick .ok) = w.flush .ok := by
    intro w
    unfold Writer.step
    dsimp only
    split
    · rename_i hempty
      obtain ⟨buffer, file⟩ := w
      subst hempty
      simp [Writer.flush, WriteOutcome.written]
    · rfl
  rw [hflush]
  obtain ⟨hbuffer, rfl⟩ | rfl := stepTick_some h
  · rw [← writer_flush]
    simp [System.writer, System.flush, FileSystem.modify, File.append, File.text, linesLog, hbuffer]
  · exact writer_flush s

end Background

end TitanKv
