import Mathlib.Data.DFinsupp.WellFounded
import Mathlib.Data.Fintype.Lattice
import Mathlib.Data.List.NodupEquivFin
import TitanKv.Lib.Inevitable
import TitanKv.Lib.TwoPhase

/-! # Tasks that wait in line

Tasks run programs over cells with fair reader-writer locks: a task that asks for a
cell joins the line before it, and only the first in line is let in, a reader among
readers and a writer alone. Messages go into a channel of bounded capacity; a task
waits with its message while the channel is full, and one receiver takes them out. A
receiver that could not start leaves a channel that takes everything and keeps nothing.

A program climbs if it takes each lock above those it holds, in an order of the cells.
Tasks whose programs all climb in one order never wait for each other for ever. Readers
that climb in two orders may: the writers between them close the cycle. -/

namespace Fifo
open Runs TwoPhase

structure Task (ι σ μ κ α : Type) where
  todo : List κ
  held : List (ι × Mode)
  current : Option (Prog ι σ μ α)
  answers : List α

inductive Intake where
  | starting
  | running
  | failed
  deriving DecidableEq

structure Hall (n : Nat) (ι σ μ κ α : Type) where
  mem : ι → σ
  tasks : Fin n → Task ι σ μ κ α
  waiting : List (Fin n)
  channel : List μ
  received : List μ
  intake : Intake

inductive Action (n : Nat) where
  | task (t : Fin n)
  | started (ok : Bool)
  | receive

variable {n : Nat} {ι σ μ κ α : Type}

/-- The lock the task asks for. -/
def Task.wants (x : Task ι σ μ κ α) : Option (ι × Mode) :=
  match x.current with
  | some (.lock i m _) => some (i, m)
  | _ => none

/-- How far up in the order of the cells the task waits. -/
def Task.height (order : ι → Nat) (x : Task ι σ μ κ α) : Nat :=
  match x.wants with
  | some (i, _) => order i + 1
  | none => 0

def Task.Finished (x : Task ι σ μ κ α) : Prop := x.current = none ∧ x.todo = []

namespace Hall
variable [DecidableEq ι]

def init (mem : ι → σ) (calls : Fin n → List κ) : Hall n ι σ μ κ α where
  mem := mem
  tasks t := ⟨calls t, [], none, []⟩
  waiting := []
  channel := []
  received := []
  intake := .starting

def setTask (s : Hall n ι σ μ κ α) (t : Fin n) (x : Task ι σ μ κ α) : Hall n ι σ μ κ α :=
  { s with tasks := Function.update s.tasks t x }

/-- Those that wait for a cell, in the order they came. -/
def line (s : Hall n ι σ μ κ α) (i : ι) : List (Fin n) :=
  s.waiting.filter fun t => (s.tasks t).wants.map Prod.fst = some i

/-- Whether the holders of a cell let one in that wants it in a mode. -/
def Admits (s : Hall n ι σ μ κ α) (i : ι) : Mode → Prop
  | .read => ∀ t, (i, Mode.write) ∉ (s.tasks t).held
  | .write => ∀ t, i ∉ (s.tasks t).held.map Prod.fst

instance (s : Hall n ι σ μ κ α) (i : ι) (m : Mode) : Decidable (s.Admits i m) :=
  match m with
  | .read => inferInstanceAs (Decidable (∀ t, (i, Mode.write) ∉ (s.tasks t).held))
  | .write => inferInstanceAs (Decidable (∀ t, i ∉ (s.tasks t).held.map Prod.fst))

/-- One operation of a task; `none` while it waits or has nothing left to run. -/
def advance (prog : κ → Prog ι σ μ α) (capacity : Nat) (s : Hall n ι σ μ κ α) (t : Fin n) :
    Option (Hall n ι σ μ κ α) :=
  match (s.tasks t).current with
  | none =>
    match (s.tasks t).todo with
    | [] => none
    | c :: cs => some (s.setTask t { s.tasks t with todo := cs, current := some (prog c) })
  | some p =>
    match p with
    | .done a =>
      some (s.setTask t { s.tasks t with current := none, answers := (s.tasks t).answers ++ [a] })
    | .hang => some s
    | .lock i m k =>
      if t ∉ s.waiting then some { s with waiting := s.waiting ++ [t] }
      else if (s.line i).head? = some t ∧ s.Admits i m then
        some { s.setTask t { s.tasks t with
              held := (i, m) :: (s.tasks t).held, current := some k } with
          waiting := s.waiting.erase t }
      else none
    | .unlock i k =>
      some (s.setTask t { s.tasks t with held := release i (s.tasks t).held, current := some k })
    | .read i k => some (s.setTask t { s.tasks t with current := some (k (s.mem i)) })
    | .update i f k => some
        { s.setTask t { s.tasks t with current := some k } with
          mem := Function.update s.mem i (f (s.mem i)) }
    | .send x k =>
      if s.intake = .failed then some (s.setTask t { s.tasks t with current := some k })
      else if s.channel.length < capacity then
        some { s.setTask t { s.tasks t with current := some k } with channel := s.channel ++ [x] }
      else none

def step (prog : κ → Prog ι σ μ α) (capacity : Nat) (s : Hall n ι σ μ κ α) :
    Action n → Option (Hall n ι σ μ κ α)
  | .task t => s.advance prog capacity t
  | .started ok =>
    if s.intake = .starting then
      some (if ok then { s with intake := .running }
        else { s with intake := .failed, channel := [] })
    else none
  | .receive =>
    match s.channel with
    | x :: xs =>
      if s.intake = .running then some { s with channel := xs, received := s.received ++ [x] }
        else none
    | [] => none

/-- Every task has made its calls and the channel is empty. -/
def Settled (s : Hall n ι σ μ κ α) : Prop := (∀ t, (s.tasks t).Finished) ∧ s.channel = []

end Hall

section Climbing
variable [DecidableEq ι] {order : ι → Nat} {held : List (ι × Mode)}

/-- With the locks `held`, the program takes each lock above those it holds, releases
all and comes to an end. -/
def Climbs (order : ι → Nat) : List (ι × Mode) → Prog ι σ μ α → Prop
  | held, .done _ => held = []
  | _, .hang => False
  | held, .lock i m k => (∀ l ∈ held, order l.1 < order i) ∧ Climbs order ((i, m) :: held) k
  | held, .unlock i k => Climbs order (release i held) k
  | held, .read _ k => ∀ v, Climbs order held (k v)
  | held, .update _ _ k => Climbs order held k
  | held, .send _ k => Climbs order held k

/-- The first lock is taken. -/
theorem Climbs.first {i : ι} {m : Mode} {k : Prog ι σ μ α} (h : Climbs order [(i, m)] k) :
    Climbs order [] (.lock i m k) :=
  ⟨fun _ hl => absurd hl List.not_mem_nil, h⟩

/-- The only lock is released. -/
theorem Climbs.unlock {i : ι} {m : Mode} {k : Prog ι σ μ α} (h : Climbs order [] k) :
    Climbs order [(i, m)] (.unlock i k) := by
  simpa [Climbs, release] using h

/-- Reads, updates and sends, and an end. -/
def NoLocks : Prog ι σ μ α → Prop
  | .done _ => True
  | .read _ k => ∀ v, NoLocks (k v)
  | .update _ _ k => NoLocks k
  | .send _ k => NoLocks k
  | _ => False

variable {β : Type}

omit [DecidableEq ι] in
theorem NoLocks.bind {p : Prog ι σ μ α} {f : α → Prog ι σ μ β} (h : NoLocks p)
    (hf : ∀ a, NoLocks (f a)) :
    NoLocks (p >>= f) := by
  induction p with
  | done a => exact hf a
  | read i k ih => exact fun v => ih v (h v)
  | update i g k ih => exact ih h
  | send x k ih => exact ih h
  | hang | lock _ _ _ _ | unlock _ _ _ => exact h.elim

/-- A part that takes and releases no lock, then the rest. -/
theorem NoLocks.climbs {p : Prog ι σ μ α} {f : α → Prog ι σ μ β} (h : NoLocks p)
    (hf : ∀ a, Climbs order held (f a)) :
    Climbs order held (p >>= f) := by
  induction p with
  | done a => exact hf a
  | read i k ih => exact fun v => ih v (h v)
  | update i g k ih => exact ih h
  | send x k ih => exact ih h
  | hang | lock _ _ _ _ | unlock _ _ _ => exact h.elim

/-- A part that starts and ends without a lock, then the rest. -/
theorem Climbs.bind {p : Prog ι σ μ α} {f : α → Prog ι σ μ β} (h : Climbs order held p)
    (hf : ∀ a, Climbs order [] (f a)) : Climbs order held (p >>= f) := by
  induction p generalizing held with
  | done a =>
    obtain rfl := h
    exact hf a
  | hang => exact h.elim
  | lock i m k ih => exact ⟨h.1, ih h.2⟩
  | unlock i k ih => exact ih h
  | read i k ih => exact fun v => ih v (h v)
  | update i g k ih => exact ih h
  | send x k ih => exact ih h

end Climbing

section Measure

/-- What one operation leaves of a program. -/
inductive Shorter : Option (Prog ι σ μ α) → Option (Prog ι σ μ α) → Prop
  | done (a : α) : Shorter none (some (.done a))
  | lock (i : ι) (m : Mode) (k : Prog ι σ μ α) : Shorter (some k) (some (.lock i m k))
  | unlock (i : ι) (k : Prog ι σ μ α) : Shorter (some k) (some (.unlock i k))
  | read (i : ι) (k : σ → Prog ι σ μ α) (v : σ) : Shorter (some (k v)) (some (.read i k))
  | update (i : ι) (f : σ → σ) (k : Prog ι σ μ α) : Shorter (some k) (some (.update i f k))
  | send (x : μ) (k : Prog ι σ μ α) : Shorter (some k) (some (.send x k))

theorem shorter_wf : WellFounded (Shorter : Option (Prog ι σ μ α) → _ → Prop) := by
  have hsome : ∀ p : Prog ι σ μ α, Acc Shorter (some p) := by
    intro p
    induction p with
    | done a => exact ⟨_, fun q h => by cases h; exact ⟨_, fun r hr => by cases hr⟩⟩
    | hang => exact ⟨_, fun q h => by cases h⟩
    | read i k ih => exact ⟨_, fun q h => by cases h; exact ih _⟩
    | lock _ _ k ih | unlock _ k ih | update _ _ k ih | send _ k ih =>
      exact ⟨_, fun q h => by cases h; exact ih⟩
  refine ⟨fun p => ?_⟩
  cases p with
  | none => exact ⟨_, fun q h => by cases h⟩
  | some p => exact hsome p

/-- A call less to make, or an operation less in the one being made. -/
def Task.Nearer (y x : Task ι σ μ κ α) : Prop :=
  Prod.Lex (· < ·) Shorter (y.todo.length, y.current) (x.todo.length, x.current)

/-- What is left to do beside the tasks' own operations: to join a line, to start the
receiver, to receive. -/
def Hall.unsettled (s : Hall n ι σ μ κ α) : Nat :=
  (n - s.waiting.length) + s.channel.length + if s.intake = .starting then 1 else 0

def Hall.Nearer (s' s : Hall n ι σ μ κ α) : Prop :=
  Prod.Lex (Pi.Lex (· < ·) Task.Nearer) (· < ·) (s'.tasks, s'.unsettled) (s.tasks, s.unsettled)

theorem Hall.nearer_wf : WellFounded (Hall.Nearer : Hall n ι σ μ κ α → _ → Prop) :=
  have htask : WellFounded (Task.Nearer : Task ι σ μ κ α → _ → Prop) :=
    InvImage.wf (fun x : Task ι σ μ κ α => (x.todo.length, x.current))
      (WellFounded.prod_lex Nat.lt_wfRel.wf shorter_wf)
  InvImage.wf (fun s : Hall n ι σ μ κ α => (s.tasks, s.unsettled))
    (WellFounded.prod_lex (Pi.Lex.wellFounded (· < ·) fun _ => htask) Nat.lt_wfRel.wf)

end Measure

section Ends
variable [DecidableEq ι] {prog : κ → Prog ι σ μ α} {capacity : Nat} {order : ι → Nat}
  {s s' : Hall n ι σ μ κ α} {t : Fin n}
  {x y : Task ι σ μ κ α}

/-- What a task makes of itself in one operation, a wait apart. -/
inductive Task.Next (prog : κ → Prog ι σ μ α) (x : Task ι σ μ κ α) : Task ι σ μ κ α → Prop
  | start {c : κ} {cs : List κ} (hc : x.current = none) (ht : x.todo = c :: cs) :
      Next prog x { x with todo := cs, current := some (prog c) }
  | done {a : α} (hc : x.current = some (.done a)) :
      Next prog x { x with current := none, answers := x.answers ++ [a] }
  | lock {i : ι} {m : Mode} {k : Prog ι σ μ α} (hc : x.current = some (.lock i m k)) :
      Next prog x { x with held := (i, m) :: x.held, current := some k }
  | unlock {i : ι} {k : Prog ι σ μ α} (hc : x.current = some (.unlock i k)) :
      Next prog x { x with held := release i x.held, current := some k }
  | read {i : ι} {k : σ → Prog ι σ μ α} (v : σ) (hc : x.current = some (.read i k)) :
      Next prog x { x with current := some (k v) }
  | update {i : ι} {f : σ → σ} {k : Prog ι σ μ α} (hc : x.current = some (.update i f k)) :
      Next prog x { x with current := some k }
  | send {m : μ} {k : Prog ι σ μ α} (hc : x.current = some (.send m k)) :
      Next prog x { x with current := some k }

theorem Task.Next.nearer (h : x.Next prog y) : y.Nearer x := by
  unfold Task.Nearer
  cases h with
  | start hc ht =>
    rw [ht]
    exact .left _ _ (Nat.lt_succ_self _)
  | done hc => rw [hc]; exact .right _ (.done _)
  | lock hc => rw [hc]; exact .right _ (.lock _ _ _)
  | unlock hc => rw [hc]; exact .right _ (.unlock _ _)
  | read v hc => rw [hc]; exact .right _ (.read _ _ v)
  | update hc => rw [hc]; exact .right _ (.update _ _ _)
  | send hc => rw [hc]; exact .right _ (.send _ _)

/-- All the task has still to run climbs, and between two calls it holds nothing. -/
structure Task.Sound (order : ι → Nat) (prog : κ → Prog ι σ μ α) (x : Task ι σ μ κ α) : Prop where
  todo : ∀ c ∈ x.todo, Climbs order [] (prog c)
  idle : x.current = none → x.held = []
  runs : ∀ p, x.current = some p → Climbs order x.held p

theorem Task.Sound.next (h : x.Sound order prog) (hnext : x.Next prog y) : y.Sound order prog := by
  cases hnext with
  | start hc ht =>
    refine ⟨fun c hmem => h.todo c (ht ▸ List.mem_cons_of_mem _ hmem), nofun, fun p hp => ?_⟩
    obtain rfl := Option.some.inj hp
    show Climbs order x.held _
    rw [h.idle hc]
    exact h.todo _ (ht ▸ List.mem_cons_self)
  | done hc => exact ⟨h.todo, fun _ => h.runs _ hc, nofun⟩
  | lock hc => exact ⟨h.todo, nofun, fun p hp => Option.some.inj hp ▸ (h.runs _ hc).2⟩
  | unlock hc => exact ⟨h.todo, nofun, fun p hp => Option.some.inj hp ▸ h.runs _ hc⟩
  | read v hc => exact ⟨h.todo, nofun, fun p hp => Option.some.inj hp ▸ h.runs _ hc v⟩
  | update hc | send hc =>
    have hrest := h.runs _ hc
    exact ⟨h.todo, nofun, fun p hp => Option.some.inj hp ▸ hrest⟩

namespace Hall

/-- What one operation of a task does: it joins a line, or it goes on. -/
inductive Moved (prog : κ → Prog ι σ μ α) (s : Hall n ι σ μ κ α) (t : Fin n)
    (s' : Hall n ι σ μ κ α) : Prop
  | asks (hnew : t ∉ s.waiting) (hwants : (s.tasks t).wants.isSome)
      (hs : s' = { s with waiting := s.waiting ++ [t] }) : Moved prog s t s'
  | spins (hc : (s.tasks t).current = some .hang) (hs : s' = s) : Moved prog s t s'
  | goes {y : Task ι σ μ κ α} (hnext : (s.tasks t).Next prog y)
      (htasks : s'.tasks = Function.update s.tasks t y)
      (hwaiting : ((s.tasks t).wants = none ∧ s'.waiting = s.waiting) ∨
        s'.waiting = s.waiting.erase t)
      (hintake : s'.intake = s.intake)
      (hchannel : s.intake = .failed → s'.channel = s.channel) : Moved prog s t s'

theorem advance_some (h : s.advance prog capacity t = some s') : Moved prog s t s' := by
  unfold advance at h
  cases hc : (s.tasks t).current with
  | none =>
    rw [hc] at h
    have hwants : (s.tasks t).wants = none := by rw [Task.wants, hc]
    cases ht : (s.tasks t).todo with
    | nil =>
      rw [ht] at h
      cases h
    | cons c cs =>
      rw [ht] at h
      obtain rfl := Option.some.inj h
      exact .goes (.start hc ht) rfl (Or.inl ⟨hwants, rfl⟩) rfl fun _ => rfl
  | some p =>
    rw [hc] at h
    cases p with
    | done a =>
      obtain rfl := Option.some.inj h
      exact .goes (.done hc) rfl (Or.inl ⟨by rw [Task.wants, hc], rfl⟩) rfl fun _ => rfl
    | hang =>
      obtain rfl := Option.some.inj h
      exact .spins hc rfl
    | lock i m k =>
      dsimp only at h
      split at h
      · rename_i hnew
        obtain rfl := Option.some.inj h
        exact .asks hnew (by rw [Task.wants, hc]; rfl) rfl
      · split at h
        · obtain rfl := Option.some.inj h
          exact .goes (.lock hc) rfl (Or.inr rfl) rfl fun _ => rfl
        · cases h
    | unlock i k =>
      obtain rfl := Option.some.inj h
      exact .goes (.unlock hc) rfl (Or.inl ⟨by rw [Task.wants, hc], rfl⟩) rfl fun _ => rfl
    | read i k =>
      obtain rfl := Option.some.inj h
      exact .goes (.read _ hc) rfl (Or.inl ⟨by rw [Task.wants, hc], rfl⟩) rfl fun _ => rfl
    | update i f k =>
      obtain rfl := Option.some.inj h
      exact .goes (.update hc) rfl (Or.inl ⟨by rw [Task.wants, hc], rfl⟩) rfl fun _ => rfl
    | send x k =>
      dsimp only at h
      split at h
      · obtain rfl := Option.some.inj h
        exact .goes (.send hc) rfl (Or.inl ⟨by rw [Task.wants, hc], rfl⟩) rfl fun _ => rfl
      · rename_i hopen
        split at h
        · obtain rfl := Option.some.inj h
          exact .goes (.send hc) rfl (Or.inl ⟨by rw [Task.wants, hc], rfl⟩) rfl fun hfailed =>
            absurd hfailed hopen
        · cases h

structure Sound (order : ι → Nat) (prog : κ → Prog ι σ μ α) (s : Hall n ι σ μ κ α) : Prop where
  tasks : ∀ t, (s.tasks t).Sound order prog
  inLine : ∀ t ∈ s.waiting, (s.tasks t).wants.isSome
  nodup : s.waiting.Nodup
  failed : s.intake = .failed → s.channel = []

theorem sound_init {mem : ι → σ} {calls : Fin n → List κ}
    (h : ∀ t, ∀ c ∈ calls t, Climbs order [] (prog c)) :
    (init mem calls : Hall n ι σ μ κ α).Sound order prog where
  tasks t := ⟨h t, fun _ => rfl, nofun⟩
  inLine := nofun
  nodup := .nil
  failed := nofun

theorem Sound.moved (h : s.Sound order prog) (hmoved : Moved prog s t s') :
    s'.Sound order prog := by
  cases hmoved with
  | asks hnew hwants hs =>
    subst hs
    refine ⟨h.tasks, fun u hu => ?_, ?_, h.failed⟩
    · rcases List.mem_append.mp hu with hu | hu
      · exact h.inLine u hu
      · obtain rfl := List.mem_singleton.mp hu
        exact hwants
    · exact List.nodup_append.mpr ⟨h.nodup, List.nodup_singleton t, fun u hu v hv => by
        obtain rfl := List.mem_singleton.mp hv
        exact fun heq => hnew (heq ▸ hu)⟩
  | spins _ hs => exact hs ▸ h
  | goes hnext htasks hwaiting hintake hchannel =>
    -- a task that asks for nothing is in no line
    have herase : s'.waiting = s.waiting.erase t := by
      rcases hwaiting with ⟨hwants, heq⟩ | heq
      · rw [heq, List.erase_of_not_mem fun hmem => by simpa [hwants] using h.inLine t hmem]
      · exact heq
    refine ⟨fun u => ?_, fun u hu => ?_, herase ▸ h.nodup.erase t, fun hfailed => ?_⟩
    · rw [htasks]
      by_cases hu : u = t
      · subst hu
        rw [Function.update_self]
        exact (h.tasks u).next hnext
      · rw [Function.update_of_ne hu]
        exact h.tasks u
    · rw [herase, h.nodup.mem_erase_iff] at hu
      rw [htasks, Function.update_of_ne hu.1]
      exact h.inLine u hu.2
    · rw [hintake] at hfailed
      rw [hchannel hfailed]
      exact h.failed hfailed

theorem Sound.step {e : Action n} (h : s.Sound order prog) (hs : s.step prog capacity e = some s') :
    s'.Sound order prog := by
  cases e with
  | task t => exact h.moved (advance_some hs)
  | started ok =>
    simp only [Hall.step] at hs
    split at hs
    · obtain rfl := Option.some.inj hs
      cases ok with
      | true => exact ⟨h.tasks, h.inLine, h.nodup, nofun⟩
      | false => exact ⟨h.tasks, h.inLine, h.nodup, fun _ => rfl⟩
    · cases hs
  | receive =>
    simp only [Hall.step] at hs
    split at hs
    · split at hs
      · rename_i hrunning
        obtain rfl := Option.some.inj hs
        exact ⟨h.tasks, h.inLine, h.nodup,
          fun hfailed => by rw [show s.intake = _ from hfailed] at hrunning; cases hrunning⟩
      · cases hs
    · cases hs

theorem Sound.waiting_lt (h : s.Sound order prog) (hnew : t ∉ s.waiting) :
    s.waiting.length < n := by
  have hnodup : (t :: s.waiting).Nodup := List.nodup_cons.mpr ⟨hnew, h.nodup⟩
  have hle := hnodup.length_le_card
  rwa [List.length_cons, Fintype.card_fin] at hle

theorem Sound.nearer {e : Action n} (h : s.Sound order prog)
    (hs : s.step prog capacity e = some s') : s'.Nearer s := by
  unfold Hall.Nearer
  cases e with
  | task t =>
    cases advance_some hs with
    | spins hc _ => exact ((h.tasks t).runs _ hc).elim
    | asks hnew hwants hs =>
      subst hs
      have hlt := h.waiting_lt hnew
      refine .right _ ?_
      simp only [unsettled, List.length_append, List.length_singleton]
      omega
    | goes hnext htasks hwaiting hintake hchannel =>
      refine .left _ _ ⟨t, fun u hu => ?_, ?_⟩
      · rw [htasks, Function.update_of_ne hu.ne]
      · rw [htasks, Function.update_self]
        exact hnext.nearer
  | started ok =>
    simp only [Hall.step] at hs
    split at hs
    · rename_i hstarting
      obtain rfl := Option.some.inj hs
      cases ok with
      | true =>
        refine .right _ ?_
        simp [unsettled, hstarting]
      | false =>
        refine .right _ ?_
        show (n - s.waiting.length) + 0 + 0 <
          (n - s.waiting.length) + s.channel.length + if s.intake = .starting then 1 else 0
        rw [if_pos hstarting]
        omega
    · cases hs
  | receive =>
    simp only [Hall.step] at hs
    split at hs
    · rename_i x xs hchannel
      split at hs
      · obtain rfl := Option.some.inj hs
        refine .right _ ?_
        simp [unsettled, hchannel]
      · cases hs
    · cases hs

/-- A task that cannot go on, with an empty channel, is in line for a cell. -/
theorem in_line_of_stuck (hcapacity : 0 < capacity) (hchannel : s.channel = [])
    (hun : ¬ (s.tasks t).Finished) (hs : s.advance prog capacity t = none) :
    ∃ i m k, (s.tasks t).current = some (.lock i m k) ∧ t ∈ s.waiting ∧
      ¬ ((s.line i).head? = some t ∧ s.Admits i m) := by
  unfold advance at hs
  cases hc : (s.tasks t).current with
  | none =>
    rw [hc] at hs
    cases ht : (s.tasks t).todo with
    | nil => exact absurd ⟨hc, ht⟩ hun
    | cons c cs =>
      rw [ht] at hs
      cases hs
  | some p =>
    rw [hc] at hs
    cases p with
    | lock i m k =>
      dsimp only at hs
      split at hs
      · cases hs
      · rename_i hin
        split at hs
        · cases hs
        · rename_i hblocked
          exact ⟨i, m, k, rfl, not_not.mp hin, hblocked⟩
    | send x k =>
      dsimp only at hs
      split at hs
      · cases hs
      · split at hs
        · cases hs
        · rename_i hfull
          rw [hchannel] at hfull
          exact absurd hcapacity hfull
    | done _ | hang | unlock _ _ | read _ _ | update _ _ _ => cases hs

omit [DecidableEq ι] in
theorem exists_holder {i : ι} {m : Mode} (h : ¬ s.Admits i m) :
    ∃ u, ∃ l ∈ (s.tasks u).held, l.1 = i := by
  cases m with
  | read =>
    obtain ⟨u, hu⟩ := not_forall.mp h
    exact ⟨u, _, not_not.mp hu, rfl⟩
  | write =>
    obtain ⟨u, hu⟩ := not_forall.mp h
    obtain ⟨l, hl, hi⟩ := List.mem_map.mp (not_not.mp hu)
    exact ⟨u, l, hl, hi⟩

/-- Where no task can go on, the first in line waits for one that waits further up. -/
theorem Sound.exists_higher (h : s.Sound order prog) (hcapacity : 0 < capacity)
    (hchannel : s.channel = [])
    (hnone : ∀ t, s.advance prog capacity t = none) (hun : ¬ (s.tasks t).Finished) :
    ∃ u, (s.tasks t).height order < (s.tasks u).height order := by
  obtain ⟨i, m, k, hc, hin, -⟩ := in_line_of_stuck hcapacity hchannel hun (hnone t)
  have hmem : t ∈ s.line i := List.mem_filter.mpr ⟨hin, by simp [Task.wants, hc]⟩
  obtain ⟨first, hfirst⟩ : ∃ first, (s.line i).head? = some first :=
    Option.isSome_iff_exists.mp (List.isSome_head?.mpr (List.ne_nil_of_mem hmem))
  have hwants : (s.tasks first).wants.map Prod.fst = some i := by
    simpa using (List.mem_filter.mp (List.mem_of_mem_head? hfirst)).2
  have hfirst_un : ¬ (s.tasks first).Finished := fun hfin => by simp [Task.wants, hfin.1] at hwants
  obtain ⟨i₁, m₁, k₁, hc₁, -, hblocked⟩ :=
    in_line_of_stuck hcapacity hchannel hfirst_un (hnone first)
  obtain rfl : i₁ = i := by simpa [Task.wants, hc₁] using hwants
  -- who holds the cell is in a call, so it waits too
  obtain ⟨u, l, hl, rfl⟩ := exists_holder fun hadmits => hblocked ⟨hfirst, hadmits⟩
  have hu : ¬ (s.tasks u).Finished := fun hfin => by simp [(h.tasks u).idle hfin.1] at hl
  obtain ⟨j, m₂, k₂, hc₂, -⟩ := in_line_of_stuck hcapacity hchannel hu (hnone u)
  refine ⟨u, ?_⟩
  simp only [Task.height, Task.wants, hc, hc₂]
  exact Nat.succ_lt_succ (((h.tasks u).runs _ hc₂).1 l hl)

/-- Programs that climb in one order leave nobody waiting for ever: while there is
something to do, someone can go on. -/
theorem Sound.exists_step (h : s.Sound order prog) (hcapacity : 0 < capacity) (hun : ¬ s.Settled) :
    ∃ e s', s.step prog capacity e = some s' := by
  by_contra hstuck
  have hnone : ∀ e, s.step prog capacity e = none := fun e =>
    Option.eq_none_iff_forall_ne_some.mpr fun s' hs => hstuck ⟨e, s', hs⟩
  have hchannel : s.channel = [] := by
    cases hintake : s.intake with
    | starting =>
      have hstart := hnone (.started true)
      simp [Hall.step, hintake] at hstart
    | running =>
      cases hchannel : s.channel with
      | nil => rfl
      | cons x xs =>
        have hreceive := hnone .receive
        simp [Hall.step, hintake, hchannel] at hreceive
    | failed => exact h.failed hintake
  obtain ⟨t, ht⟩ : ∃ t, ¬ (s.tasks t).Finished := by
    by_contra hall
    push Not at hall
    exact hun ⟨hall, hchannel⟩
  -- the one that waits highest waits for a higher one
  have : Nonempty (Fin n) := ⟨t⟩
  obtain ⟨top, hmax⟩ := Finite.exists_max fun u => (s.tasks u).height order
  have htop : ¬ (s.tasks top).Finished := by
    intro hfin
    obtain ⟨u, hu⟩ := h.exists_higher hcapacity hchannel (fun u => hnone (.task u)) ht
    have hzero : (s.tasks top).height order = 0 := by simp [Task.height, Task.wants, hfin.1]
    have := hmax u
    omega
  obtain ⟨u, hu⟩ := h.exists_higher hcapacity hchannel (fun u => hnone (.task u)) htop
  exact absurd (hmax u) (Nat.not_le.mpr hu)

/-- From any state on, in whatever order the steps are taken, all calls are made and all
messages received. -/
theorem Sound.ends (h : s.Sound order prog) (hcapacity : 0 < capacity) :
    Inevitable (Hall.step prog capacity) Settled s :=
  Inevitable.of_measure (Hall.Sound order prog) nearer_wf (fun _ _ _ ht he => ht.step he)
    (fun _ _ _ ht he => ht.nearer he)
    (fun _ ht hun => ht.exists_step hcapacity hun) h

theorem sound_reachable {mem : ι → σ} {calls : Fin n → List κ}
    (h : ∀ t, ∀ c ∈ calls t, Climbs order [] (prog c))
    (hs : Reachable (step prog capacity) anyStep (init mem calls) s) : s.Sound order prog :=
  hs.inv (sound_init h) fun _ _ _ ht _ he => ht.step he

end Hall
end Ends

section Follows
variable [DecidableEq ι] {prog : κ → Prog ι σ μ α} {capacity : Nat} {s s' : Hall n ι σ μ κ α}
  {t : Fin n} {P : κ → α → Prop} {calls : List κ} {x y : Task ι σ μ κ α}

/-- Where a task is in its calls: those it has made have answers that `P` allows, and the
one it is in can only come to such an answer. -/
inductive Task.Follows (P : κ → α → Prop) : List κ → Task ι σ μ κ α → Prop
  | idle {made todo : List κ} {held : List (ι × Mode)} {answers : List α} :
    List.Forall₂ P made answers → Follows P (made ++ todo) ⟨todo, held, none, answers⟩
  | busy {made todo : List κ} {c : κ} {held : List (ι × Mode)} {p : Prog ι σ μ α}
      {answers : List α} :
    List.Forall₂ P made answers → Yields (P c) p →
    Follows P (made ++ c :: todo) ⟨todo, held, some p, answers⟩

theorem Task.Follows.next (h : x.Follows P calls) (hprog : ∀ c ∈ calls, Yields (P c) (prog c))
    (hnext : x.Next prog y) : y.Follows P calls := by
  cases h with
  | @idle made _ held answers hmade =>
    cases hnext with
    | start _ ht =>
      obtain rfl := ht
      exact .busy hmade (hprog _ (List.mem_append_right made List.mem_cons_self))
    | done hc | lock hc | unlock hc | read _ hc | update hc | send hc => cases hc
  | @busy made todo c held p answers hmade hp =>
    cases hnext with
    | start hc _ => cases hc
    | done hc =>
      obtain rfl := Option.some.inj hc
      rw [List.append_cons]
      exact .idle (List.rel_append hmade (.cons hp .nil))
    | lock hc | unlock hc | update hc | send hc =>
      obtain rfl := Option.some.inj hc
      exact .busy hmade hp
    | read v hc =>
      obtain rfl := Option.some.inj hc
      exact .busy hmade (hp v)

omit [DecidableEq ι] in
/-- A task that has finished has an answer to every call. -/
theorem Task.Follows.answered (h : x.Follows P calls) (hx : x.Finished) :
    List.Forall₂ P calls x.answers := by
  cases h with
  | idle hmade =>
    obtain rfl : _ = [] := hx.2
    rwa [List.append_nil]
  | busy => cases hx.1

omit [DecidableEq ι] in
/-- A task with an answer to every call has finished. -/
theorem Task.Follows.finished (h : x.Follows P calls) (hlen : calls.length ≤ x.answers.length) :
    x.Finished := by
  cases h with
  | @idle made todo held answers hmade =>
    rw [List.length_append, hmade.length_eq] at hlen
    exact ⟨rfl, List.length_eq_zero_iff.mp (Nat.le_zero.mp (Nat.le_of_add_le_add_left hlen))⟩
  | @busy made todo c held p answers hmade _ =>
    rw [List.length_append, hmade.length_eq, List.length_cons] at hlen
    exact absurd hlen (Nat.not_le.mpr (Nat.lt_add_of_pos_right (Nat.succ_pos _)))

theorem Task.Next.answers (h : x.Next prog y) : x.answers <+: y.answers := by
  cases h with
  | done => exact List.prefix_append _ _
  | start | lock | unlock | read | update | send => exact List.prefix_rfl

theorem Task.Next.todo (h : x.Next prog y) : y.todo <:+ x.todo := by
  cases h with
  | start _ ht =>
    rw [ht]
    exact List.suffix_cons _ _
  | done | lock | unlock | read | update | send => exact List.suffix_rfl

namespace Hall

/-- A step leaves a task as it is or takes it one operation on. -/
theorem step_task {e : Action n} (hs : s.step prog capacity e = some s') (u : Fin n) :
    s'.tasks u = s.tasks u ∨ (s.tasks u).Next prog (s'.tasks u) := by
  cases e with
  | task t =>
    cases advance_some hs with
    | asks _ _ hs => exact Or.inl (hs ▸ rfl)
    | spins _ hs => exact Or.inl (hs ▸ rfl)
    | goes hnext htasks _ _ _ =>
      rw [htasks]
      by_cases hu : u = t
      · subst hu
        rw [Function.update_self]
        exact Or.inr hnext
      · exact Or.inl (Function.update_of_ne hu _ _)
  | started ok =>
    simp only [Hall.step] at hs
    split at hs
    · obtain rfl := Option.some.inj hs
      cases ok <;> exact Or.inl rfl
    · cases hs
  | receive =>
    simp only [Hall.step] at hs
    split at hs
    · split at hs
      · obtain rfl := Option.some.inj hs
        exact Or.inl rfl
      · cases hs
    · cases hs

theorem step_answers {e : Action n} (hs : s.step prog capacity e = some s') (u : Fin n) :
    (s.tasks u).answers <+: (s'.tasks u).answers := by
  rcases step_task hs u with hsame | hnext
  · rw [hsame]
  · exact hnext.answers

/-- If every call can only come to answers that `P` allows it, those it has come to are such. -/
theorem follows_reachable {mem : ι → σ} {calls : Fin n → List κ}
    (hprog : ∀ t, ∀ c ∈ calls t, Yields (P c) (prog c))
    (hs : Reachable (step prog capacity) anyStep (init mem calls) s) (u : Fin n) :
    (s.tasks u).Follows P (calls u) := by
  induction hs with
  | init => exact .idle (show List.Forall₂ P [] [] from .nil)
  | step _ _ hstep ih =>
    rcases step_task hstep u with hsame | hnext
    · rwa [hsame]
    · exact ih.next (hprog u) hnext

end Hall
end Follows

section Later
variable [DecidableEq ι] {prog prog' : κ → Prog ι σ μ α} {capacity : Nat} {mem : ι → σ}
  {calls more : Fin n → List κ} {r s s' : Hall n ι σ μ κ α} {t : Fin n}

/-- The task with more calls behind those it has to make. -/
def Task.behind (x : Task ι σ μ κ α) (cs : List κ) : Task ι σ μ κ α :=
  { x with todo := x.todo ++ cs }

namespace Hall

def behind (s : Hall n ι σ μ κ α) (more : Fin n → List κ) : Hall n ι σ μ κ α :=
  { s with tasks := fun t => (s.tasks t).behind (more t) }

omit [DecidableEq ι] in
theorem behind_nil (s : Hall n ι σ μ κ α) : s.behind (fun _ => []) = s := by
  simp [behind, Task.behind]

omit [DecidableEq ι] in
theorem behind_behind (s : Hall n ι σ μ κ α) (more later : Fin n → List κ) :
    (s.behind more).behind later = s.behind fun t => more t ++ later t := by
  simp [behind, Task.behind]

omit [DecidableEq ι] in
theorem update_behind (tasks : Fin n → Task ι σ μ κ α) (t : Fin n) (x : Task ι σ μ κ α) :
    (fun u => (Function.update tasks t x u).behind (more u)) =
      Function.update (fun u => (tasks u).behind (more u)) t (x.behind (more t)) :=
  funext (Function.apply_update (fun u y => Task.behind y (more u)) tasks t x)

theorem advance_behind (more : Fin n → List κ) (hs : s.advance prog capacity t = some s') :
    (s.behind more).advance prog capacity t = some (s'.behind more) := by
  have hadmits (i : ι) (m : Mode) : (s.behind more).Admits i m ↔ s.Admits i m := by cases m <;> rfl
  unfold advance at hs ⊢
  rw [show ((s.behind more).tasks t).current = (s.tasks t).current from rfl,
    show ((s.behind more).tasks t).todo = (s.tasks t).todo ++ more t from rfl]
  cases hc : (s.tasks t).current with
  | none =>
    rw [hc] at hs
    cases ht : (s.tasks t).todo with
    | nil =>
      rw [ht] at hs
      cases hs
    | cons c cs =>
      rw [ht] at hs
      obtain rfl := Option.some.inj hs
      simp only [behind, setTask, update_behind]
      rfl
  | some p =>
    rw [hc] at hs
    cases p with
    | hang =>
      obtain rfl := Option.some.inj hs
      rfl
    | done a =>
      obtain rfl := Option.some.inj hs
      simp only [behind, setTask, update_behind]
      rfl
    | unlock i k | read i k =>
      obtain rfl := Option.some.inj hs
      simp only [behind, setTask, update_behind]
      rfl
    | update i f k =>
      obtain rfl := Option.some.inj hs
      simp only [behind, setTask, update_behind]
      rfl
    | lock i m k =>
      dsimp only at hs ⊢
      split at hs
      · rename_i hnew
        obtain rfl := Option.some.inj hs
        exact if_pos hnew
      · rename_i hin
        refine (if_neg hin).trans ?_
        split at hs
        · rename_i hfirst
          obtain rfl := Option.some.inj hs
          refine (if_pos ⟨hfirst.1, (hadmits i m).mpr hfirst.2⟩).trans ?_
          simp only [behind, setTask, update_behind]
          rfl
        · cases hs
    | send x k =>
      dsimp only at hs ⊢
      split at hs
      · rename_i hfailed
        obtain rfl := Option.some.inj hs
        refine (if_pos hfailed).trans ?_
        simp only [behind, setTask, update_behind]
        rfl
      · rename_i hopen
        refine (if_neg hopen).trans ?_
        split at hs
        · rename_i hroom
          obtain rfl := Option.some.inj hs
          refine (if_pos hroom).trans ?_
          simp only [behind, setTask, update_behind]
          rfl
        · cases hs

/-- What the hall does, it does with more calls behind. -/
theorem step_behind (more : Fin n → List κ) {e : Action n} (hs : s.step prog capacity e = some s') :
    (s.behind more).step prog capacity e = some (s'.behind more) := by
  cases e with
  | task t => exact advance_behind more hs
  | started ok =>
    simp only [Hall.step] at hs ⊢
    split at hs
    · rename_i hstarting
      obtain rfl := Option.some.inj hs
      refine (if_pos hstarting).trans ?_
      cases ok <;> rfl
    · cases hs
  | receive =>
    simp only [Hall.step] at hs ⊢
    split at hs
    · rename_i x xs hchannel
      rw [show (s.behind more).channel = x :: xs from hchannel]
      split at hs
      · rename_i hrunning
        obtain rfl := Option.some.inj hs
        exact if_pos hrunning
      · cases hs
    · cases hs

theorem reachable_behind (more : Fin n → List κ) (hs : Reachable (step prog capacity) anyStep r s) :
    Reachable (step prog capacity) anyStep (r.behind more) (s.behind more) := by
  induction hs with
  | init => exact .init
  | step _ _ hstep ih => exact ih.step trivial (step_behind more hstep)

end Hall
end Later

section Crossed
variable [DecidableEq ι] {prog : κ → Prog ι σ μ α} {capacity : Nat} {mem : ι → σ}

section Busy
variable {tasks : Fin n → Task ι σ μ κ α} {waiting : List (Fin n)} {t : Fin n} {c : κ} {cs : List κ}
  {held : List (ι × Mode)} {i : ι} {m : Mode} {k : Prog ι σ μ α} {answers : List α}

/-- The receiver runs, and there is nothing to receive. -/
def busy (mem : ι → σ) (tasks : Fin n → Task ι σ μ κ α) (waiting : List (Fin n)) :
    Hall n ι σ μ κ α :=
  ⟨mem, tasks, waiting, [], [], .running⟩

theorem busy_starts (ht : tasks t = ⟨c :: cs, held, none, answers⟩) :
    (busy mem tasks waiting).step prog capacity (.task t) =
    some (busy mem (Function.update tasks t ⟨cs, held, some (prog c), answers⟩) waiting) := by
  simp only [busy, Hall.step, Hall.advance, ht, Hall.setTask]

theorem busy_asks (ht : tasks t = ⟨cs, held, some (.lock i m k), answers⟩) (hnew : t ∉ waiting) :
    (busy mem tasks waiting).step prog capacity (.task t) =
      some (busy mem tasks (waiting ++ [t])) := by
  simp only [busy, Hall.step, Hall.advance, ht, if_pos hnew]

theorem busy_enters (ht : tasks t = ⟨cs, held, some (.lock i m k), answers⟩) (hin : t ∈ waiting)
    (hfirst : ((busy mem tasks waiting).line i).head? = some t)
    (hadmits : (busy mem tasks waiting).Admits i m) :
    (busy mem tasks waiting).step prog capacity (.task t) =
      some (busy mem (Function.update tasks t ⟨cs, (i, m) :: held, some k, answers⟩)
        (waiting.erase t)) := by
  rw [busy] at hfirst hadmits
  simp only [busy, Hall.step, Hall.advance, ht, if_neg (not_not.mpr hin),
    if_pos (And.intro hfirst hadmits), Hall.setTask]

theorem busy_waits (ht : tasks t = ⟨cs, held, some (.lock i m k), answers⟩) (hin : t ∈ waiting)
    (hblocked : ((busy mem tasks waiting).line i).head? = some t →
      ¬ (busy mem tasks waiting).Admits i m) :
    (busy mem tasks waiting).step prog capacity (.task t) = none := by
  rw [busy] at hblocked
  simp only [busy, Hall.step, Hall.advance, ht, if_neg (not_not.mpr hin),
    if_neg (not_and.mpr hblocked)]

end Busy

section Four
variable {β : Type} (x y z w v : β)

def four : Fin 4 → β
  | 0 => x
  | 1 => y
  | 2 => z
  | 3 => w

theorem update_four_zero : Function.update (four x y z w) 0 v = four v y z w :=
  funext fun | 0 | 1 | 2 | 3 => rfl
theorem update_four_one : Function.update (four x y z w) 1 v = four x v z w :=
  funext fun | 0 | 1 | 2 | 3 => rfl
theorem update_four_two : Function.update (four x y z w) 2 v = four x y v w :=
  funext fun | 0 | 1 | 2 | 3 => rfl
theorem update_four_three : Function.update (four x y z w) 3 v = four x y z v :=
  funext fun | 0 | 1 | 2 | 3 => rfl

theorem forall_four {P : Fin 4 → Prop} : (∀ t, P t) ↔ P 0 ∧ P 1 ∧ P 2 ∧ P 3 :=
  ⟨fun h => ⟨h 0, h 1, h 2, h 3⟩,
    fun ⟨h₀, h₁, h₂, h₃⟩ t => match t with | 0 => h₀ | 1 => h₁ | 2 => h₂ | 3 => h₃⟩

end Four

/-- Two readers take their first locks, two writers ask for these, and then the readers
ask for their second ones. -/
def meeting : List (Action 4) :=
  [.started true, .task 0, .task 0, .task 0, .task 1, .task 1, .task 1, .task 2, .task 2, .task 3,
    .task 3, .task 0, .task 1]

/-- Two readers that take the same two cells in opposite orders wait for ever once a
writer stands in line before each of these cells, though only the two reads are held. -/
theorem crossed_readers {a b : ι} (hab : a ≠ b) {c₀ c₁ c₂ c₃ : κ} {p q r t : Prog ι σ μ α}
    (h₀ : prog c₀ = .lock a .read (.lock b .read p))
    (h₁ : prog c₁ = .lock b .read (.lock a .read q))
    (h₂ : prog c₂ = .lock a .write r) (h₃ : prog c₃ = .lock b .write t) :
    ∃ s, run (Hall.step prog capacity) (Hall.init mem (four [c₀] [c₁] [c₂] [c₃])) meeting = some s ∧
      (∀ e, s.step prog capacity e = none) ∧ (∀ t, ¬ (s.tasks t).Finished) ∧
      ∀ t, (s.tasks t).held = four [(a, .read)] [(b, .read)] [] [] t := by
  have hstart : (Hall.init mem (four [c₀] [c₁] [c₂] [c₃])).step prog capacity (.started true) =
      some (busy mem (four ⟨[c₀], [], none, []⟩ ⟨[c₁], [], none, []⟩ ⟨[c₂], [], none, []⟩ ⟨[c₃], [],
        none, []⟩) []) := by
    simp only [Hall.step, Hall.init, busy, if_true, Option.some.injEq, Hall.mk.injEq, and_true,
      true_and]
    exact funext fun | 0 | 1 | 2 | 3 => rfl
  refine ⟨busy mem (four ⟨[], [(a, .read)], some (.lock b .read p), []⟩ ⟨[], [(b, .read)],
    some (.lock a .read q), []⟩
    ⟨[], [], some (.lock a .write r), []⟩ ⟨[], [], some (.lock b .write t), []⟩) [2, 3, 0, 1], ?_,
      fun e => ?_, fun t => ?_, fun t => ?_⟩
  · rw [meeting, run_cons, hstart, Option.bind_some]
    rw [run_cons, busy_starts rfl, Option.bind_some, update_four_zero, h₀]
    rw [run_cons, busy_asks rfl (by decide), Option.bind_some]
    rw [run_cons, busy_enters rfl (by decide) ?_ ?_, Option.bind_some, update_four_zero]
    rw [run_cons, busy_starts rfl, Option.bind_some, update_four_one, h₁]
    rw [run_cons, busy_asks rfl (by decide), Option.bind_some]
    rw [run_cons, busy_enters rfl (by decide) ?_ ?_, Option.bind_some, update_four_one]
    rw [run_cons, busy_starts rfl, Option.bind_some, update_four_two, h₂]
    rw [run_cons, busy_asks rfl (by decide), Option.bind_some]
    rw [run_cons, busy_starts rfl, Option.bind_some, update_four_three, h₃]
    rw [run_cons, busy_asks rfl (by decide), Option.bind_some]
    rw [run_cons, busy_asks rfl (by decide), Option.bind_some]
    rw [run_cons, busy_asks rfl (by decide), Option.bind_some]
    -- each reader is let in before a writer asks
    all_goals simp [Hall.line, Hall.Admits, busy, four, Task.wants, forall_four]
  · cases e with
    | started ok => rfl
    | receive => rfl
    | task t =>
      match t with
      | 0 | 1 | 2 | 3 =>
        exact busy_waits rfl (by decide)
          (by simp [Hall.line, Hall.Admits, busy, four, Task.wants, forall_four, hab, hab.symm])
  · match t with
    | 0 | 1 | 2 | 3 => exact fun hfin => nomatch hfin.1
  · match t with
    | 0 | 1 | 2 | 3 => rfl

end Crossed

end Fifo
