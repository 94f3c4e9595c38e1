import Mathlib.Logic.Function.Basic
import Mathlib.Data.List.Basic

/-! # Programs over locked cells

A program of one task is a tree of primitive operations on an array of cells
`ι → σ`, each guarded by a reader-writer lock: take a lock, release it, read a
cell, update a cell, send a message. `Disciplined` says that it is two-phase:
every access is made under a lock that allows it, and once a lock is released
only releases and sends are left. -/

namespace TwoPhase

inductive Mode where
  | read
  | write
  deriving DecidableEq

inductive Prog (ι σ μ α : Type) : Type where
  | done (a : α)
  | hang
  | lock (i : ι) (m : Mode) (k : Prog ι σ μ α)
  | unlock (i : ι) (k : Prog ι σ μ α)
  | read (i : ι) (k : σ → Prog ι σ μ α)
  | update (i : ι) (f : σ → σ) (k : Prog ι σ μ α)
  | send (x : μ) (k : Prog ι σ μ α)

variable {ι σ μ α β : Type}

namespace Prog

def bind : Prog ι σ μ α → (α → Prog ι σ μ β) → Prog ι σ μ β
  | done a, f => f a
  | hang, _ => hang
  | lock i m k, f => lock i m (k.bind f)
  | unlock i k, f => unlock i (k.bind f)
  | read i k, f => read i fun v => (k v).bind f
  | update i g k, f => update i g (k.bind f)
  | send x k, f => send x (k.bind f)

instance : Monad (Prog ι σ μ) where
  pure := done
  bind := bind

/-! The primitives as the steps of a `do` block. -/

def acquire (i : ι) (m : Mode) : Prog ι σ μ Unit := lock i m (done ())
def drop (i : ι) : Prog ι σ μ Unit := unlock i (done ())
def get (i : ι) : Prog ι σ μ σ := read i done
def modify (i : ι) (f : σ → σ) : Prog ι σ μ Unit := update i f (done ())
def emit (x : μ) : Prog ι σ μ Unit := send x (done ())

section Bind
variable (f : α → Prog ι σ μ β)

@[simp] theorem pure_eq (a : α) : (pure a : Prog ι σ μ α) = done a := rfl
@[simp] theorem done_bind (a : α) : (done a >>= f) = f a := rfl
@[simp] theorem hang_bind : ((hang : Prog ι σ μ α) >>= f) = hang := rfl
@[simp] theorem lock_bind (i : ι) (m : Mode) (k : Prog ι σ μ α) :
    (lock i m k >>= f) = lock i m (k >>= f) := rfl
@[simp] theorem unlock_bind (i : ι) (k : Prog ι σ μ α) :
    (unlock i k >>= f) = unlock i (k >>= f) := rfl
@[simp] theorem read_bind (i : ι) (k : σ → Prog ι σ μ α) :
    (read i k >>= f) = read i fun v => k v >>= f := rfl
@[simp] theorem update_bind (i : ι) (g : σ → σ) (k : Prog ι σ μ α) :
    (update i g k >>= f) = update i g (k >>= f) := rfl
@[simp] theorem send_bind (x : μ) (k : Prog ι σ μ α) : (send x k >>= f) = send x (k >>= f) := rfl
@[simp] theorem acquire_bind (i : ι) (m : Mode) (f : Unit → Prog ι σ μ β) :
    (acquire i m >>= f) = lock i m (f ()) := rfl
@[simp] theorem drop_bind (i : ι) (f : Unit → Prog ι σ μ β) :
    (drop i >>= f) = unlock i (f ()) := rfl
@[simp] theorem get_bind (i : ι) (f : σ → Prog ι σ μ β) : (get i >>= f) = read i f := rfl
@[simp] theorem modify_bind (i : ι) (g : σ → σ) (f : Unit → Prog ι σ μ β) :
    (modify i g >>= f) = update i g (f ()) := rfl
@[simp] theorem emit_bind (x : μ) (f : Unit → Prog ι σ μ β) : (emit x >>= f) = send x (f ()) := rfl

end Bind

section Run
variable [DecidableEq ι]

/-- The program alone: its result, the cells it leaves and the messages it
sends in order; `none` if it never ends. -/
def run : Prog ι σ μ α → (ι → σ) → Option (α × (ι → σ) × List μ)
  | done a, mem => some (a, mem, [])
  | hang, _ => none
  | lock _ _ k, mem => k.run mem
  | unlock _ k, mem => k.run mem
  | read i k, mem => (k (mem i)).run mem
  | update i f k, mem => k.run (Function.update mem i (f (mem i)))
  | send x k, mem => (k.run mem).map fun r => (r.1, r.2.1, x :: r.2.2)

@[simp] theorem run_done (a : α) (mem : ι → σ) :
    (done a : Prog ι σ μ α).run mem = some (a, mem, []) := rfl
@[simp] theorem run_hang (mem : ι → σ) : (hang : Prog ι σ μ α).run mem = none := rfl
@[simp] theorem run_lock (i : ι) (m : Mode) (k : Prog ι σ μ α) (mem : ι → σ) :
    (lock i m k).run mem = k.run mem := rfl
@[simp] theorem run_unlock (i : ι) (k : Prog ι σ μ α) (mem : ι → σ) :
    (unlock i k).run mem = k.run mem := rfl
@[simp] theorem run_read (i : ι) (k : σ → Prog ι σ μ α) (mem : ι → σ) :
    (read i k).run mem = (k (mem i)).run mem := rfl
@[simp] theorem run_update (i : ι) (f : σ → σ) (k : Prog ι σ μ α) (mem : ι → σ) :
    (update i f k).run mem = k.run (Function.update mem i (f (mem i))) := rfl
@[simp] theorem run_send (x : μ) (k : Prog ι σ μ α) (mem : ι → σ) :
    (send x k).run mem = (k.run mem).map fun r => (r.1, r.2.1, x :: r.2.2) := rfl

/-- Running a block: the first part, then the rest on what it leaves. -/
theorem run_bind (p : Prog ι σ μ α) (f : α → Prog ι σ μ β) (mem : ι → σ) :
    (p >>= f).run mem = (p.run mem).bind fun r =>
      ((f r.1).run r.2.1).map fun q => (q.1, q.2.1, r.2.2 ++ q.2.2) := by
  induction p generalizing mem with
  | done a => simp
  | hang => rfl
  | lock i m k ih => exact ih mem
  | unlock i k ih => exact ih mem
  | read i k ih => exact ih (mem i) mem
  | update i g k ih => exact ih _
  | send x k ih =>
    rw [send_bind, run_send, ih, run_send]
    cases k.run mem with
    | none => rfl
    | some r => simp [Option.map_map, Function.comp_def]

end Run

/-- The messages left in a program that has made its last access. -/
def pending : Prog ι σ μ α → List μ
  | unlock _ k => k.pending
  | send x k => x :: k.pending
  | _ => []

/-- The result of a program that has made its last access. -/
def reply? : Prog ι σ μ α → Option α
  | done a => some a
  | unlock _ k => k.reply?
  | send _ k => k.reply?
  | _ => none

end Prog

section Discipline
variable [DecidableEq ι]

/-- The locks kept after releasing `i`. -/
def release (i : ι) (held : List (ι × Mode)) : List (ι × Mode) := held.filter fun l => l.1 ≠ i

/-- Only releases of held locks and sends are left, and no lock at the end. -/
def Tail : List (ι × Mode) → Prog ι σ μ α → Prop
  | held, .done _ => held = []
  | held, .unlock i k => i ∈ held.map Prod.fst ∧ Tail (release i held) k
  | held, .send _ k => Tail held k
  | _, _ => False

/-- Two-phase locking, with the locks `held` already taken. -/
def Disciplined : List (ι × Mode) → Prog ι σ μ α → Prop
  | _, .hang => True
  | held, .lock i m k => i ∉ held.map Prod.fst ∧ Disciplined ((i, m) :: held) k
  | held, .read i k => i ∈ held.map Prod.fst ∧ ∀ v, Disciplined held (k v)
  | held, .update i _ k => (i, Mode.write) ∈ held ∧ Disciplined held k
  | held, p => Tail held p

theorem mem_release {i j : ι} {m : Mode} {held : List (ι × Mode)} :
    (j, m) ∈ release i held ↔ (j, m) ∈ held ∧ j ≠ i := by
  simp [release]

theorem Tail.disciplined {held : List (ι × Mode)} {p : Prog ι σ μ α} (h : Tail held p) :
    Disciplined held p := by
  cases p with
  | done a => exact h
  | unlock i k => exact h
  | send x k => exact h
  | hang => trivial
  | lock i m k => exact h.elim
  | read i k => exact h.elim
  | update i f k => exact h.elim

/-- A program past its last access has a result, whatever the cells hold. -/
theorem Tail.run {held : List (ι × Mode)} {p : Prog ι σ μ α} (h : Tail held p) :
    ∃ a, p.reply? = some a ∧ ∀ mem, p.run mem = some (a, mem, p.pending) := by
  induction p generalizing held with
  | done a => exact ⟨a, rfl, fun _ => rfl⟩
  | unlock i k ih =>
    obtain ⟨a, ha, hr⟩ := ih h.2
    exact ⟨a, ha, hr⟩
  | send x k ih =>
    obtain ⟨a, ha, hr⟩ := ih h
    exact ⟨a, ha, fun mem => by simp [hr mem, Prog.pending]⟩
  | hang => exact h.elim
  | lock i m k _ => exact h.elim
  | read i k _ => exact h.elim
  | update i f k _ => exact h.elim

end Discipline

section Guarded
variable [DecidableEq ι] {i : ι}

def SendsOnly : Prog ι σ μ α → Prop
  | .done _ => True
  | .send _ k => SendsOnly k
  | _ => False

/-- The body of a program that holds the write lock of one cell: reads and
updates of that cell, then sends. -/
def Guarded (i : ι) : Prog ι σ μ α → Prop
  | .hang => True
  | .read j k => j = i ∧ ∀ v, Guarded i (k v)
  | .update j _ k => j = i ∧ Guarded i k
  | p => SendsOnly p

section GuardedSimp
variable (j : ι) (a : α) (x : μ) (f : σ → σ) (p : Prog ι σ μ α) (k : σ → Prog ι σ μ α)

omit [DecidableEq ι]

@[simp] theorem guarded_done : Guarded i (.done a : Prog ι σ μ α) := trivial
@[simp] theorem guarded_hang : Guarded i (.hang : Prog ι σ μ α) := trivial
@[simp] theorem guarded_read : Guarded i (.read j k) ↔ j = i ∧ ∀ v, Guarded i (k v) := Iff.rfl
@[simp] theorem guarded_update : Guarded i (.update j f p) ↔ j = i ∧ Guarded i p := Iff.rfl
@[simp] theorem guarded_send : Guarded i (.send x p) ↔ SendsOnly p := Iff.rfl
@[simp] theorem sendsOnly_done : SendsOnly (.done a : Prog ι σ μ α) := trivial
@[simp] theorem sendsOnly_send : SendsOnly (.send x p) ↔ SendsOnly p := Iff.rfl

end GuardedSimp

/-- The run of a guarded body on its cell alone. -/
def Prog.runCell : Prog ι σ μ α → σ → Option (α × σ × List μ)
  | .done a, v => some (a, v, [])
  | .hang, _ => none
  | .lock _ _ k, v => k.runCell v
  | .unlock _ k, v => k.runCell v
  | .read _ k, v => (k v).runCell v
  | .update _ f k, v => k.runCell (f v)
  | .send x k, v => (k.runCell v).map fun r => (r.1, r.2.1, x :: r.2.2)

section RunCellSimp
variable (j : ι) (a : α) (x : μ) (f : σ → σ) (p : Prog ι σ μ α) (k : σ → Prog ι σ μ α) (v : σ)

omit [DecidableEq ι]

@[simp] theorem runCell_done : (Prog.done a : Prog ι σ μ α).runCell v = some (a, v, []) := rfl
@[simp] theorem runCell_hang : (Prog.hang : Prog ι σ μ α).runCell v = none := rfl
@[simp] theorem runCell_read : (Prog.read j k).runCell v = (k v).runCell v := rfl
@[simp] theorem runCell_update : (Prog.update j f p).runCell v = p.runCell (f v) := rfl
@[simp] theorem runCell_send :
    (Prog.send x p).runCell v = (p.runCell v).map fun r => (r.1, r.2.1, x :: r.2.2) := rfl

/-- Running a block on one cell. -/
theorem Prog.runCell_bind (p : Prog ι σ μ α) (f : α → Prog ι σ μ β) (v : σ) :
    (p >>= f).runCell v = (p.runCell v).bind fun r =>
      ((f r.1).runCell r.2.1).map fun q => (q.1, q.2.1, r.2.2 ++ q.2.2) := by
  induction p generalizing v with
  | done a => simp
  | hang => rfl
  | lock i m k ih => exact ih v
  | unlock i k ih => exact ih v
  | read i k ih => exact ih v v
  | update i g k ih => exact ih _
  | send x k ih =>
    rw [Prog.send_bind, runCell_send, ih, runCell_send]
    cases k.runCell v with
    | none => rfl
    | some r => simp [Option.map_map, Function.comp_def]

end RunCellSimp

/-- A guarded body is disciplined under its write lock, released after it. -/
theorem SendsOnly.disciplined {p : Prog ι σ μ α} (h : SendsOnly p) (f : α → β) :
    Tail [(i, Mode.write)] (p >>= fun a => .unlock i (.done (f a)) : Prog ι σ μ β) := by
  induction p with
  | done a => simp [Tail, release]
  | send x k ih => exact ih h
  | hang => exact h.elim
  | lock j m k _ => exact h.elim
  | unlock j k _ => exact h.elim
  | read j k _ => exact h.elim
  | update j g k _ => exact h.elim

theorem Guarded.disciplined {p : Prog ι σ μ α} (h : Guarded i p) (f : α → β) :
    Disciplined [(i, Mode.write)] (p >>= fun a => .unlock i (.done (f a)) : Prog ι σ μ β) := by
  induction p with
  | hang => trivial
  | read j k ih =>
    obtain ⟨rfl, h⟩ := h
    exact ⟨by simp, fun v => ih v (h v)⟩
  | update j g k ih =>
    obtain ⟨rfl, h⟩ := h
    exact ⟨by simp, ih h⟩
  | done a => exact SendsOnly.disciplined (p := .done a) h f
  | send x k _ => exact SendsOnly.disciplined (p := .send x k) h f
  | lock j m k _ => exact h.elim
  | unlock j k _ => exact h.elim

theorem SendsOnly.run_eq {p : Prog ι σ μ α} (h : SendsOnly p) (mem : ι → σ) :
    p.run mem = (p.runCell (mem i)).map fun r => (r.1, Function.update mem i r.2.1, r.2.2) := by
  induction p with
  | done a => simp [Prog.runCell]
  | send x k ih => simp [Prog.runCell, ih h, Option.map_map, Function.comp_def]
  | hang => exact h.elim
  | lock j m k _ => exact h.elim
  | unlock j k _ => exact h.elim
  | read j k _ => exact h.elim
  | update j g k _ => exact h.elim

theorem Guarded.run_eq {p : Prog ι σ μ α} (h : Guarded i p) (mem : ι → σ) :
    p.run mem = (p.runCell (mem i)).map fun r => (r.1, Function.update mem i r.2.1, r.2.2) := by
  induction p generalizing mem with
  | hang => rfl
  | read j k ih =>
    obtain ⟨rfl, h⟩ := h
    exact ih (mem j) (h (mem j)) mem
  | update j g k ih =>
    obtain ⟨rfl, h⟩ := h
    rw [Prog.run_update, ih h, Prog.runCell, Function.update_self]
    simp
  | done a => exact SendsOnly.run_eq (p := .done a) h mem
  | send x k _ => exact SendsOnly.run_eq (p := .send x k) h mem
  | lock j m k _ => exact h.elim
  | unlock j k _ => exact h.elim

end Guarded

section ReadOnly

/-- No update and no send, and an end. -/
def ReadOnly : Prog ι σ μ α → Prop
  | .done _ => True
  | .hang => False
  | .lock _ _ k => ReadOnly k
  | .unlock _ k => ReadOnly k
  | .read _ k => ∀ v, ReadOnly (k v)
  | .update _ _ _ => False
  | .send _ _ => False

theorem ReadOnly.bind {p : Prog ι σ μ α} {f : α → Prog ι σ μ β} (h : ReadOnly p)
    (hf : ∀ a, ReadOnly (f a)) : ReadOnly (p >>= f) := by
  induction p with
  | done a => exact hf a
  | hang => exact h.elim
  | lock i m k ih => exact ih h
  | unlock i k ih => exact ih h
  | read i k ih => exact fun v => ih v (h v)
  | update i g k _ => exact h.elim
  | send x k _ => exact h.elim

theorem ReadOnly.run [DecidableEq ι] {p : Prog ι σ μ α} (h : ReadOnly p) (mem : ι → σ) :
    ∃ a, p.run mem = some (a, mem, []) := by
  induction p with
  | done b => exact ⟨b, rfl⟩
  | hang => exact h.elim
  | lock i m k ih => exact ih h
  | unlock i k ih => exact ih h
  | read i k ih => exact ih (mem i) (h (mem i))
  | update i g k _ => exact h.elim
  | send x k _ => exact h.elim

end ReadOnly

section Sends

/-- Every message the program may send has the property. -/
def Sends (P : μ → Prop) : Prog ι σ μ α → Prop
  | .done _ => True
  | .hang => True
  | .lock _ _ k => Sends P k
  | .unlock _ k => Sends P k
  | .read _ k => ∀ v, Sends P (k v)
  | .update _ _ k => Sends P k
  | .send x k => P x ∧ Sends P k

variable {P : μ → Prop}

theorem Sends.bind {p : Prog ι σ μ α} {f : α → Prog ι σ μ β} (h : Sends P p)
    (hf : ∀ a, Sends P (f a)) : Sends P (p >>= f) := by
  induction p with
  | done a => exact hf a
  | hang => trivial
  | lock i m k ih => exact ih h
  | unlock i k ih => exact ih h
  | read i k ih => exact fun v => ih v (h v)
  | update i g k ih => exact ih h
  | send x k ih => exact ⟨h.1, ih h.2⟩

theorem Sends.run [DecidableEq ι] {p : Prog ι σ μ α} (h : Sends P p) {mem mem' : ι → σ} {a : α}
    {xs : List μ} (hrun : p.run mem = some (a, mem', xs)) : ∀ x ∈ xs, P x := by
  induction p generalizing mem xs with
  | done b =>
    obtain ⟨-, -, rfl⟩ := by simpa using hrun
    simp
  | hang => cases hrun
  | lock i m k ih => exact ih h hrun
  | unlock i k ih => exact ih h hrun
  | read i k ih => exact ih (mem i) (h (mem i)) hrun
  | update i g k ih => exact ih h hrun
  | send x k ih =>
    obtain ⟨⟨b, mem₁, ys⟩, hk, heq⟩ := Option.map_eq_some_iff.mp hrun
    obtain ⟨rfl, rfl, rfl⟩ := by simpa using heq
    exact List.forall_mem_cons.mpr ⟨h.1, ih h.2 hk⟩

/-- No run of the program sends more messages. -/
def SendsAtMost : Nat → Prog ι σ μ α → Prop
  | _, .done _ => True
  | _, .hang => True
  | n, .lock _ _ k => SendsAtMost n k
  | n, .unlock _ k => SendsAtMost n k
  | n, .read _ k => ∀ v, SendsAtMost n (k v)
  | n, .update _ _ k => SendsAtMost n k
  | 0, .send _ _ => False
  | n + 1, .send _ k => SendsAtMost n k

theorem SendsAtMost.bind {p : Prog ι σ μ α} {f : α → Prog ι σ μ β} {m n : Nat} (h : SendsAtMost m p)
    (hf : ∀ a, SendsAtMost n (f a)) : SendsAtMost (n + m) (p >>= f) := by
  induction p generalizing m with
  | done a =>
    have hmono : ∀ {k : Nat} {q : Prog ι σ μ β}, SendsAtMost k q → SendsAtMost (k + m) q := by
      intro k q hq
      induction q generalizing k with
      | done a | hang => cases k <;> cases m <;> trivial
      | lock i _ q ih | unlock i q ih | update i _ q ih => exact ih hq
      | read i q ih => exact fun v => ih v (hq v)
      | send x q ih =>
        cases k with
        | zero => exact hq.elim
        | succ k =>
          rw [Nat.add_right_comm]
          exact ih hq
    exact hmono (hf a)
  | hang => trivial
  | lock i _ k ih | unlock i k ih | update i _ k ih => exact ih h
  | read i k ih => exact fun v => ih v (h v)
  | send x k ih =>
    cases m with
    | zero => exact h.elim
    | succ m => exact ih (m := m) h

theorem SendsAtMost.run [DecidableEq ι] {p : Prog ι σ μ α} {n : Nat} (h : SendsAtMost n p)
    {mem mem' : ι → σ} {a : α}
    {xs : List μ} (hrun : p.run mem = some (a, mem', xs)) : xs.length ≤ n := by
  induction p generalizing mem xs n with
  | done b =>
    obtain ⟨-, -, rfl⟩ := by simpa using hrun
    exact Nat.zero_le n
  | hang => cases hrun
  | lock i _ k ih | unlock i k ih | update i _ k ih => exact ih h hrun
  | read i k ih => exact ih (mem i) (h (mem i)) hrun
  | send x k ih =>
    obtain ⟨⟨b, mem₁, ys⟩, hk, heq⟩ := Option.map_eq_some_iff.mp hrun
    obtain ⟨rfl, rfl, rfl⟩ := by simpa using heq
    cases n with
    | zero => exact h.elim
    | succ n => exact Nat.succ_le_succ (ih h hk)

end Sends

section Yields

/-- Every result the program may have, whatever it reads, has the property. -/
def Yields (P : α → Prop) : Prog ι σ μ α → Prop
  | .done a => P a
  | .hang => True
  | .lock _ _ k => Yields P k
  | .unlock _ k => Yields P k
  | .read _ k => ∀ v, Yields P (k v)
  | .update _ _ k => Yields P k
  | .send _ k => Yields P k

/-- What comes last decides. -/
theorem Yields.bind {P : β → Prop} (p : Prog ι σ μ α) {f : α → Prog ι σ μ β}
    (hf : ∀ a, Yields P (f a)) : Yields P (p >>= f) := by
  induction p with
  | done a => exact hf a
  | hang => trivial
  | lock i m k ih => exact ih
  | unlock i k ih => exact ih
  | read i k ih => exact fun v => ih v
  | update i g k ih => exact ih
  | send x k ih => exact ih

end Yields

end TwoPhase
