import TitanKv.Lib.Runs
import TitanKv.Lib.TwoPhase

/-! # Concurrent clients over locked cells

`n` clients each run a list of calls; a call is a program over the shared
cells. One step is one primitive operation of one client: a read lock is
granted when no client holds the cell for writing, a write lock when no client
holds it. `history` records when each call starts and ends. `order` and
`unsent` are auxiliary: a call enters `order` at its first release or send (or
at its end), which is after its last access, and the messages it has yet to
send wait in `unsent`. -/

namespace TwoPhase

structure Call (n : Nat) (κ : Type) where
  client : Fin n
  seq : Nat
  call : κ
  deriving DecidableEq

structure Executed (n : Nat) (κ α : Type) extends Call n κ where
  reply : α
  deriving DecidableEq

inductive Event (n : Nat) (κ α : Type) where
  | started (c : Call n κ)
  | finished (e : Executed n κ α)
  deriving DecidableEq

inductive Phase (ι σ μ κ α : Type) where
  | idle
  | active (c : κ) (p : Prog ι σ μ α)
  | closing (c : κ) (p : Prog ι σ μ α)

structure Client (ι σ μ κ α : Type) where
  todo : List κ
  count : Nat
  held : List (ι × Mode)
  phase : Phase ι σ μ κ α

structure Sys (n : Nat) (ι σ μ κ α : Type) where
  mem : ι → σ
  clients : Fin n → Client ι σ μ κ α
  sent : List μ
  history : List (Event n κ α)
  order : List (Executed n κ α)
  unsent : List (Fin n × μ)

variable {n : Nat} {ι σ μ κ α : Type} [DecidableEq ι]

namespace Sys

def init (mem : ι → σ) (calls : Fin n → List κ) : Sys n ι σ μ κ α where
  mem := mem
  clients t := { todo := calls t, count := 0, held := [], phase := .idle }
  sent := []
  history := []
  order := []
  unsent := []

/-- When a lock on a cell is granted. -/
def Grants (s : Sys n ι σ μ κ α) (i : ι) : Mode → Prop
  | .read => ∀ t, (i, Mode.write) ∉ (s.clients t).held
  | .write => ∀ t, i ∉ (s.clients t).held.map Prod.fst

instance (s : Sys n ι σ μ κ α) (i : ι) (m : Mode) : Decidable (s.Grants i m) :=
  match m with
  | .read => inferInstanceAs (Decidable (∀ t, (i, Mode.write) ∉ (s.clients t).held))
  | .write => inferInstanceAs (Decidable (∀ t, i ∉ (s.clients t).held.map Prod.fst))

def setClient (s : Sys n ι σ μ κ α) (t : Fin n) (c : Client ι σ μ κ α) : Sys n ι σ μ κ α :=
  { s with clients := Function.update s.clients t c }

/-- The call client `t` runs, or runs next. -/
def callOf (s : Sys n ι σ μ κ α) (t : Fin n) (c : κ) : Call n κ := ⟨t, (s.clients t).count, c⟩

/-- The auxiliary move past the last access of a call. -/
def commit (s : Sys n ι σ μ κ α) (t : Fin n) (c : κ) (p : Prog ι σ μ α) : Sys n ι σ μ κ α :=
  { s.setClient t { s.clients t with phase := .closing c p } with
    order := s.order ++ (p.reply?.map fun a => ⟨s.callOf t c, a⟩).toList
    unsent := s.unsent ++ p.pending.map fun x => (t, x) }

/-- One release, one send, or the end of the call. -/
def close (s : Sys n ι σ μ κ α) (t : Fin n) (c : κ) : Prog ι σ μ α → Option (Sys n ι σ μ κ α)
  | .done a => some
      { s.setClient t { s.clients t with count := (s.clients t).count + 1, phase := .idle } with
        history := s.history ++ [.finished ⟨s.callOf t c, a⟩] }
  | .unlock i k => some (s.setClient t
      { s.clients t with held := release i (s.clients t).held, phase := .closing c k })
  | .send x k => some
      { s.setClient t { s.clients t with phase := .closing c k } with
        sent := s.sent ++ [x]
        unsent := s.unsent.eraseP fun e => e.1 = t }
  | _ => none

/-- One primitive operation of client `t`; `none` while it is blocked or has
nothing left to run. -/
def step (prog : κ → Prog ι σ μ α) (s : Sys n ι σ μ κ α) (t : Fin n) :
    Option (Sys n ι σ μ κ α) :=
  match (s.clients t).phase with
  | .idle =>
    match (s.clients t).todo with
    | [] => none
    | c :: cs => some
        { s.setClient t { s.clients t with todo := cs, phase := .active c (prog c) } with
          history := s.history ++ [.started (s.callOf t c)] }
  | .active c p =>
    match p with
    | .hang => some s
    | .lock i m k =>
      if s.Grants i m then
        some (s.setClient t
          { s.clients t with held := (i, m) :: (s.clients t).held, phase := .active c k })
      else none
    | .read i k => some (s.setClient t { s.clients t with phase := .active c (k (s.mem i)) })
    | .update i f k => some
        { s.setClient t { s.clients t with phase := .active c k } with
          mem := Function.update s.mem i (f (s.mem i)) }
    | .done a => (s.commit t c (.done a)).close t c (.done a)
    | .unlock i k => (s.commit t c (.unlock i k)).close t c (.unlock i k)
    | .send x k => (s.commit t c (.send x k)).close t c (.send x k)
  | .closing c p => s.close t c p

/-- What one step of client `t` does: it starts a call, runs an operation
before the last access, commits and closes, or goes on closing. -/
inductive Move (prog : κ → Prog ι σ μ α) (s : Sys n ι σ μ κ α) (t : Fin n) :
    Sys n ι σ μ κ α → Prop
  | start {c : κ} {cs : List κ} (hp : (s.clients t).phase = .idle) :
      Move prog s t
        { s.setClient t { s.clients t with todo := cs, phase := .active c (prog c) } with
          history := s.history ++ [.started (s.callOf t c)] }
  | access {c : κ} {p q : Prog ι σ μ α} {held : List (ι × Mode)} {mem : ι → σ}
      (hp : (s.clients t).phase = .active c p) (hacc : ∀ l, ¬ Tail l p) :
      Move prog s t
        { s.setClient t { s.clients t with held := held, phase := .active c q } with mem := mem }
  | commit {c : κ} {p : Prog ι σ μ α} {s' : Sys n ι σ μ κ α}
      (hp : (s.clients t).phase = .active c p) (htail : ∀ l, Disciplined l p → Tail l p)
      (hclose : (s.commit t c p).close t c p = some s') : Move prog s t s'
  | close {c : κ} {p : Prog ι σ μ α} {s' : Sys n ι σ μ κ α}
      (hp : (s.clients t).phase = .closing c p) (hclose : s.close t c p = some s') :
      Move prog s t s'

omit [DecidableEq ι] in
theorem setClient_self (s : Sys n ι σ μ κ α) (t : Fin n) (x : Client ι σ μ κ α) :
    (s.setClient t x).clients t = x := by simp [setClient]

omit [DecidableEq ι] in
theorem setClient_of_ne (s : Sys n ι σ μ κ α) {t t' : Fin n} (x : Client ι σ μ κ α)
    (h : t' ≠ t) : (s.setClient t x).clients t' = s.clients t' := by
  simp [setClient, h]

omit [DecidableEq ι] in
theorem setClient_same (s : Sys n ι σ μ κ α) (t : Fin n) : s.setClient t (s.clients t) = s := by
  simp [setClient]

theorem step_move {prog : κ → Prog ι σ μ α} {s s' : Sys n ι σ μ κ α} {t : Fin n}
    (hs : s.step prog t = some s') : Move prog s t s' := by
  unfold step at hs
  cases hp : (s.clients t).phase with
  | idle =>
    rw [hp] at hs
    cases htodo : (s.clients t).todo with
    | nil => rw [htodo] at hs; cases hs
    | cons c cs =>
      rw [htodo] at hs
      obtain rfl := Option.some.inj hs
      exact .start hp
  | closing c p =>
    rw [hp] at hs
    exact .close hp hs
  | active c p =>
    rw [hp] at hs
    cases p with
    | hang =>
      obtain rfl := Option.some.inj hs
      have hmove := @Move.access n ι σ μ κ α _ prog s t c .hang .hang (s.clients t).held s.mem hp
        (fun _ => id)
      rwa [← hp, setClient_same] at hmove
    | lock i m k =>
      dsimp only at hs
      split at hs
      · obtain rfl := Option.some.inj hs
        exact .access hp fun _ => id
      · cases hs
    | read i k => obtain rfl := Option.some.inj hs; exact .access hp fun _ => id
    | update i f k => obtain rfl := Option.some.inj hs; exact .access hp fun _ => id
    | done b => exact .commit hp (fun _ => id) hs
    | unlock i k => exact .commit hp (fun _ => id) hs
    | send x k => exact .commit hp (fun _ => id) hs

/-- No call is in progress. -/
def Quiet (s : Sys n ι σ μ κ α) : Prop := ∀ t, (s.clients t).phase = .idle

/-- The calls that have ended, with their replies. -/
def executed (s : Sys n ι σ μ κ α) : List (Executed n κ α) :=
  s.history.filterMap fun
    | .started _ => none
    | .finished e => some e

end Sys

/-- Running calls one at a time: their replies and the cells they leave. -/
def execAll (prog : κ → Prog ι σ μ α) : List κ → (ι → σ) → Option (List α × (ι → σ))
  | [], mem => some ([], mem)
  | c :: cs, mem => ((prog c).run mem).bind fun r =>
      (execAll prog cs r.2.1).map fun q => (r.1 :: q.1, q.2)

theorem execAll_snoc {prog : κ → Prog ι σ μ α} {cs : List κ} {mem mem' mem'' : ι → σ}
    {as : List α} {c : κ} {a : α} {xs : List μ} (h : execAll prog cs mem = some (as, mem'))
    (hc : (prog c).run mem' = some (a, mem'', xs)) :
    execAll prog (cs ++ [c]) mem = some (as ++ [a], mem'') := by
  induction cs generalizing mem as with
  | nil =>
    simp only [execAll, Option.some.injEq, Prod.mk.injEq] at h
    obtain ⟨rfl, rfl⟩ := h
    simp [execAll, hc]
  | cons d cs ih =>
    obtain ⟨r, hr, hrest⟩ := Option.bind_eq_some_iff.mp h
    obtain ⟨⟨bs, m⟩, hq, he⟩ := Option.map_eq_some_iff.mp hrest
    obtain ⟨rfl, rfl⟩ := Prod.mk.inj he
    simp [execAll, hr, ih hq]

end TwoPhase
