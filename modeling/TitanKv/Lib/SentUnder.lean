import TitanKv.Lib.Fifo
import TitanKv.Lib.LogOrder

/-! # Messages sent under locks

A message touches cells. If every message is sent while its sender holds the write
locks of the cells it touches, no send overtakes an earlier message that touches one
of these, and `SendOk` holds of every step of every run. -/

namespace TwoPhase
open Runs Fifo

variable {n : Nat} {ι σ μ κ α β : Type} [DecidableEq ι] {touches : μ → ι → Prop}
  {held : List (ι × Mode)}

/-- With the locks `held`, each message is sent under the write locks of all it touches. -/
def SendsUnder (touches : μ → ι → Prop) : List (ι × Mode) → Prog ι σ μ α → Prop
  | _, .done _ => True
  | _, .hang => True
  | held, .lock i m k => SendsUnder touches ((i, m) :: held) k
  | held, .unlock i k => SendsUnder touches (release i held) k
  | held, .read _ k => ∀ v, SendsUnder touches held (k v)
  | held, .update _ _ k => SendsUnder touches held k
  | held, .send x k => (∀ i, touches x i → (i, Mode.write) ∈ held) ∧ SendsUnder touches held k

/-- A call past its last access still holds all its messages touch. -/
theorem SendsUnder.pending {p : Prog ι σ μ α} (h : SendsUnder touches held p) :
    ∀ x ∈ p.pending, ∀ i, touches x i → (i, Mode.write) ∈ held := by
  induction p generalizing held with
  | unlock j k ih => exact fun x hx i hi => (mem_release.mp (ih h x hx i hi)).1
  | send y k ih => exact List.forall_mem_cons.mpr ⟨h.1, ih h.2⟩
  | done _ | hang | lock _ _ _ _ | read _ _ _ | update _ _ _ _ =>
    exact fun x hx => absurd hx List.not_mem_nil

theorem ReadOnly.sendsUnder {p : Prog ι σ μ α} (h : ReadOnly p) : SendsUnder touches held p := by
  induction p generalizing held with
  | done a => trivial
  | lock i m k ih | unlock i k ih => exact ih h
  | read i k ih => exact fun v => ih v (h v)
  | hang | update _ _ _ _ | send _ _ _ => exact h.elim

/-- A part that takes and releases no lock, then the rest. -/
theorem SendsUnder.of_noLocks {P : μ → Prop} {p : Prog ι σ μ α} {f : α → Prog ι σ μ β}
    (h : NoLocks p)
    (hsends : Sends P (p >>= f)) (hP : ∀ x, P x → ∀ i, touches x i → (i, Mode.write) ∈ held)
    (hf : ∀ a, SendsUnder touches held (f a)) : SendsUnder touches held (p >>= f) := by
  induction p with
  | done a => exact hf a
  | read i k ih => exact fun v => ih v (h v) (hsends v)
  | update i g k ih => exact ih h hsends
  | send x k ih => exact ⟨hP x hsends.1, ih h hsends.2⟩
  | hang | lock _ _ _ _ | unlock _ _ _ => exact h.elim

def Phase.program? : Phase ι σ μ κ α → Option (Prog ι σ μ α)
  | .idle => none
  | .active _ p | .closing _ p => some p

/-- All that a client has still to run sends under its locks. -/
structure Client.Under (touches : μ → ι → Prop) (prog : κ → Prog ι σ μ α) (x : Client ι σ μ κ α) :
    Prop where
  todo : ∀ c ∈ x.todo, SendsUnder touches [] (prog c)
  runs : ∀ p, x.phase.program? = some p → SendsUnder touches x.held p

section Step
variable {prog : κ → Prog ι σ μ α} {calls : Fin n → List κ} {mem₀ abs : ι → σ}
  {s s' : Sys n ι σ μ κ α} {t : Fin n} {c : κ}

/-- Only the stepping client's record changes. -/
theorem Client.Under.set (h : ∀ u, (s.clients u).Under touches prog) {x : Client ι σ μ κ α}
    (hclients : s'.clients = (s.setClient t x).clients) (hx : x.Under touches prog) :
    ∀ u, (s'.clients u).Under touches prog := by
  intro u
  rw [hclients]
  by_cases hu : u = t
  · subst hu
    rw [Sys.setClient_self]
    exact hx
  · rw [Sys.setClient_of_ne s _ hu]
    exact h u

theorem Client.Under.close (h : ∀ u, (s.clients u).Under touches prog) {p : Prog ι σ μ α}
    (hp : (s.clients t).phase = .closing c p) (hs : s.close t c p = some s') :
    ∀ u, (s'.clients u).Under touches prog := by
  have hrun := (h t).runs p (by rw [hp]; rfl)
  cases p with
  | done b =>
    obtain rfl := Option.some.inj hs
    exact set h rfl ⟨(h t).todo, nofun⟩
  | unlock i k =>
    obtain rfl := Option.some.inj hs
    exact set h rfl ⟨(h t).todo, fun q hq => Option.some.inj hq ▸ hrun⟩
  | send x k =>
    obtain rfl := Option.some.inj hs
    exact set h rfl ⟨(h t).todo, fun q hq => Option.some.inj hq ▸ hrun.2⟩
  | hang | lock _ _ _ | read _ _ | update _ _ _ => cases hs

theorem Client.Under.commit (h : ∀ u, (s.clients u).Under touches prog) {p : Prog ι σ μ α}
    (hp : (s.clients t).phase = .active c p) (hs : (s.commit t c p).close t c p = some s') :
    ∀ u, (s'.clients u).Under touches prog := by
  have hcommit : ∀ u, ((s.commit t c p).clients u).Under touches prog :=
    set h rfl ⟨(h t).todo, fun q hq => (h t).runs q (by rw [hp]; exact hq)⟩
  exact close hcommit (congrArg Client.phase (Sys.setClient_self s t _)) hs

theorem Client.Under.step (hserial : SerialInv prog mem₀ s abs)
    (h : ∀ u, (s.clients u).Under touches prog)
    (hs : s.step prog t = some s') : ∀ u, (s'.clients u).Under touches prog := by
  unfold Sys.step at hs
  have hc := hserial.client t
  unfold ClientInv at hc
  cases hp : (s.clients t).phase with
  | idle =>
    rw [hp] at hs hc
    cases htodo : (s.clients t).todo with
    | nil =>
      rw [htodo] at hs
      cases hs
    | cons d ds =>
      rw [htodo] at hs
      obtain rfl := Option.some.inj hs
      have hcalls := (h t).todo
      rw [htodo] at hcalls
      refine set h rfl ⟨fun e he => hcalls e (List.mem_cons_of_mem _ he), fun q hq => ?_⟩
      obtain rfl := Option.some.inj hq
      show SendsUnder touches (s.clients t).held (prog d)
      rw [hc]
      exact hcalls d List.mem_cons_self
  | closing d p =>
    rw [hp] at hs
    exact close h hp hs
  | active d p =>
    rw [hp] at hs
    have hrun := (h t).runs p (by rw [hp]; rfl)
    cases p with
    | hang =>
      obtain rfl := Option.some.inj hs
      exact h
    | lock i m k =>
      dsimp only at hs
      split at hs
      · obtain rfl := Option.some.inj hs
        exact set h rfl ⟨(h t).todo, fun q hq => Option.some.inj hq ▸ hrun⟩
      · cases hs
    | read i k =>
      obtain rfl := Option.some.inj hs
      exact set h rfl ⟨(h t).todo, fun q hq => Option.some.inj hq ▸ hrun _⟩
    | update i f k =>
      obtain rfl := Option.some.inj hs
      exact set h rfl ⟨(h t).todo, fun q hq => Option.some.inj hq ▸ hrun⟩
    | done b | unlock i k | send x k => exact commit h hp hs

theorem Client.Under.sends (h : (s.clients t).Under touches prog) {x : μ} (hx : s.Sends t x) {i : ι}
    (hi : touches x i) :
    (i, Mode.write) ∈ (s.clients t).held := by
  obtain ⟨c, k, hp | hp⟩ := hx
  · exact (h.runs (.send x k) (by rw [hp]; rfl)).1 i hi
  · exact (h.runs (.send x k) (by rw [hp]; rfl)).1 i hi

theorem Client.Under.waits (h : (s.clients t).Under touches prog) {x : μ}
    (hx : x ∈ (s.clients t).pending) {i : ι}
    (hi : touches x i) : (i, Mode.write) ∈ (s.clients t).held := by
  unfold Client.pending at hx
  cases hp : (s.clients t).phase with
  | closing c p =>
    rw [hp] at hx
    exact (h.runs p (by rw [hp]; rfl)).pending x hx i hi
  | idle | active _ _ =>
    rw [hp] at hx
    exact absurd hx List.not_mem_nil

/-- Two clients hold nothing in common, so their messages are independent. -/
theorem sendOk_of_under {δ : Type} {act : μ → δ → δ} {view : (ι → σ) → δ} {indep : μ → μ → Prop}
    (hindep : ∀ x y, (∀ i, touches x i → ¬ touches y i) → indep x y)
    (hserial : SerialInv prog mem₀ s abs)
    (hlog : LogInv act view mem₀ s abs) (h : ∀ u, (s.clients u).Under touches prog) :
    SendOk indep s t := by
  intro x hx y hy
  obtain ⟨e, he, rfl⟩ := List.mem_map.mp hy
  have hne : e.1 ≠ t := by simpa using List.mem_takeWhile_imp he
  have hpending : e.2 ∈ (s.clients e.1).pending := by
    rw [← hlog.pending e.1]
    exact List.mem_map.mpr ⟨e, List.mem_filter.mpr ⟨List.takeWhile_subset _ he, by simp⟩, rfl⟩
  exact hindep x e.2 fun i hxi hyi =>
    hserial.exclusive t e.1 i .write (Ne.symm hne) ((h t).sends hx hxi) ((h e.1).waits hpending hyi)

/-- No step of a run needs a condition. -/
theorem reachable_sendOk {δ : Type} {act : μ → δ → δ} {view : (ι → σ) → δ} {indep : μ → μ → Prop}
    (hdisc : ∀ d, Disciplined [] (prog d))
    (hcomm : ∀ x y, indep x y → ∀ d, act x (act y d) = act y (act x d))
    (hview : ∀ c mem a mem' xs, (prog c).run mem = some (a, mem', xs) →
      view mem' = applyAll act xs (view mem))
    (hindep : ∀ x y, (∀ i, touches x i → ¬ touches y i) → indep x y)
    (hcalls : ∀ t, ∀ c ∈ calls t, SendsUnder touches [] (prog c))
    (hreach : Reachable (Sys.step prog) anyStep (Sys.init mem₀ calls) s) :
    Reachable (Sys.step prog) (SendOk indep) (Sys.init mem₀ calls) s := by
  suffices h : Reachable (Sys.step prog) (SendOk indep) (Sys.init mem₀ calls) s ∧
      ∀ u, (s.clients u).Under touches prog from h.1
  induction hreach with
  | init => exact ⟨.init, fun u => ⟨hcalls u, nofun⟩⟩
  | step _ _ hstep ih =>
    obtain ⟨hok, hunder⟩ := ih
    obtain ⟨abs, hserial, hlog⟩ := loggedInv_reachable hdisc hcomm hview hok
    exact ⟨.step hok (sendOk_of_under hindep hserial hlog hunder) hstep,
      Client.Under.step hserial hunder hstep⟩

end Step

end TwoPhase
