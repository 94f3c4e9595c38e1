import Mathlib.Data.List.TakeWhile
import TitanKv.Lib.Serial

/-! # The order of messages sent after the locks are released

Messages act on an abstract state `δ`, and each call's messages act there as
the call acts on the cells. A message sent after its locks are released may
overtake an earlier one; the log stays a legal serialisation in every run in
which each send overtakes only messages it commutes with. -/

namespace TwoPhase
open Runs

variable {n : Nat} {ι σ μ κ α δ : Type} [DecidableEq ι] {prog : κ → Prog ι σ μ α}

def applyAll (act : μ → δ → δ) (xs : List μ) (d : δ) : δ := xs.foldl (fun d x => act x d) d

@[simp] theorem applyAll_nil (act : μ → δ → δ) (d : δ) : applyAll act [] d = d := rfl

@[simp] theorem applyAll_cons (act : μ → δ → δ) (x : μ) (xs : List μ) (d : δ) :
    applyAll act (x :: xs) d = applyAll act xs (act x d) := rfl

@[simp] theorem applyAll_append (act : μ → δ → δ) (xs ys : List μ) (d : δ) :
    applyAll act (xs ++ ys) d = applyAll act ys (applyAll act xs d) := by
  simp [applyAll]

/-- A message may move in front of messages it is independent of. -/
theorem applyAll_overtake {act : μ → δ → δ} {indep : μ → μ → Prop}
    (hcomm : ∀ x y, indep x y → ∀ d, act x (act y d) = act y (act x d)) {x : μ} {xs : List μ}
    (h : ∀ y ∈ xs, indep x y) (d : δ) : applyAll act (x :: xs) d = applyAll act (xs ++ [x]) d := by
  induction xs generalizing d with
  | nil => rfl
  | cons y ys ih =>
    have hxy : act y (act x d) = act x (act y d) := (hcomm x y (h y (by simp)) d).symm
    have hrest := ih (fun z hz => h z (List.mem_cons_of_mem _ hz)) (act y d)
    simp only [applyAll_cons, List.cons_append] at hrest ⊢
    rw [hxy, hrest]

/-- Client `t` is about to send `x`. -/
def Sys.Sends (s : Sys n ι σ μ κ α) (t : Fin n) (x : μ) : Prop :=
  ∃ c k, (s.clients t).phase = .active c (.send x k) ∨ (s.clients t).phase = .closing c (.send x k)

/-- The messages of calls that committed before the one client `t` is running
and are still to be sent. -/
def Sys.earlier (s : Sys n ι σ μ κ α) (t : Fin n) : List μ :=
  (s.unsent.takeWhile fun e => e.1 ≠ t).map Prod.snd

/-- The send of client `t`, if its step is one, overtakes only messages it is
independent of. -/
def SendOk (indep : μ → μ → Prop) (s : Sys n ι σ μ κ α) (t : Fin n) : Prop :=
  ∀ x, s.Sends t x → ∀ y ∈ s.earlier t, indep x y

/-- The message that client `t` is about to send. -/
def Sys.message? (s : Sys n ι σ μ κ α) (t : Fin n) : Option μ :=
  match (s.clients t).phase with
  | .active _ (.send x _) | .closing _ (.send x _) => some x
  | _ => none

omit [DecidableEq ι] in
theorem Sys.sends_iff {s : Sys n ι σ μ κ α} {t : Fin n} {x : μ} :
    s.Sends t x ↔ s.message? t = some x := by
  unfold Sys.Sends Sys.message?
  constructor
  · rintro ⟨c, k, hp | hp⟩ <;> rw [hp]
  · intro h
    split at h
    · rename_i c y k hp
      exact ⟨c, k, Or.inl (Option.some.inj h ▸ hp)⟩
    · rename_i c y k hp
      exact ⟨c, k, Or.inr (Option.some.inj h ▸ hp)⟩
    · cases h

instance (indep : μ → μ → Prop) [DecidableRel indep] (s : Sys n ι σ μ κ α) (t : Fin n) :
    Decidable (SendOk indep s t) :=
  decidable_of_iff ((s.message? t).all fun x => (s.earlier t).all fun y => indep x y) (by
    simp only [Option.all_eq_true, List.all_eq_true, decide_eq_true_eq]
    exact forall_congr' fun x => imp_congr_left Sys.sends_iff.symm)

def Client.pending (x : Client ι σ μ κ α) : List μ :=
  match x.phase with
  | .closing _ p => p.pending
  | _ => []

structure LogInv (act : μ → δ → δ) (view : (ι → σ) → δ) (mem₀ : ι → σ) (s : Sys n ι σ μ κ α)
    (abs : ι → σ) : Prop where
  log : applyAll act (s.sent ++ s.unsent.map Prod.snd) (view mem₀) = view abs
  pending : ∀ t, (s.unsent.filter fun e => e.1 = t).map Prod.snd = (s.clients t).pending

variable {act : μ → δ → δ} {view : (ι → σ) → δ} {mem₀ abs : ι → σ} {s : Sys n ι σ μ κ α}
  {t : Fin n} {c : κ}

/-- The first message of `t` in the queue splits it. -/
theorem split_first {q : List (Fin n × μ)} {x : μ} {xs : List μ}
    (h : (q.filter fun e => e.1 = t).map Prod.snd = x :: xs) :
    q = (q.takeWhile fun e => e.1 ≠ t) ++
      (t, x) :: q.drop ((q.takeWhile fun e => e.1 ≠ t).length + 1) ∧
      q.eraseP (fun e => e.1 = t) =
        (q.takeWhile fun e => e.1 ≠ t) ++ q.drop ((q.takeWhile fun e => e.1 ≠ t).length + 1) := by
  induction q with
  | nil => simp at h
  | cons e q ih =>
    by_cases he : e.1 = t
    · obtain ⟨u, y⟩ := e
      obtain rfl : u = t := he
      have hy : y = x := by simpa using (List.cons.inj (by simpa using h)).1
      simp [hy]
    · have hrest : (q.filter fun e => e.1 = t).map Prod.snd = x :: xs := by
        simpa [he] using h
      obtain ⟨h₁, h₂⟩ := ih hrest
      constructor
      · simpa [he] using h₁
      · simpa [he] using h₂

theorem filter_eraseP_self (q : List (Fin n × μ)) (t : Fin n) :
    ((q.eraseP fun e => e.1 = t).filter fun e => e.1 = t) =
      (q.filter fun e => e.1 = t).tail := by
  induction q with
  | nil => rfl
  | cons e q ih => by_cases he : e.1 = t <;> simp [he, ih]

theorem filter_eraseP_of_ne (q : List (Fin n × μ)) {t u : Fin n} (h : u ≠ t) :
    ((q.eraseP fun e => e.1 = t).filter fun e => e.1 = u) = q.filter fun e => e.1 = u := by
  induction q with
  | nil => rfl
  | cons e q ih =>
    by_cases he : e.1 = t
    · simp [he, Ne.symm h]
    · simp only [List.eraseP_cons, he, decide_false, cond_false, List.filter_cons, ih]

omit [DecidableEq ι] in
theorem LogInv.init {calls : Fin n → List κ} :
    LogInv act view mem₀ (Sys.init mem₀ calls : Sys n ι σ μ κ α) mem₀ where
  log := rfl
  pending _ := rfl

omit [DecidableEq ι] in
/-- Steps that send nothing and commit nothing. -/
theorem LogInv.rephase (h : LogInv act view mem₀ s abs) {s' : Sys n ι σ μ κ α}
    {x : Client ι σ μ κ α} (hsent : s'.sent = s.sent) (hunsent : s'.unsent = s.unsent)
    (hclients : s'.clients = (s.setClient t x).clients) (hx : x.pending = (s.clients t).pending) :
    LogInv act view mem₀ s' abs := by
  refine ⟨by rw [hsent, hunsent]; exact h.log, fun u => ?_⟩
  rw [hunsent, hclients, h.pending u]
  by_cases hu : u = t
  · subst hu; rw [Sys.setClient_self, hx]
  · rw [Sys.setClient_of_ne s _ hu]

omit [DecidableEq ι] in
theorem LogInv.commit (h : LogInv act view mem₀ s abs) {p : Prog ι σ μ α} {abs' : ι → σ}
    (hp : (s.clients t).phase = .active c p)
    (hview : view abs' = applyAll act p.pending (view abs)) :
    LogInv act view mem₀ (s.commit t c p) abs' := by
  have hnone : (s.clients t).pending = [] := by unfold Client.pending; rw [hp]
  have hmap : (p.pending.map fun x => (t, x)).map Prod.snd = p.pending := by
    simp [List.map_map, Function.comp_def]
  constructor
  · show applyAll act (s.sent ++ (s.unsent ++ p.pending.map fun x => (t, x)).map Prod.snd)
      (view mem₀) = view abs'
    rw [List.map_append, hmap, ← List.append_assoc, applyAll_append, h.log, hview]
  · intro u
    show ((s.unsent ++ p.pending.map fun x => (t, x)).filter fun e => e.1 = u).map Prod.snd = _
    rw [List.filter_append, List.map_append, h.pending u]
    by_cases hu : u = t
    · subst hu
      rw [hnone, List.filter_eq_self.mpr (by simp), hmap]
      simp [Sys.commit, Sys.setClient, Client.pending]
    · rw [List.filter_eq_nil_iff.mpr (by simp [Ne.symm hu])]
      simp [Sys.commit, Sys.setClient, hu]

theorem LogInv.close (h : LogInv act view mem₀ s abs) {indep : μ → μ → Prop}
    (hcomm : ∀ x y, indep x y → ∀ d, act x (act y d) = act y (act x d)) {p : Prog ι σ μ α}
    (hp : (s.clients t).phase = .closing c p) (hok : SendOk indep s t) {s' : Sys n ι σ μ κ α}
    (hs : s.close t c p = some s') : LogInv act view mem₀ s' abs := by
  cases p with
  | hang => cases hs
  | lock i m k => cases hs
  | read i k => cases hs
  | update i f k => cases hs
  | done b =>
    obtain rfl := Option.some.inj hs
    exact h.rephase rfl rfl rfl (by simp [Client.pending, hp, Prog.pending])
  | unlock i k =>
    obtain rfl := Option.some.inj hs
    exact h.rephase rfl rfl rfl (by simp [Client.pending, hp, Prog.pending])
  | send x k =>
    obtain rfl := Option.some.inj hs
    have hpend : (s.unsent.filter fun e => e.1 = t).map Prod.snd = x :: k.pending := by
      rw [h.pending t]; simp [Client.pending, hp, Prog.pending]
    obtain ⟨hsplit, herase⟩ := split_first hpend
    constructor
    · have hover := applyAll_overtake hcomm (hok x ⟨c, k, Or.inr hp⟩)
        (applyAll act s.sent (view mem₀))
      have hlog := h.log
      rw [hsplit] at hlog
      simp only [Sys.earlier, List.map_append, List.map_cons, applyAll_append, applyAll_cons,
        applyAll_nil] at hlog hover ⊢
      rw [herase, List.map_append, applyAll_append, hover]
      exact hlog
    · intro u
      by_cases hu : u = t
      · subst hu
        have htail : ((s.unsent.filter fun e => e.1 = u).tail).map Prod.snd = k.pending := by
          rw [List.map_tail, hpend, List.tail_cons]
        simpa [Sys.setClient, Client.pending, filter_eraseP_self] using htail
      · simp [Sys.setClient, hu, filter_eraseP_of_ne _ hu, h.pending u]

omit [DecidableEq ι] in
/-- A call that has not committed has nothing queued, so committing it leaves
the messages in front of it alone. -/
theorem LogInv.sendOk_commit (h : LogInv act view mem₀ s abs) {indep : μ → μ → Prop}
    {p : Prog ι σ μ α} (hp : (s.clients t).phase = .active c p) (hok : SendOk indep s t) :
    SendOk indep (s.commit t c p) t := by
  have hfilter := h.pending t
  have hnone : (s.clients t).pending = [] := by unfold Client.pending; rw [hp]
  rw [hnone, List.map_eq_nil_iff, List.filter_eq_nil_iff] at hfilter
  have hall : ∀ e ∈ s.unsent, decide (e.1 ≠ t) = true := fun e he => by simpa using hfilter e he
  have hearlier : (s.commit t c p).earlier t = s.earlier t := by
    have hself : s.unsent.takeWhile (fun e => decide (e.1 ≠ t)) = s.unsent :=
      List.takeWhile_eq_self_iff.mpr hall
    show ((s.unsent ++ p.pending.map fun x => (t, x)).takeWhile _).map Prod.snd = _
    rw [List.takeWhile_append_of_pos hall, Sys.earlier, hself]
    cases p.pending <;> simp
  intro x hx
  rw [hearlier]
  obtain ⟨d, k, hor⟩ := hx
  refine hok x ⟨c, k, Or.inl ?_⟩
  have hphase : ((s.commit t c p).clients t).phase = .closing c p := by
    simp [Sys.commit, Sys.setClient]
  rw [hphase] at hor
  rcases hor with hor | hor
  · cases hor
  · obtain ⟨_, rfl⟩ := Phase.closing.inj hor
    exact hp

theorem LogInv.step {indep : μ → μ → Prop} (h : LogInv act view mem₀ s abs)
    (hserial : SerialInv prog mem₀ s abs) (hdisc : ∀ d, Disciplined [] (prog d))
    (hcomm : ∀ x y, indep x y → ∀ d, act x (act y d) = act y (act x d))
    (hview : ∀ c mem a mem' xs, (prog c).run mem = some (a, mem', xs) →
      view mem' = applyAll act xs (view mem))
    (hok : SendOk indep s t) {s' : Sys n ι σ μ κ α} (hs : s.step prog t = some s') :
    ∃ abs', SerialInv prog mem₀ s' abs' ∧ LogInv act view mem₀ s' abs' := by
  obtain ⟨abs', hserial', hcatch⟩ := hserial.step hdisc hs
  refine ⟨abs', hserial', ?_⟩
  cases Sys.step_move hs with
  | @start d ds hp =>
    rcases hcatch with ⟨e, q, _, hq, _⟩ | ⟨rfl, _⟩
    · rw [hp] at hq; cases hq
    · exact h.rephase rfl rfl rfl (by simp [Client.pending, hp])
  | @access d p q held mem hp hacc =>
    rcases hcatch with ⟨e, q, _, hq, htail, _⟩ | ⟨rfl, _⟩
    · rw [hp] at hq
      obtain ⟨_, rfl⟩ := Phase.active.inj hq
      exact absurd htail (hacc _)
    · exact h.rephase rfl rfl rfl (by simp [Client.pending, hp])
  | @close d p _ hp hclose =>
    rcases hcatch with ⟨e, q, _, hq, _⟩ | ⟨rfl, _⟩
    · rw [hp] at hq; cases hq
    · exact h.close hcomm hp hok hclose
  | @commit d p _ hp htail hclose =>
    have hc := hserial.client t
    unfold ClientInv at hc
    rw [hp] at hc
    rcases hcatch with ⟨e, q, a, hq, _, hrun⟩ | ⟨_, hnot⟩
    · rw [hp] at hq
      obtain ⟨rfl, rfl⟩ := Phase.active.inj hq
      have hp' : ((s.commit t d p).clients t).phase = .closing d p := by
        simp [Sys.commit, Sys.setClient]
      exact (h.commit hp (hview _ _ _ _ _ hrun)).close hcomm hp' (h.sendOk_commit hp hok) hclose
    · exact absurd (htail _ hc.1) (hnot d p hp)

/-- Both invariants, with some serial cells. -/
def LoggedInv (prog : κ → Prog ι σ μ α) (act : μ → δ → δ) (view : (ι → σ) → δ) (mem₀ : ι → σ)
    (s : Sys n ι σ μ κ α) : Prop :=
  ∃ abs, SerialInv prog mem₀ s abs ∧ LogInv act view mem₀ s abs

theorem loggedInv_reachable {indep : μ → μ → Prop} (hdisc : ∀ d, Disciplined [] (prog d))
    (hcomm : ∀ x y, indep x y → ∀ d, act x (act y d) = act y (act x d))
    (hview : ∀ c mem a mem' xs, (prog c).run mem = some (a, mem', xs) →
      view mem' = applyAll act xs (view mem))
    {calls : Fin n → List κ}
    (hreach : Reachable (Sys.step prog) (SendOk indep) (Sys.init mem₀ calls) s) :
    LoggedInv prog act view mem₀ s := by
  refine hreach.inv ⟨mem₀, .init, .init⟩ ?_
  intro s t s' hi hok hs
  obtain ⟨abs, hserial, hlog⟩ := hi
  exact hlog.step hserial hdisc hcomm hview hok hs

/-- Every quiet state of a run whose sends meet `SendOk` has a log that
replays, in the abstract state, to the cells. -/
theorem log_serial {indep : μ → μ → Prop} (hdisc : ∀ d, Disciplined [] (prog d))
    (hcomm : ∀ x y, indep x y → ∀ d, act x (act y d) = act y (act x d))
    (hview : ∀ c mem a mem' xs, (prog c).run mem = some (a, mem', xs) →
      view mem' = applyAll act xs (view mem))
    {calls : Fin n → List κ}
    (hreach : Reachable (Sys.step prog) (SendOk indep) (Sys.init mem₀ calls) s)
    (hq : s.Quiet) : applyAll act s.sent (view mem₀) = view s.mem := by
  obtain ⟨abs, hserial, hlog⟩ := loggedInv_reachable hdisc hcomm hview hreach
  have hempty : s.unsent = [] := by
    refine List.eq_nil_iff_forall_not_mem.mpr fun e he => ?_
    have hpend := hlog.pending e.1
    have hnone : (s.clients e.1).pending = [] := by unfold Client.pending; rw [hq]
    rw [hnone, List.map_eq_nil_iff, List.filter_eq_nil_iff] at hpend
    exact hpend e he (by simp)
  have hfinal := hlog.log
  rw [hempty] at hfinal
  rw [hserial.quiet hq]
  simpa using hfinal

end TwoPhase
