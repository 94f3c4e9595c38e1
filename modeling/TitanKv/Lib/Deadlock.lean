import Mathlib.Data.Fintype.Lattice
import Mathlib.Data.Fintype.EquivFin
import TitanKv.Lib.Serial

/-! # Deadlock freedom by a rank on waiting clients

Each call takes its locks in the order its `plan` lists them. If every conflict
between the plans of two calls runs upwards in some rank (the rank of the one
that waits below the rank of the one that holds and waits), the wait-for graph
has no cycle: in every reachable state with an unfinished client some client
can step. -/

namespace TwoPhase
open Runs

variable {n : Nat} {ι σ μ κ α : Type} [DecidableEq ι] {prog : κ → Prog ι σ μ α}

/-- The program takes the locks of the list in its order, and no others. -/
def Follows : List (ι × Mode) → Prog ι σ μ α → Prop
  | plan, .lock i m k => ∃ rest, plan = (i, m) :: rest ∧ Follows rest k
  | plan, .read _ k => ∀ v, Follows plan (k v)
  | plan, .update _ _ k => Follows plan k
  | _, _ => True

omit [DecidableEq ι] in
/-- A guarded body takes no lock. -/
theorem Guarded.follows {β : Type} {i : ι} {p : Prog ι σ μ α} (h : Guarded i p)
    (plan : List (ι × Mode)) (f : α → β) :
    Follows plan (p >>= fun a => .unlock i (.done (f a)) : Prog ι σ μ β) := by
  induction p with
  | hang => trivial
  | read j k ih => exact fun v => ih v (h.2 v)
  | update j g k ih => exact ih h.2
  | done a => trivial
  | send x k _ => trivial
  | unlock j k _ => trivial
  | lock j m k _ => exact h.elim

def Conflict (m m' : Mode) : Prop := m = .write ∨ m' = .write

/-- The rank goes up along every conflict: a client's call with the locks `pre`
waits for a cell that another client holds, which waits for another cell. -/
def Ranked (calls : Fin n → List κ) (plan : κ → List (ι × Mode))
    (rank : List (ι × Mode) → ι → Nat) : Prop :=
  ∀ t u, t ≠ u → ∀ c ∈ calls t, ∀ d ∈ calls u, ∀ pre post pre' post' i m m₁ j m₂,
    plan c = pre ++ (i, m) :: post → plan d = pre' ++ (j, m₂) :: post' →
    (i, m₁) ∈ pre' → Conflict m m₁ → rank pre i < rank pre' j

def Client.Finished (x : Client ι σ μ κ α) : Prop := x.phase = .idle ∧ x.todo = []

omit [DecidableEq ι] in
theorem Client.not_finished {x : Client ι σ μ κ α} {c : κ} {p : Prog ι σ μ α}
    (h : x.phase = .active c p) : ¬ x.Finished := by
  rintro ⟨hidle, _⟩
  rw [h] at hidle
  cases hidle

/-- The calls a client has still to run, or is running. -/
def Client.calls (x : Client ι σ μ κ α) : List κ :=
  match x.phase with
  | .idle => x.todo
  | .active c _ => c :: x.todo
  | .closing _ _ => x.todo

structure PlanInv (given : List κ) (plan : κ → List (ι × Mode)) (x : Client ι σ μ κ α) :
    Prop where
  calls : ∀ c ∈ x.calls, c ∈ given
  follows : ∀ c p, x.phase = .active c p →
    ∃ pre post, plan c = pre ++ post ∧ x.held = pre.reverse ∧ Follows post p

/-- The client waits for a lock that is not granted, with the locks `pre`. -/
def Sys.Waits (s : Sys n ι σ μ κ α) (plan : κ → List (ι × Mode)) (t : Fin n) (c : κ)
    (pre : List (ι × Mode)) (i : ι) (m : Mode) (post : List (ι × Mode)) : Prop :=
  (∃ k, (s.clients t).phase = .active c (.lock i m k)) ∧ ¬ s.Grants i m ∧
    plan c = pre ++ (i, m) :: post ∧ (s.clients t).held = pre.reverse

/-- The rank of the lock a client waits for. -/
def Client.rank (rank : List (ι × Mode) → ι → Nat) (x : Client ι σ μ κ α) : Nat :=
  match x.phase with
  | .active _ (.lock i _ _) => rank x.held.reverse i
  | _ => 0

variable {calls : Fin n → List κ} {plan : κ → List (ι × Mode)} {mem₀ : ι → σ}
  {s s' : Sys n ι σ μ κ α} {t : Fin n} {c : κ}

omit [DecidableEq ι] in
theorem Sys.Waits.rank_eq {pre post : List (ι × Mode)} {i : ι} {m : Mode}
    {rank : List (ι × Mode) → ι → Nat} (h : s.Waits plan t c pre i m post) :
    (s.clients t).rank rank = rank pre i := by
  obtain ⟨⟨k, hp⟩, _, _, hheld⟩ := h
  unfold Client.rank
  rw [hp, hheld, List.reverse_reverse]

omit [DecidableEq ι] in
theorem PlanInv.init (t : Fin n) :
    PlanInv (calls t) plan ((Sys.init mem₀ calls : Sys n ι σ μ κ α).clients t) where
  calls _ hc := hc
  follows c p hp := by cases hp

omit [DecidableEq ι] in
/-- Only the stepping client's record changes. -/
theorem PlanInv.set (h : ∀ u, PlanInv (calls u) plan (s.clients u)) {x : Client ι σ μ κ α}
    (hclients : s'.clients = (s.setClient t x).clients) (hx : PlanInv (calls t) plan x) :
    ∀ u, PlanInv (calls u) plan (s'.clients u) := by
  intro u
  rw [hclients]
  by_cases hu : u = t
  · subst hu; rw [Sys.setClient_self]; exact hx
  · rw [Sys.setClient_of_ne s _ hu]; exact h u

/-- Closing a call leaves no plan to follow. -/
theorem PlanInv.close (h : ∀ u, PlanInv (calls u) plan (s.clients u)) {p : Prog ι σ μ α}
    (hp : (s.clients t).phase = .closing c p) (hs : s.close t c p = some s') :
    ∀ u, PlanInv (calls u) plan (s'.clients u) := by
  have hcalls := (h t).calls
  simp only [Client.calls, hp] at hcalls
  cases p with
  | hang => cases hs
  | lock i m k => cases hs
  | read i k => cases hs
  | update i f k => cases hs
  | done b =>
    obtain rfl := Option.some.inj hs
    exact PlanInv.set h rfl ⟨hcalls, fun _ _ hq => by cases hq⟩
  | unlock i k =>
    obtain rfl := Option.some.inj hs
    exact PlanInv.set h rfl ⟨hcalls, fun _ _ hq => by cases hq⟩
  | send x k =>
    obtain rfl := Option.some.inj hs
    exact PlanInv.set h rfl ⟨hcalls, fun _ _ hq => by cases hq⟩

theorem PlanInv.commit (h : ∀ u, PlanInv (calls u) plan (s.clients u)) {p : Prog ι σ μ α}
    (hp : (s.clients t).phase = .active c p) (hs : (s.commit t c p).close t c p = some s') :
    ∀ u, PlanInv (calls u) plan (s'.clients u) := by
  have hcalls := (h t).calls
  simp only [Client.calls, hp] at hcalls
  have hcommit : ∀ u, PlanInv (calls u) plan ((s.commit t c p).clients u) :=
    PlanInv.set h rfl ⟨fun d hd => hcalls d (List.mem_cons_of_mem _ hd), fun _ _ hq => by cases hq⟩
  exact PlanInv.close hcommit (by simp [Sys.commit, Sys.setClient]) hs

theorem PlanInv.step (hplan : ∀ d, Follows (plan d) (prog d))
    (hfree : (s.clients t).phase = .idle → (s.clients t).held = [])
    (h : ∀ u, PlanInv (calls u) plan (s.clients u)) (hs : s.step prog t = some s') :
    ∀ u, PlanInv (calls u) plan (s'.clients u) := by
  unfold Sys.step at hs
  cases hp : (s.clients t).phase with
  | idle =>
    rw [hp] at hs
    cases htodo : (s.clients t).todo with
    | nil => rw [htodo] at hs; cases hs
    | cons d ds =>
      rw [htodo] at hs
      obtain rfl := Option.some.inj hs
      have hcalls := (h t).calls
      simp only [Client.calls, hp, htodo] at hcalls
      refine PlanInv.set h rfl ⟨hcalls, fun e q hq => ?_⟩
      obtain ⟨rfl, rfl⟩ := Phase.active.inj hq
      exact ⟨[], plan d, rfl, hfree hp, hplan d⟩
  | closing d p => rw [hp] at hs; exact PlanInv.close h hp hs
  | active d p =>
    rw [hp] at hs
    have hcalls := (h t).calls
    simp only [Client.calls, hp] at hcalls
    obtain ⟨pre, post, hsplit, hheld, hfollows⟩ := (h t).follows d p hp
    cases p with
    | hang => obtain rfl := Option.some.inj hs; exact h
    | lock i m k =>
      dsimp only at hs
      split at hs
      · obtain rfl := Option.some.inj hs
        obtain ⟨rest, rfl, hrest⟩ := hfollows
        refine PlanInv.set h rfl ⟨hcalls, fun e q hq => ?_⟩
        obtain ⟨rfl, rfl⟩ := Phase.active.inj hq
        exact ⟨pre ++ [(i, m)], rest, by simpa using hsplit, by simp [hheld], hrest⟩
      · cases hs
    | read i k =>
      obtain rfl := Option.some.inj hs
      refine PlanInv.set h rfl ⟨hcalls, fun e q hq => ?_⟩
      obtain ⟨rfl, rfl⟩ := Phase.active.inj hq
      exact ⟨pre, post, hsplit, hheld, hfollows _⟩
    | update i f k =>
      obtain rfl := Option.some.inj hs
      refine PlanInv.set h rfl ⟨hcalls, fun e q hq => ?_⟩
      obtain ⟨rfl, rfl⟩ := Phase.active.inj hq
      exact ⟨pre, post, hsplit, hheld, hfollows⟩
    | done b => exact PlanInv.commit h hp hs
    | unlock i k => exact PlanInv.commit h hp hs
    | send x k => exact PlanInv.commit h hp hs

theorem planInv_reachable (hdisc : ∀ d, Disciplined [] (prog d))
    (hplan : ∀ d, Follows (plan d) (prog d))
    (hreach : Reachable (Sys.step prog) anyStep (Sys.init mem₀ calls) s) :
    (∃ abs, SerialInv prog mem₀ s abs) ∧ ∀ t, PlanInv (calls t) plan (s.clients t) := by
  refine @Reachable.inv _ _ (Sys.step prog) _ _
    (fun s => (∃ abs, SerialInv prog mem₀ s abs) ∧ ∀ t, PlanInv (calls t) plan (s.clients t))
    ⟨⟨mem₀, .init⟩, PlanInv.init⟩ ?_ s hreach
  intro s t s' hi _ hs
  obtain ⟨⟨abs, hserial⟩, hinv⟩ := hi
  obtain ⟨abs', hserial', _⟩ := hserial.step hdisc hs
  refine ⟨⟨abs', hserial'⟩, PlanInv.step hplan (fun hp => ?_) hinv hs⟩
  have hc := hserial.client t
  unfold ClientInv at hc
  rw [hp] at hc
  exact hc

/-- An unfinished client that cannot step waits for a lock of its plan. -/
theorem waits_of_stuck {abs : ι → σ} (hserial : SerialInv prog mem₀ s abs)
    (hinv : PlanInv (calls t) plan (s.clients t)) (hfin : ¬ (s.clients t).Finished)
    (hs : s.step prog t = none) :
    ∃ c pre i m post, c ∈ calls t ∧ i ∉ pre.map Prod.fst ∧ s.Waits plan t c pre i m post := by
  unfold Sys.step at hs
  have hc := hserial.client t
  unfold ClientInv at hc
  cases hp : (s.clients t).phase with
  | idle =>
    rw [hp] at hs
    cases htodo : (s.clients t).todo with
    | nil => exact absurd ⟨hp, htodo⟩ hfin
    | cons d ds => rw [htodo] at hs; cases hs
  | closing d p =>
    rw [hp] at hs hc
    cases p with
    | done b => cases hs
    | unlock i k => cases hs
    | send x k => cases hs
    | hang => exact hc.1.elim
    | lock i m k => exact hc.1.elim
    | read i k => exact hc.1.elim
    | update i f k => exact hc.1.elim
  | active d p =>
    rw [hp] at hs
    cases p with
    | hang => cases hs
    | read i k => cases hs
    | update i f k => cases hs
    | done b => cases hs
    | unlock i k => cases hs
    | send x k => cases hs
    | lock i m k =>
      dsimp only at hs
      split at hs
      · cases hs
      · rename_i hg
        obtain ⟨pre, post, hsplit, hheld, rest, rfl, _⟩ := hinv.follows d _ hp
        have hgiven : d ∈ calls t := hinv.calls d (by simp [Client.calls, hp])
        rw [hp] at hc
        have hfree : i ∉ pre.map Prod.fst := by simpa [hheld] using hc.1.1
        exact ⟨d, pre, i, m, rest, hgiven, hfree, ⟨k, hp⟩, hg, hsplit, hheld⟩

omit [DecidableEq ι] in
/-- A lock that is not granted is held by somebody in a conflicting mode. -/
theorem Sys.holder_of_not_grants {i : ι} {m : Mode} (h : ¬ s.Grants i m) :
    ∃ u m', (i, m') ∈ (s.clients u).held ∧ Conflict m m' := by
  cases m with
  | read =>
    simp only [Grants, not_forall, not_not] at h
    obtain ⟨u, hu⟩ := h
    exact ⟨u, .write, hu, Or.inr rfl⟩
  | write =>
    simp only [Grants, not_forall, not_not] at h
    obtain ⟨u, hu⟩ := h
    obtain ⟨⟨_, m'⟩, hm', rfl⟩ := List.mem_map.mp hu
    exact ⟨u, m', hm', Or.inl rfl⟩

/-- With ranked plans the wait-for graph has no cycle: while some client is
unfinished, some client can step. -/
theorem deadlock_free (hdisc : ∀ d, Disciplined [] (prog d))
    (hplan : ∀ d, Follows (plan d) (prog d)) {rank : List (ι × Mode) → ι → Nat}
    (hrank : Ranked calls plan rank)
    (hreach : Reachable (Sys.step prog) anyStep (Sys.init mem₀ calls) s)
    (hun : ∃ t, ¬ (s.clients t).Finished) : ∃ t s', s.step prog t = some s' := by
  obtain ⟨⟨abs, hserial⟩, hinv⟩ := planInv_reachable hdisc hplan hreach
  by_contra hstuck
  have hnone : ∀ t, s.step prog t = none := fun t =>
    Option.eq_none_iff_forall_ne_some.mpr fun s' hs => hstuck ⟨t, s', hs⟩
  have hwaits : ∀ t, ¬ (s.clients t).Finished →
      ∃ c pre i m post, c ∈ calls t ∧ i ∉ pre.map Prod.fst ∧ s.Waits plan t c pre i m post :=
    fun t ht => waits_of_stuck hserial (hinv t) ht (hnone t)
  have hup : ∀ t, ¬ (s.clients t).Finished →
      ∃ u, (s.clients t).rank rank < (s.clients u).rank rank := by
    intro t ht
    obtain ⟨c, pre, i, m, post, hc, hfree, hw⟩ := hwaits t ht
    obtain ⟨u, m', hheld, hconf⟩ := Sys.holder_of_not_grants hw.2.1
    have hu : ¬ (s.clients u).Finished := by
      intro hfin
      have hcu := hserial.client u
      unfold ClientInv at hcu
      rw [hfin.1] at hcu
      rw [hcu] at hheld
      cases hheld
    obtain ⟨d, pre', j, m₂, post', hd, _, hw'⟩ := hwaits u hu
    have htu : t ≠ u := by
      rintro rfl
      rw [hw.2.2.2] at hheld
      exact hfree (List.mem_map.mpr ⟨_, List.mem_reverse.mp hheld, rfl⟩)
    have hmem : (i, m') ∈ pre' := by
      rw [hw'.2.2.2] at hheld
      exact List.mem_reverse.mp hheld
    refine ⟨u, ?_⟩
    rw [hw.rank_eq, hw'.rank_eq]
    exact hrank t u htu c hc d hd pre post pre' post' i m m' j m₂ hw.2.2.1 hw'.2.2.1 hmem hconf
  -- a client of largest rank waits too, and then for one of larger rank
  obtain ⟨t₀, ht₀⟩ := hun
  have : Nonempty (Fin n) := ⟨t₀⟩
  obtain ⟨t, hmax⟩ := Finite.exists_max fun u => (s.clients u).rank rank
  have ht : ¬ (s.clients t).Finished := by
    intro hfin
    obtain ⟨u, hu⟩ := hup t₀ ht₀
    have hzero : (s.clients t).rank rank = 0 := by unfold Client.rank; rw [hfin.1]
    have hle := hmax u
    omega
  obtain ⟨u, hu⟩ := hup t ht
  exact absurd (hmax u) (Nat.not_le.mpr hu)

end TwoPhase
