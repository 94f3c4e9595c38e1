import TitanKv.Lib.Runs
import TitanKv.Lib.TwoPhase

/-! # Reading programs among other steps

A program that only reads runs one operation at a time while the cells change between
them. If it reads no cell twice, it ends as it would alone, on a memory of which each
cell is what it was at some moment of the run. -/

namespace TwoPhase
open Runs

variable {τ ε ι σ μ α β : Type}

/-- The program reads no cell of `seen`, and none twice. -/
def ReadsOnce : List ι → Prog ι σ μ α → Prop
  | _, .done _ => True
  | _, .hang => True
  | seen, .lock _ _ k => ReadsOnce seen k
  | seen, .unlock _ k => ReadsOnce seen k
  | seen, .read i k => i ∉ seen ∧ ∀ v, ReadsOnce (i :: seen) (k v)
  | seen, .update _ _ k => ReadsOnce seen k
  | seen, .send _ k => ReadsOnce seen k

/-- What follows reads nothing. -/
theorem ReadsOnce.bind_done {p : Prog ι σ μ α} {seen : List ι} (h : ReadsOnce seen p) (f : α → β) :
    ReadsOnce seen (p >>= fun a => .done (f a)) := by
  induction p generalizing seen with
  | done _ | hang => trivial
  | lock _ _ k ih | unlock _ k ih | update _ _ k ih | send _ k ih =>
    exact ih (show ReadsOnce seen k from h)
  | read i k ih => exact ⟨h.1, fun v => ih v (h.2 v)⟩

/-- A state of the cells' system, and what is left of the program. -/
structure Reading (τ ι σ μ α : Type) where
  state : τ
  rest : Prog ι σ μ α

inductive ReadEvent (ε : Type) where
  | other (e : ε)
  | advance
  deriving DecidableEq

/-- A step of the system, or the next operation of the program. -/
def readStep (step : τ → ε → Option τ) (mem : τ → ι → σ) (r : Reading τ ι σ μ α) :
    ReadEvent ε → Option (Reading τ ι σ μ α)
  | .other e => (step r.state e).map fun state => { r with state := state }
  | .advance => match r.rest with
    | .lock _ _ k => some { r with rest := k }
    | .unlock _ k => some { r with rest := k }
    | .read i k => some { r with rest := k (mem r.state i) }
    | _ => none

/-- The states that the run of a reading passes, its first and its last among them. -/
def Passes (step : τ → ε → Option τ) (mem : τ → ι → σ) (r : Reading τ ι σ μ α)
    (es : List (ReadEvent ε)) (s : τ) : Prop :=
  ∃ fs rest, fs <+: es ∧ run (readStep step mem) r fs = some ⟨s, rest⟩

section Observed
variable {step : τ → ε → Option τ} {mem : τ → ι → σ} {r r' : Reading τ ι σ μ α}

/-- The system of a reading goes its own way. -/
theorem readStep_state {es : List (ReadEvent ε)} (h : run (readStep step mem) r es = some r') :
    ∃ fs, run step r.state fs = some r'.state := by
  induction es generalizing r with
  | nil =>
    obtain rfl := Option.some.inj h
    exact ⟨[], rfl⟩
  | cons e es ih =>
    obtain ⟨t, ht, hrest⟩ := Option.bind_eq_some_iff.mp h
    obtain ⟨fs, hfs⟩ := ih hrest
    cases e with
    | other e =>
      obtain ⟨state, hs, rfl⟩ := Option.map_eq_some_iff.mp ht
      exact ⟨e :: fs, by rw [run_cons, hs]; exact hfs⟩
    | advance =>
      obtain ⟨state, rest⟩ := r
      cases rest <;> cases ht
      all_goals exact ⟨fs, hfs⟩

theorem Passes.cons {e : ReadEvent ε} {es : List (ReadEvent ε)} {s : τ}
    (hstep : readStep step mem r e = some r')
    (h : Passes step mem r' es s) : Passes step mem r (e :: es) s := by
  obtain ⟨fs, rest, hfs, hrun⟩ := h
  exact ⟨e :: fs, rest, List.cons_prefix_cons.mpr ⟨rfl, hfs⟩, by rw [run_cons, hstep]; exact hrun⟩

theorem Passes.first (es : List (ReadEvent ε)) : Passes step mem r es r.state :=
  ⟨[], r.rest, List.nil_prefix, rfl⟩

/-- From any state of a run on, the program ends by its own operations alone. -/
theorem readOnly_ends {es : List (ReadEvent ε)} {s : τ} {p : Prog ι σ μ α} (h : ReadOnly p)
    (hrun : run (readStep step mem) ⟨s, p⟩ es = some r) : ∃ n a,
      run (readStep step mem) ⟨s, p⟩ (es ++ List.replicate n .advance) =
        some ⟨r.state, .done a⟩ := by
  induction es generalizing s p with
  | nil =>
    obtain rfl := Option.some.inj hrun
    clear hrun
    induction p with
    | done a => exact ⟨0, a, rfl⟩
    | hang | update _ _ _ | send _ _ => exact h.elim
    | lock i m k ih | unlock i k ih =>
      obtain ⟨n, a, hrun⟩ := ih h
      exact ⟨n + 1, a, hrun⟩
    | read i k ih =>
      obtain ⟨n, a, hrun⟩ := ih (mem s i) (h _)
      exact ⟨n + 1, a, hrun⟩
  | cons e es ih =>
    obtain ⟨⟨s₁, q⟩, hstep, hrest⟩ := Option.bind_eq_some_iff.mp hrun
    have hq : ReadOnly q := by
      cases e with
      | other e =>
        obtain ⟨state, -, heq⟩ := Option.map_eq_some_iff.mp hstep
        obtain ⟨-, rfl⟩ := Reading.mk.inj heq
        exact h
      | advance =>
        cases p with
        | done b | hang | update i f k | send x k => cases hstep
        | lock _ _ k | unlock _ k =>
          obtain ⟨-, rfl⟩ := Reading.mk.inj (Option.some.inj hstep)
          exact h
        | read i k =>
          obtain ⟨-, rfl⟩ := Reading.mk.inj (Option.some.inj hstep)
          exact h _
    obtain ⟨n, a, hends⟩ := ih hq hrest
    exact ⟨n, a, by rw [List.cons_append, run_cons, hstep]; exact hends⟩

variable [DecidableEq ι]

/-- `base` says what the cells are that the program does not read any more. -/
theorem observed_from {es : List (ReadEvent ε)} {s s' : τ} {p : Prog ι σ μ α} {a : α}
    {seen : List ι} (hro : ReadOnly p) (honce : ReadsOnce seen p)
    (hrun : run (readStep step mem) ⟨s, p⟩ es = some ⟨s', .done a⟩) (base : ι → σ) :
    ∃ mixed, (∀ i ∈ seen, mixed i = base i) ∧
      (∀ i, mixed i = base i ∨ ∃ t, Passes step mem ⟨s, p⟩ es t ∧ mixed i = mem t i) ∧
      p.run mixed = some (a, mixed, []) := by
  induction es generalizing s p seen base with
  | nil =>
    obtain ⟨-, rfl⟩ := Reading.mk.inj (Option.some.inj hrun)
    exact ⟨base, fun _ _ => rfl, fun _ => Or.inl rfl, rfl⟩
  | cons e es ih =>
    obtain ⟨⟨s₁, q⟩, hstep, hrest⟩ := Option.bind_eq_some_iff.mp hrun
    have hlater {mixed base : ι → σ}
        (h : ∀ i, mixed i = base i ∨ ∃ t, Passes step mem ⟨s₁, q⟩ es t ∧ mixed i = mem t i) :
        ∀ i, mixed i = base i ∨ ∃ t, Passes step mem ⟨s, p⟩ (e :: es) t ∧ mixed i = mem t i :=
      fun i => (h i).imp_right fun ⟨t, ht, hi⟩ => ⟨t, ht.cons hstep, hi⟩
    cases e with
    | other e =>
      obtain ⟨state, -, heq⟩ := Option.map_eq_some_iff.mp hstep
      obtain ⟨-, rfl⟩ := Reading.mk.inj heq
      obtain ⟨mixed, hseen, hcells, hmixed⟩ := ih hro honce hrest base
      exact ⟨mixed, hseen, hlater hcells, hmixed⟩
    | advance =>
      cases p with
      | done b | hang | update i f k | send x k => cases hstep
      | lock i m k =>
        obtain ⟨-, rfl⟩ := Reading.mk.inj (Option.some.inj hstep)
        obtain ⟨mixed, hseen, hcells, hmixed⟩ := ih (p := k) hro honce hrest base
        exact ⟨mixed, hseen, hlater hcells, hmixed⟩
      | unlock i k =>
        obtain ⟨-, rfl⟩ := Reading.mk.inj (Option.some.inj hstep)
        obtain ⟨mixed, hseen, hcells, hmixed⟩ := ih (p := k) hro honce hrest base
        exact ⟨mixed, hseen, hlater hcells, hmixed⟩
      | read i k =>
        obtain ⟨-, rfl⟩ := Reading.mk.inj (Option.some.inj hstep)
        -- The cell keeps the value it has now, whatever the base has there.
        obtain ⟨mixed, hseen, hcells, hmixed⟩ :=
          ih (hro _) (honce.2 _) hrest (Function.update base i (mem s i))
        have hnow : mixed i = mem s i :=
          (hseen i List.mem_cons_self).trans (Function.update_self ..)
        refine ⟨mixed, fun j hj => ?_, fun j => ?_, ?_⟩
        · have hne : j ≠ i := fun heq => honce.1 (heq ▸ hj)
          exact (hseen j (List.mem_cons_of_mem _ hj)).trans (Function.update_of_ne hne _ _)
        · by_cases hj : j = i
          · subst hj
            exact Or.inr ⟨s, Passes.first _, hnow⟩
          · exact (hlater hcells j).imp_left fun h => h.trans (Function.update_of_ne hj _ _)
        · rw [Prog.run_read, hnow]
          exact hmixed

/-- The program ends as it would alone on a memory whose cells are of the run's states. -/
theorem observed {es : List (ReadEvent ε)} {s s' : τ} {p : Prog ι σ μ α} {a : α} (hro : ReadOnly p)
    (honce : ReadsOnce [] p) (hrun : run (readStep step mem) ⟨s, p⟩ es = some ⟨s', .done a⟩) :
    ∃ mixed, (∀ i, ∃ t, Passes step mem ⟨s, p⟩ es t ∧ mixed i = mem t i) ∧
      p.run mixed = some (a, mixed, []) := by
  obtain ⟨mixed, -, hcells, hmixed⟩ := observed_from hro honce hrun (mem s)
  refine ⟨mixed, fun i => ?_, hmixed⟩
  rcases hcells i with h | h
  · exact ⟨s, Passes.first _, h⟩
  · exact h

end Observed

end TwoPhase
