import Mathlib.Data.List.Basic

/-! # Runs of a partial step function

A system is a step function `σ → ε → Option σ`: `none` where the event is not
enabled. `run` executes a list of events; `AllOk ok` says that its steps all meet
the condition `ok`. `Reachable ok` collects the states of such runs, and
`Reachable.inv` packages the induction over them once. -/

namespace Runs

variable {σ ε : Type} {step : σ → ε → Option σ} {ok : σ → ε → Prop}

def run (step : σ → ε → Option σ) : σ → List ε → Option σ
  | s, [] => some s
  | s, e :: es => (step s e).bind fun s' => run step s' es

@[simp] theorem run_nil (s : σ) : run step s [] = some s := rfl

theorem run_cons (s : σ) (e : ε) (es : List ε) :
    run step s (e :: es) = (step s e).bind fun s' => run step s' es := rfl

theorem run_append (s : σ) (es fs : List ε) :
    run step s (es ++ fs) = (run step s es).bind fun s' => run step s' fs := by
  induction es generalizing s with
  | nil => rfl
  | cons e es ih =>
    simp only [List.cons_append, run_cons]
    cases step s e with
    | none => rfl
    | some s' => exact ih s'

/-- No condition on the steps. -/
def anyStep : σ → ε → Prop := fun _ _ => True

inductive Reachable (step : σ → ε → Option σ) (ok : σ → ε → Prop) (init : σ) : σ → Prop
  | init : Reachable step ok init init
  | step {s s' : σ} {e : ε} : Reachable step ok init s → ok s e → step s e = some s' →
      Reachable step ok init s'

/-- The invariant rule: what holds initially and is kept by every admitted step
holds in every reachable state. -/
theorem Reachable.inv {init : σ} {Inv : σ → Prop} (h0 : Inv init)
    (hs : ∀ s e s', Inv s → ok s e → step s e = some s' → Inv s')
    {s : σ} (h : Reachable step ok init s) : Inv s := by
  induction h with
  | init => exact h0
  | step _ hok hstep ih => exact hs _ _ _ ih hok hstep

theorem Reachable.mono {ok' : σ → ε → Prop} {init : σ} (hok : ∀ s e, ok s e → ok' s e)
    {s : σ} (h : Reachable step ok init s) : Reachable step ok' init s := by
  induction h with
  | init => exact .init
  | step _ ho hstep ih => exact .step ih (hok _ _ ho) hstep

theorem Reachable.trans {init s s' : σ} (h : Reachable step ok init s)
    (h' : Reachable step ok s s') :
    Reachable step ok init s' := by
  induction h' with
  | init => exact h
  | step _ hok hstep ih => exact ih.step hok hstep

/-- Every step of the run meets the condition in its state. -/
def AllOk (step : σ → ε → Option σ) (ok : σ → ε → Prop) : σ → List ε → Prop
  | _, [] => True
  | s, e :: es => ok s e ∧ ∀ s', step s e = some s' → AllOk step ok s' es

instance AllOk.decidable [∀ s e, Decidable (ok s e)] (s : σ) (es : List ε) :
    Decidable (AllOk step ok s es) :=
  match es with
  | [] => .isTrue trivial
  | e :: es =>
    match hstep : step s e with
    | none =>
      decidable_of_iff (ok s e) ⟨fun h => ⟨h, fun s' hs => by rw [hstep] at hs; cases hs⟩, And.left⟩
    | some s' =>
      have := AllOk.decidable s' es
      decidable_of_iff (ok s e ∧ AllOk step ok s' es)
        ⟨fun h => ⟨h.1, fun t ht => by rw [hstep] at ht; exact Option.some.inj ht ▸ h.2⟩,
          fun h => ⟨h.1, h.2 s' hstep⟩⟩

theorem AllOk.append {s : σ} {es fs : List ε} : AllOk step ok s (es ++ fs) ↔
    AllOk step ok s es ∧ ∀ s', run step s es = some s' → AllOk step ok s' fs := by
  induction es generalizing s with
  | nil => simp [AllOk]
  | cons e es ih =>
    simp only [List.cons_append, AllOk, ih, run_cons, Option.bind_eq_some_iff, and_assoc]
    constructor
    · rintro ⟨he, h⟩
      exact ⟨he, fun s' hs => (h s' hs).1, fun t ⟨s', hs, ht⟩ => (h s' hs).2 t ht⟩
    · rintro ⟨he, h₁, h₂⟩
      exact ⟨he, fun s' hs => ⟨h₁ s' hs, fun t ht => h₂ t ⟨s', hs, ht⟩⟩⟩

theorem AllOk.of_forall {es : List ε} (h : ∀ e ∈ es, ∀ s, ok s e) (s : σ) :
    AllOk step ok s es := by
  induction es generalizing s with
  | nil => trivial
  | cons e es ih =>
    exact ⟨h e (by simp) s, fun s' _ => ih (fun e' he' => h e' (List.mem_cons_of_mem _ he')) s'⟩

/-- Every state an admitted run passes on to is reachable. -/
theorem Reachable.run_ok {init s s' : σ} (h : Reachable step ok init s) (es : List ε)
    (hok : AllOk step ok s es) (hr : run step s es = some s') : Reachable step ok init s' := by
  induction es generalizing s with
  | nil =>
    obtain rfl := Option.some.inj hr
    exact h
  | cons e es ih =>
    obtain ⟨t, ht, hrest⟩ := Option.bind_eq_some_iff.mp hr
    exact ih (.step h hok.1 ht) (hok.2 t ht) hrest

theorem Reachable.run {init s s' : σ} (h : Reachable step anyStep init s) (es : List ε)
    (hr : run step s es = some s') : Reachable step anyStep init s' :=
  h.run_ok es (.of_forall (fun _ _ _ => trivial) s) hr

/-- A run keeps an invariant in all its states exactly where each step meets the
condition, if that is what a single step keeps the invariant by. `Base` is what
every step keeps. -/
theorem allOk_iff {Base Inv : σ → Prop} {s s' : σ} {es : List ε}
    (hbase : ∀ s e s', Base s → step s e = some s' → Base s')
    (hinv : ∀ s e s', Base s → Inv s → step s e = some s' → (Inv s' ↔ ok s e))
    (hb : Base s) (h : Inv s) (hrun : run step s es = some s') :
    (∀ fs, fs <+: es → ∀ t, run step s fs = some t → Inv t) ↔ AllOk step ok s es := by
  induction es generalizing s with
  | nil =>
    refine ⟨fun _ => trivial, fun _ fs hfs t ht => ?_⟩
    obtain rfl := List.prefix_nil.mp hfs
    obtain rfl := Option.some.inj ht
    exact h
  | cons e es ih =>
    obtain ⟨s₁, he, hrest⟩ := Option.bind_eq_some_iff.mp hrun
    constructor
    · intro hall
      have h₁ : Inv s₁ := hall [e] ⟨es, rfl⟩ s₁ (by rw [run_cons, he]; rfl)
      refine ⟨(hinv s e s₁ hb h he).mp h₁, fun t ht => ?_⟩
      obtain rfl := Option.some.inj (he.symm.trans ht)
      refine (ih (hbase s e s₁ hb he) h₁ hrest).mp fun fs hfs t ht => ?_
      exact hall (e :: fs) (List.cons_prefix_cons.mpr ⟨rfl, hfs⟩) t (by rw [run_cons, he]; exact ht)
    · intro hok fs hfs t ht
      have h₁ : Inv s₁ := (hinv s e s₁ hb h he).mpr hok.1
      cases fs with
      | nil =>
        obtain rfl := Option.some.inj ht
        exact h
      | cons f fs =>
        obtain ⟨rfl, htail⟩ := List.cons_prefix_cons.mp hfs
        rw [run_cons, he, Option.bind_some] at ht
        exact (ih (hbase s f s₁ hb he) h₁ hrest).mpr (hok.2 s₁ he) fs htail t ht

end Runs
