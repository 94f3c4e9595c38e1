import TitanKv.Lib.TwoPhase

/-! # What the updates of a program keep

A relation between the cell before and the cell after that every update of a
program meets is met by the whole run, if it is reflexive and transitive. -/

namespace TwoPhase

variable {ι σ μ α β : Type} {R : σ → σ → Prop}

/-- Every update of the program relates the cell before to the cell after. -/
def Updates (R : σ → σ → Prop) : Prog ι σ μ α → Prop
  | .done _ => True
  | .hang => True
  | .lock _ _ k => Updates R k
  | .unlock _ k => Updates R k
  | .read _ k => ∀ v, Updates R (k v)
  | .update _ f k => (∀ v, R v (f v)) ∧ Updates R k
  | .send _ k => Updates R k

theorem Updates.bind {p : Prog ι σ μ α} {f : α → Prog ι σ μ β} (h : Updates R p)
    (hf : ∀ a, Updates R (f a)) : Updates R (p >>= f) := by
  induction p with
  | done a => exact hf a
  | hang => trivial
  | lock i m k ih => exact ih h
  | unlock i k ih => exact ih h
  | read i k ih => exact fun v => ih v (h v)
  | update i g k ih => exact ⟨h.1, ih h.2⟩
  | send x k ih => exact ih h

theorem Updates.mono {S : σ → σ → Prop} {p : Prog ι σ μ α} (h : Updates R p)
    (hRS : ∀ u v, R u v → S u v) : Updates S p := by
  induction p with
  | done _ | hang => trivial
  | lock _ _ k ih | unlock _ k ih | send _ k ih => exact ih h
  | read i k ih => exact fun v => ih v (h v)
  | update i g k ih => exact ⟨fun v => hRS v (g v) (h.1 v), ih h.2⟩

theorem updates_get {i : ι} {f : σ → Prog ι σ μ α} (h : ∀ v, Updates R (f v)) :
    Updates R (Prog.get i >>= f) := h

theorem updates_modify {i : ι} {g : σ → σ} {f : Unit → Prog ι σ μ α} (hg : ∀ v, R v (g v))
    (h : Updates R (f ())) :
    Updates R (Prog.modify i g >>= f) := ⟨hg, h⟩

/-- The run rule: what single updates keep, the run keeps in every cell. -/
theorem Updates.run [DecidableEq ι] (hrefl : ∀ v, R v v) (htrans : ∀ u v w, R u v → R v w → R u w)
    {p : Prog ι σ μ α} (h : Updates R p) {mem mem' : ι → σ} {a : α} {xs : List μ}
    (hrun : p.run mem = some (a, mem', xs)) (i : ι) : R (mem i) (mem' i) := by
  induction p generalizing mem xs with
  | done b =>
    obtain ⟨-, rfl, -⟩ := by simpa using hrun
    exact hrefl _
  | hang => cases hrun
  | lock j m k ih => exact ih h hrun
  | unlock j k ih => exact ih h hrun
  | read j k ih => exact ih (mem j) (h (mem j)) hrun
  | update j f k ih =>
    refine htrans _ _ _ ?_ (ih h.2 hrun)
    by_cases hij : i = j
    · subst hij
      rw [Function.update_self]
      exact h.1 _
    · rw [Function.update_of_ne hij]
      exact hrefl _
  | send x k ih =>
    obtain ⟨⟨b, mem₁, ys⟩, hk, heq⟩ := Option.map_eq_some_iff.mp hrun
    obtain ⟨rfl, rfl, rfl⟩ := by simpa using heq
    exact ih h hk

end TwoPhase
