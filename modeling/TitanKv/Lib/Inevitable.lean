import Mathlib.Algebra.Ring.Nat
import Mathlib.Data.List.Perm.Basic
import Mathlib.Order.WellFounded
import TitanKv.Lib.Runs

/-! # What every run comes to

`Inevitable Done s`: from `s` each run, in whatever order its steps are taken, comes
to a state of `Done`, and none is stuck before. A measure that every step lowers,
and a step wherever the goal is not met, make it so. -/

namespace Runs

variable {σ ε : Type} {step : σ → ε → Option σ} {Done : σ → Prop} {s s' : σ}

inductive Inevitable (step : σ → ε → Option σ) (Done : σ → Prop) : σ → Prop
  | now {s : σ} : Done s → Inevitable step Done s
  | later {s : σ} : (∃ e s', step s e = some s') →
      (∀ e s', step s e = some s' → Inevitable step Done s') → Inevitable step Done s

/-- The measure rule: what every step keeps gives a step wherever the goal is not met,
and no step goes up in a well-founded relation. -/
theorem Inevitable.of_measure (Inv : σ → Prop) {lt : σ → σ → Prop} (hwf : WellFounded lt)
    (hkeep : ∀ s e s', Inv s → step s e = some s' → Inv s')
    (hdown : ∀ s e s', Inv s → step s e = some s' → lt s' s)
    (hstep : ∀ s, Inv s → ¬ Done s → ∃ e s', step s e = some s') (h : Inv s) :
    Inevitable step Done s := by
  induction s using hwf.induction with
  | h s ih =>
    by_cases hdone : Done s
    · exact .now hdone
    · exact .later (hstep s h hdone) fun e s' he => ih s' (hdown s e s' h he) (hkeep s e s' h he)

/-- What the goal means where runs from the start come to. -/
theorem Inevitable.of_reachable {init : σ} {Goal : σ → Prop}
    (hgoal : ∀ s, Reachable step anyStep init s → Done s → Goal s)
    (h : Inevitable step Done s) (hs : Reachable step anyStep init s) : Inevitable step Goal s := by
  induction h with
  | now hdone => exact .now (hgoal _ hs hdone)
  | later hsome _ ih => exact .later hsome fun e s' he => ih e s' he (hs.step trivial he)

section Parties
variable {α : Type} {l : List α} {i : Nat} {a : α}

/-- The other parties, whatever the one at `i` becomes. -/
theorem exists_rest (h : l[i]? = some a) :
    ∃ rest, l.Perm (a :: rest) ∧ ∀ b, (l.set i b).Perm (b :: rest) := by
  obtain ⟨hi, rfl⟩ := List.getElem?_eq_some_iff.mp h
  refine ⟨l.take i ++ l.drop (i + 1), ?_, fun b => ?_⟩
  · conv_lhs => rw [← List.take_append_drop i l, List.drop_eq_getElem_cons hi]
    exact List.perm_middle
  · rw [List.set_eq_take_append_cons_drop, if_pos hi]
    exact List.perm_middle

/-- A sum over the parties, when one of them steps. -/
theorem exists_others (f : α → Nat) (h : l[i]? = some a) :
    ∃ others, (l.map f).sum = f a + others ∧ ∀ b, ((l.set i b).map f).sum = f b + others := by
  obtain ⟨rest, hperm, hset⟩ := exists_rest h
  exact ⟨(rest.map f).sum, (hperm.map f).sum_nat, fun b => ((hset b).map f).sum_nat⟩

end Parties

end Runs
