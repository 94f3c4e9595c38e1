import TitanKv.Lib.TwoPhase

/-! # Many cells and one

A program over cells and a program on a single cell, which stands for all of
them: `R` relates the cells to the one. The programs match if they read alike of
related states, keep them related and send the same; locks do not count. Matching
programs have the same runs. -/

namespace TwoPhase

variable {ι κ σ μ α β : Type} [DecidableEq ι] {R : (ι → σ) → σ → Prop}

inductive Matches (R : (ι → σ) → σ → Prop) : Prog ι σ μ α → Prog κ σ μ α → Prop
  | done (a : α) : Matches R (.done a) (.done a)
  | hang : Matches R .hang .hang
  | lockL {i : ι} {m : Mode} {p : Prog ι σ μ α} {q : Prog κ σ μ α} (h : Matches R p q) :
      Matches R (.lock i m p) q
  | lockR {j : κ} {m : Mode} {p : Prog ι σ μ α} {q : Prog κ σ μ α} (h : Matches R p q) :
      Matches R p (.lock j m q)
  | unlockL {i : ι} {p : Prog ι σ μ α} {q : Prog κ σ μ α} (h : Matches R p q) :
      Matches R (.unlock i p) q
  | unlockR {j : κ} {p : Prog ι σ μ α} {q : Prog κ σ μ α} (h : Matches R p q) :
      Matches R p (.unlock j q)
  | read {i : ι} {j : κ} {f : σ → Prog ι σ μ α} {g : σ → Prog κ σ μ α}
      (h : ∀ mem one, R mem one → Matches R (f (mem i)) (g one)) : Matches R (.read i f) (.read j g)
  | update {i : ι} {j : κ} {f g : σ → σ} {p : Prog ι σ μ α} {q : Prog κ σ μ α}
      (hR : ∀ mem one, R mem one → R (Function.update mem i (f (mem i))) (g one))
      (h : Matches R p q) : Matches R (.update i f p) (.update j g q)
  | send {x : μ} {p : Prog ι σ μ α} {q : Prog κ σ μ α} (h : Matches R p q) :
      Matches R (.send x p) (.send x q)

theorem Matches.bind {p : Prog ι σ μ α} {q : Prog κ σ μ α} {f : α → Prog ι σ μ β}
    {g : α → Prog κ σ μ β} (h : Matches R p q) (hf : ∀ a, Matches R (f a) (g a)) :
    Matches R (p >>= f) (q >>= g) := by
  induction h with
  | done a => exact hf a
  | hang => exact .hang
  | lockL _ ih => exact .lockL ih
  | lockR _ ih => exact .lockR ih
  | unlockL _ ih => exact .unlockL ih
  | unlockR _ ih => exact .unlockR ih
  | read _ ih => exact .read ih
  | update hR _ ih => exact .update hR ih
  | send _ ih => exact .send ih

/-- The two runs end alike: neither ends, or both do with the same result and
messages and in related states. -/
inductive EndAlike (R : (ι → σ) → σ → Prop) :
    Option (α × (ι → σ) × List μ) → Option (α × σ × List μ) → Prop
  | hang : EndAlike R none none
  | ends {a : α} {mem : ι → σ} {one : σ} {xs : List μ} (h : R mem one) :
      EndAlike R (some (a, mem, xs)) (some (a, one, xs))

theorem Matches.run {p : Prog ι σ μ α} {q : Prog κ σ μ α} (h : Matches R p q) {mem : ι → σ}
    {one : σ} (hR : R mem one) : EndAlike R (p.run mem) (q.runCell one) := by
  induction h generalizing mem one with
  | done a => exact .ends hR
  | hang => exact .hang
  | lockL _ ih => exact ih hR
  | lockR _ ih => exact ih hR
  | unlockL _ ih => exact ih hR
  | unlockR _ ih => exact ih hR
  | read _ ih => exact ih mem one hR hR
  | update hU _ ih => exact ih (hU mem one hR)
  | @send x p q _ ih =>
    rw [Prog.run_send, runCell_send]
    have hrest := ih hR
    revert hrest
    generalize p.run mem = r
    generalize q.runCell one = s
    rintro (_ | h)
    · exact .hang
    · exact .ends h

end TwoPhase
