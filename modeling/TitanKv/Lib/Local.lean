import Mathlib.Data.Set.Basic
import Mathlib.Logic.Function.Basic

/-! # Operations local to some keys

An operation on a total map `K → V` is local to a set of keys if it changes
only them and what it makes of them depends only on them. Local operations
compose, and those local to disjoint sets commute. -/

namespace Local

variable {K V : Type} {S T : Set K} {f g : (K → V) → K → V}

structure LocalTo (S : Set K) (f : (K → V) → K → V) : Prop where
  frame : ∀ m k, k ∉ S → f m k = m k
  reads : ∀ m m', (∀ k ∈ S, m k = m' k) → ∀ k ∈ S, f m k = f m' k

theorem LocalTo.id : LocalTo S (fun m : K → V => m) :=
  ⟨fun _ _ _ => rfl, fun _ _ h k hk => h k hk⟩

theorem LocalTo.mono (h : LocalTo S f) (hST : S ⊆ T) : LocalTo T f where
  frame m k hk := h.frame m k fun hS => hk (hST hS)
  reads m m' hm k hk := by
    by_cases hS : k ∈ S
    · exact h.reads m m' (fun j hj => hm j (hST hj)) k hS
    · rw [h.frame m k hS, h.frame m' k hS, hm k hk]

theorem LocalTo.comp (hf : LocalTo S f) (hg : LocalTo S g) : LocalTo S fun m => f (g m) where
  frame m k hk := by rw [hf.frame _ k hk, hg.frame m k hk]
  reads m m' hm := hf.reads _ _ (hg.reads m m' hm)

theorem LocalTo.commute (hf : LocalTo S f) (hg : LocalTo T g) (hdisj : ∀ k ∈ S, k ∉ T)
    (m : K → V) : f (g m) = g (f m) := by
  funext k
  by_cases hS : k ∈ S
  · have hsame : ∀ j ∈ S, g m j = m j := fun j hj => hg.frame m j (hdisj j hj)
    rw [hg.frame _ k (hdisj k hS), hf.reads _ _ hsame k hS]
  · rw [hf.frame _ k hS]
    by_cases hT : k ∈ T
    · have hsame : ∀ j ∈ T, m j = f m j :=
        fun j hj => (hf.frame m j fun hjS => hdisj j hjS hj).symm
      exact hg.reads _ _ hsame k hT
    · rw [hg.frame _ k hT, hg.frame _ k hT, hf.frame _ k hS]

section Point
variable [DecidableEq K]

/-- The operation that recomputes the value of one key. -/
def onKey (h : V → V) (k : K) (m : K → V) : K → V := Function.update m k (h (m k))

@[simp] theorem onKey_self (h : V → V) (k : K) (m : K → V) : onKey h k m k = h (m k) := by
  simp [onKey]

theorem onKey_of_ne (h : V → V) {k j : K} (m : K → V) (hj : j ≠ k) : onKey h k m j = m j := by
  simp [onKey, hj]

theorem LocalTo.onKey (h : V → V) {k : K} (hk : k ∈ S) : LocalTo S (Local.onKey h k) where
  frame m j hj := onKey_of_ne h m fun heq => hj (heq ▸ hk)
  reads m m' hm j hj := by
    by_cases hjk : j = k
    · subst hjk; rw [onKey_self, onKey_self, hm j hj]
    · rw [onKey_of_ne h m hjk, onKey_of_ne h m' hjk, hm j hj]

/-- A property of all entries is kept if the recomputed one has it. -/
theorem onKey_all {P : K → V → Prop} {h : V → V} {k : K} {m : K → V} (hm : ∀ j, P j (m j))
    (hk : P k (h (m k))) (j : K) : P j (onKey h k m j) := by
  by_cases hj : j = k
  · subst hj; rwa [onKey_self]
  · rw [onKey_of_ne h m hj]; exact hm j

end Point

end Local
