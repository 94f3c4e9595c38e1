import Mathlib.Data.Set.Basic
import TitanKv.Lib.Merged

/-! # Footprints

Here the cells hold maps: `look` reads the entry of a key in a cell, and `home`
names the cell each key belongs to. A program has a footprint if it looks at the
keys of it only, in their homes, and changes no other entry. A relation to a
single cell that tracks the footprint is kept by the program. Programs with
disjoint footprints commute. -/

namespace TwoPhase

variable {ι σ μ α β K V : Type} [DecidableEq ι] {home : K → ι} {look : σ → K → V}

/-- A change of a cell at one key that depends on the entry there only. -/
structure LocalChange (look : σ → K → V) (key : K) (f : σ → σ) : Prop where
  frame : ∀ v k, k ≠ key → look (f v) k = look v k
  reads : ∀ v v', look v key = look v' key → look (f v) key = look (f v') key

/-- The one cell has the entry of the key, and takes each change made of it. -/
structure Tracking (home : K → ι) (look : σ → K → V) (R : (ι → σ) → σ → Prop) (key : K) : Prop where
  reads : ∀ mem one, R mem one → look (mem (home key)) key = look one key
  change : ∀ f, LocalChange look key f → ∀ mem one, R mem one →
    R (Function.update mem (home key) (f (mem (home key)))) (f one)

/-- The program matches one on a single cell under every relation that tracks the
keys of `S`. -/
def Footprint (home : K → ι) (look : σ → K → V) (S : Set K) (p : Prog ι σ μ α) : Prop :=
  ∃ q : Prog ι σ μ α, ∀ R, (∀ key ∈ S, Tracking home look R key) → Matches R p q

/-- The one cell has the entries of `S`; all others are as at the start. -/
structure Footing (home : K → ι) (look : σ → K → V) (S : Set K) (start mem : ι → σ) (one : σ) :
    Prop where
  named : ∀ key ∈ S, look (mem (home key)) key = look one key
  others : ∀ i key, ¬ (key ∈ S ∧ i = home key) → look (mem i) key = look (start i) key

variable {S T : Set K} {start mem mem' : ι → σ} {one : σ} {key : K}

theorem Footing.tracks (hkey : key ∈ S) : Tracking home look (Footing home look S start) key where
  reads _ _ h := h.named key hkey
  change f hf mem one h := by
    constructor
    · intro k hk
      by_cases hhome : home k = home key
      · rw [hhome, Function.update_self]
        by_cases heq : k = key
        · rw [heq]
          exact hf.reads _ _ (h.named key hkey)
        · rw [hf.frame _ k heq, hf.frame _ k heq, ← h.named k hk, hhome]
      · have hne : k ≠ key := fun heq => hhome (by rw [heq])
        rw [Function.update_of_ne hhome, hf.frame _ k hne, h.named k hk]
    · intro i k hk
      by_cases hi : i = home key
      · have hne : k ≠ key := fun heq => hk ⟨heq ▸ hkey, heq ▸ hi⟩
        rw [hi, Function.update_self, hf.frame _ k hne, ← hi, h.others i k hk]
      · rw [Function.update_of_ne hi, h.others i k hk]

section Runs
variable {p q : Prog ι σ μ α} {a : α} {xs : List μ}

/-- The run of a program on the memory is its run on the one cell. -/
theorem endsAlike_footing (hp : ∀ R, (∀ key ∈ S, Tracking home look R key) → Matches R p q)
    (hone : ∀ key ∈ S, look (mem (home key)) key = look one key) :
    EndAlike (Footing home look S mem) (p.run mem) (q.runCell one) :=
  (hp _ fun _ hkey => Footing.tracks hkey).run ⟨hone, fun _ _ _ => rfl⟩

theorem runCell_of_run (hp : ∀ R, (∀ key ∈ S, Tracking home look R key) → Matches R p q)
    (hone : ∀ key ∈ S, look (mem (home key)) key = look one key)
    (hrun : p.run mem = some (a, mem', xs)) :
    ∃ one', q.runCell one = some (a, one', xs) ∧ Footing home look S mem mem' one' := by
  have hends := endsAlike_footing hp hone
  rw [hrun] at hends
  revert hends
  generalize q.runCell one = ends
  intro hends
  cases hends with
  | ends h => exact ⟨_, rfl, h⟩

theorem run_of_runCell {one' : σ} (hp : ∀ R, (∀ key ∈ S, Tracking home look R key) → Matches R p q)
    (hone : ∀ key ∈ S, look (mem (home key)) key = look one key)
    (hrun : q.runCell one = some (a, one', xs)) :
    ∃ mem', p.run mem = some (a, mem', xs) ∧ Footing home look S mem mem' one' := by
  have hends := endsAlike_footing hp hone
  rw [hrun] at hends
  revert hends
  generalize p.run mem = ends
  intro hends
  cases hends with
  | ends h => exact ⟨_, rfl, h⟩

end Runs

section Commute
variable {p : Prog ι σ μ α} {q : Prog ι σ μ β} {a : α} {b : β} {xs ys : List μ} {mem₁ mem₂ : ι → σ}

/-- A program leaves every entry outside its footprint alone. -/
theorem Footprint.frame (hp : Footprint home look S p)
    (hone : ∃ one, ∀ key ∈ S, look (mem (home key)) key = look one key)
    (hrun : p.run mem = some (a, mem', xs)) {i : ι} (hkey : ¬ (key ∈ S ∧ i = home key)) :
    look (mem' i) key = look (mem i) key := by
  obtain ⟨p', hp⟩ := hp
  obtain ⟨one, hone⟩ := hone
  obtain ⟨_, -, h⟩ := runCell_of_run hp hone hrun
  exact h.others i key hkey

/-- On a memory with the same entries in its footprint a program does the same, and
leaves the rest of that memory alone. -/
theorem Footprint.agree {other : ι → σ} (hp : Footprint home look S p)
    (hone : ∃ one, ∀ key ∈ S, look (mem (home key)) key = look one key)
    (hsame : ∀ key ∈ S, look (other (home key)) key = look (mem (home key)) key)
    (hrun : p.run mem = some (a, mem', xs)) :
    ∃ other', p.run other = some (a, other', xs) ∧
      (∀ key ∈ S, look (other' (home key)) key = look (mem' (home key)) key) ∧
      ∀ i key, ¬ (key ∈ S ∧ i = home key) →
        look (mem' i) key = look (mem i) key ∧ look (other' i) key = look (other i) key := by
  obtain ⟨p', hp⟩ := hp
  obtain ⟨one, hone⟩ := hone
  obtain ⟨one', hcell, hfoot⟩ := runCell_of_run hp hone hrun
  obtain ⟨other', hrun', hfoot'⟩ :=
    run_of_runCell hp (fun key hkey => (hsame key hkey).trans (hone key hkey)) hcell
  refine ⟨other', hrun', fun key hkey => ?_,
    fun i key hkey => ⟨hfoot.others i key hkey, hfoot'.others i key hkey⟩⟩
  rw [hfoot'.named key hkey, hfoot.named key hkey]

/-- Two programs with disjoint footprints, one after the other: in the other order
they have the same results and messages and leave the same entries. -/
theorem Footprint.commute (hp : Footprint home look S p) (hq : Footprint home look T q)
    (hdisj : ∀ key ∈ S, key ∉ T)
    (hone : ∃ one, ∀ key, key ∈ S ∨ key ∈ T → look (mem (home key)) key = look one key)
    (hrun₁ : p.run mem = some (a, mem₁, xs)) (hrun₂ : q.run mem₁ = some (b, mem₂, ys)) :
    ∃ mem₃ mem₄, q.run mem = some (b, mem₃, ys) ∧ p.run mem₃ = some (a, mem₄, xs) ∧
      ∀ i key, look (mem₂ i) key = look (mem₄ i) key := by
  obtain ⟨p', hp⟩ := hp
  obtain ⟨q', hq⟩ := hq
  obtain ⟨one, hone⟩ := hone
  obtain ⟨oneP, hcellP, hfoot₁⟩ := runCell_of_run hp (fun key hkey => hone key (Or.inl hkey)) hrun₁
  have hT : ∀ key ∈ T, look (mem₁ (home key)) key = look one key := by
    intro key hkey
    rw [hfoot₁.others _ _ fun h => hdisj key h.1 hkey, hone key (Or.inr hkey)]
  obtain ⟨oneQ, hcellQ, hfoot₂⟩ := runCell_of_run hq hT hrun₂
  obtain ⟨mem₃, hrun₃, hfoot₃⟩ := run_of_runCell hq (fun key hkey => hone key (Or.inr hkey)) hcellQ
  have hS : ∀ key ∈ S, look (mem₃ (home key)) key = look one key := by
    intro key hkey
    rw [hfoot₃.others _ _ fun h => hdisj key hkey h.1, hone key (Or.inl hkey)]
  obtain ⟨mem₄, hrun₄, hfoot₄⟩ := run_of_runCell hp hS hcellP
  refine ⟨mem₃, mem₄, hrun₃, hrun₄, fun i key => ?_⟩
  -- an entry of either footprint, in its home, or one that neither program touches
  by_cases hkeyS : key ∈ S ∧ i = home key
  · obtain ⟨hkey, rfl⟩ := hkeyS
    rw [hfoot₂.others _ _ fun h => hdisj key hkey h.1, hfoot₁.named key hkey, hfoot₄.named key hkey]
  · rw [hfoot₄.others i key hkeyS]
    by_cases hkeyT : key ∈ T ∧ i = home key
    · obtain ⟨hkey, rfl⟩ := hkeyT
      rw [hfoot₂.named key hkey, hfoot₃.named key hkey]
    · rw [hfoot₂.others i key hkeyT, hfoot₁.others i key hkeyS, hfoot₃.others i key hkeyT]

end Commute

end TwoPhase
