import Mathlib.Data.List.GetD
import Mathlib.Data.List.Induction
import Mathlib.Data.List.Nodup
import Mathlib.Data.List.OfFn
import TitanKv.Lib.Runs

/-! # Reading a memory cell by cell

A reader visits the cells of a memory in index order while other steps change
it. `combined` is what it has read so far with the cells it has not read as they
are. If every step leaves the unread cells alone, or ends with the read cells
still as they were read, `combined` is the memory at one moment of the run. -/

namespace Scan
open Runs

variable {σ ε α : Type} {n : Nat}

def combined (reads : List α) (mem : Fin n → α) : Fin n → α := fun i => reads.getD i (mem i)

/-- The step from `mem` to `mem'` changes no unread cell, or all read cells are
then as they were read. -/
def Undivided (reads : List α) (mem mem' : Fin n → α) : Prop :=
  (∀ i : Fin n, reads.length ≤ i → mem' i = mem i) ∨
    ∀ i : Fin n, ∀ h : i < reads.length, mem' i = reads.get ⟨i, h⟩

/-- What a step may do to the cells read so far. -/
inductive Advances (mem mem' : Fin n → α) (reads : Option (List α)) : Option (List α) → Prop
  | start : Advances mem mem' reads (some [])
  | visit {r : List α} (hlt : r.length < n) : reads = some r → mem' = mem →
      Advances mem mem' reads (some (r ++ [mem ⟨r.length, hlt⟩]))
  | keep : Advances mem mem' reads reads
  | stop : Advances mem mem' reads none

variable {reads : List α} {mem mem' : Fin n → α}

@[simp] theorem combined_nil : combined [] mem = mem := rfl

theorem combined_visit (hlt : reads.length < n) :
    combined (reads ++ [mem ⟨reads.length, hlt⟩]) mem = combined reads mem := by
  funext i
  unfold combined
  by_cases hi : i.val < reads.length
  · rw [List.getD_append _ _ _ _ hi]
  · rw [List.getD_append_right _ _ _ _ (Nat.le_of_not_lt hi),
      List.getD_eq_default _ _ (Nat.le_of_not_lt hi)]
    by_cases hlast : i.val = reads.length
    · have hcell : i = ⟨reads.length, hlt⟩ := Fin.ext hlast
      subst hcell
      simp
    · exact List.getD_eq_default _ _ (by simp; omega)

theorem combined_of_unread (h : ∀ i : Fin n, reads.length ≤ i → mem' i = mem i) :
    combined reads mem' = combined reads mem := by
  funext i
  unfold combined
  by_cases hi : i.val < reads.length
  · rw [List.getD_eq_getElem _ _ hi, List.getD_eq_getElem _ _ hi]
  · rw [h i (Nat.le_of_not_lt hi)]

theorem combined_of_read
    (h : ∀ i : Fin n, ∀ hi : i < reads.length, mem' i = reads.get ⟨i, hi⟩) :
    combined reads mem' = mem' := by
  funext i
  unfold combined
  by_cases hi : i.val < reads.length
  · rw [List.getD_eq_getElem _ _ hi, h i hi]
    rfl
  · rw [List.getD_eq_default _ _ (Nat.le_of_not_lt hi)]

/-- A complete scan is the memory it combines to. -/
theorem reads_of_combined (hall : reads.length = n) : reads = List.ofFn (combined reads mem) := by
  refine List.ext_getElem (by simp [hall]) fun i h _ => ?_
  rw [List.getElem_ofFn]
  exact (List.getD_eq_getElem _ _ h).symm

section Run
variable {step : σ → ε → Option σ} (memory : σ → Fin n → α) (scan : σ → Option (List α))

/-- The step divides no scan that is under way. -/
def Keeps (step : σ → ε → Option σ) (s : σ) (e : ε) : Prop :=
  ∀ s' r, step s e = some s' → scan s = some r → Undivided r (memory s) (memory s')

/-- The scan rule: at every moment of an admitted run, what is read so far and
the rest of the memory are the memory at one moment since the scan began. -/
theorem moment_of_run
    (hstep : ∀ s e s', step s e = some s' → Advances (memory s) (memory s') (scan s) (scan s'))
    {s₀ s : σ} {es : List ε} {r : List α} (hstart : scan s₀ = some [])
    (hok : AllOk step (Keeps memory scan step) s₀ es) (hrun : run step s₀ es = some s)
    (hr : scan s = some r) :
    ∃ es' t, es' <+: es ∧ run step s₀ es' = some t ∧ combined r (memory s) = memory t := by
  induction es using List.reverseRecOn generalizing s r with
  | nil =>
    obtain rfl := Option.some.inj hrun
    obtain rfl := Option.some.inj (hstart.symm.trans hr)
    exact ⟨[], s₀, List.prefix_rfl, rfl, combined_nil⟩
  | append_singleton es e ih =>
    have hall := hrun
    rw [run_append, Option.bind_eq_some_iff] at hrun
    obtain ⟨s₁, hrun₁, hlast⟩ := hrun
    have hs : step s₁ e = some s := by simpa [run_cons] using hlast
    obtain ⟨hok₁, hoke⟩ := AllOk.append.mp hok
    have hearlier : ∀ {r₁}, scan s₁ = some r₁ → combined r (memory s) = combined r₁ (memory s₁) →
        ∃ es' t, es' <+: es ++ [e] ∧ run step s₀ es' = some t ∧
          combined r (memory s) = memory t := by
      intro r₁ hr₁ hcombined
      obtain ⟨es', t, hpre, hrun', hmem⟩ := ih hok₁ hrun₁ hr₁
      exact ⟨es', t, hpre.trans (List.prefix_append _ _), hrun', hcombined.trans hmem⟩
    have hadvances := hstep s₁ e s hs
    rw [hr] at hadvances
    generalize hafter : some r = after at hadvances
    cases hadvances with
    | start =>
      obtain rfl := Option.some.inj hafter
      exact ⟨es ++ [e], s, List.prefix_rfl, hall, combined_nil⟩
    | visit hlt hr₁ hmem =>
      obtain rfl := Option.some.inj hafter
      exact hearlier hr₁ (by rw [hmem, combined_visit])
    | keep =>
      have hr₁ := hafter.symm
      rcases (hoke s₁ hrun₁).1 s r hs hr₁ with hunread | hread
      · exact hearlier hr₁ (combined_of_unread hunread)
      · exact ⟨es ++ [e], s, List.prefix_rfl, hall, combined_of_read hread⟩
    | stop => cases hafter

end Run

section Collect
variable {κ : Type} {index : κ → Fin n} {batches : List (List κ)} {batch : List κ}

/-- Keys listed cell by cell: each batch holds keys of its own cell, none twice. -/
structure Collected (index : κ → Fin n) (batches : List (List κ)) : Prop where
  distinct : ∀ batch ∈ batches, batch.Nodup
  cells : ∀ (i : Nat) batch, batches[i]? = some batch → ∀ key ∈ batch, (index key).val = i

theorem Collected.nil : Collected index [] := ⟨by simp, by simp⟩

theorem Collected.visit (h : Collected index batches) (hdistinct : batch.Nodup)
    (hcell : ∀ key ∈ batch, (index key).val = batches.length) :
    Collected index (batches ++ [batch]) := by
  constructor
  · intro b hb
    rcases List.mem_append.mp hb with hb | hb
    · exact h.distinct b hb
    · obtain rfl := List.mem_singleton.mp hb
      exact hdistinct
  · intro i b hb key hkey
    rcases Nat.lt_or_ge i batches.length with hi | hi
    · rw [List.getElem?_append_left hi] at hb
      exact h.cells i b hb key hkey
    · rw [List.getElem?_append_right hi, List.getElem?_singleton] at hb
      split at hb
      · obtain rfl := Option.some.inj hb
        have hlen := hcell key hkey
        omega
      · cases hb

/-- Batches of different cells share no key, whenever each was listed. -/
theorem Collected.nodup (h : Collected index batches) : batches.flatten.Nodup := by
  refine List.nodup_flatten.mpr ⟨h.distinct, List.pairwise_iff_getElem.mpr fun i j hi hj hlt => ?_⟩
  intro key hkey hkey'
  have hcell := h.cells i _ (List.getElem?_eq_getElem hi) key hkey
  have hcell' := h.cells j _ (List.getElem?_eq_getElem hj) key hkey'
  omega

end Collect

end Scan
