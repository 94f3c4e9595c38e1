import Mathlib.Algebra.BigOperators.Group.Finset.Piecewise
import Mathlib.Algebra.Ring.Nat
import Mathlib.Data.Fintype.Basic
import Mathlib.Data.List.AList

/-! # Sums over the entries of maps

A weight of the values gives each map the sum over its entries, and a family of
maps the sum over its maps. Both change by what one entry changes. -/

namespace Tally

variable {α β ι : Type} (w : β → Nat)

def ofMap (map : AList fun _ : α => β) : Nat := (map.entries.map fun e => w e.2).sum

/-- The weight of what a lookup finds. -/
def ofFound (found : Option β) : Nat := found.elim 0 w

section Insert
variable [DecidableEq α]

theorem sum_kerase (a : α) (entries : List ((_ : α) × β)) :
    (entries.map fun e => w e.2).sum =
      ofFound w (entries.dlookup a) + ((entries.kerase a).map fun e => w e.2).sum := by
  induction entries with
  | nil => rfl
  | cons e entries ih =>
    obtain ⟨k, b⟩ := e
    by_cases hk : a = k
    · subst hk
      rw [List.kerase_cons_eq (s := (⟨a, b⟩ : (_ : α) × β)) rfl, List.dlookup_cons_eq]
      rfl
    · rw [List.kerase_cons_ne hk, List.dlookup_cons_ne _ _ hk, List.map_cons, List.map_cons,
        List.sum_cons, List.sum_cons, ih]
      omega

/-- Inserting puts the new weight in the place of the old. -/
theorem ofMap_insert (a : α) (b : β) (map : AList fun _ : α => β) :
    ofMap w (map.insert a b) + ofFound w (map.lookup a) = ofMap w map + w b := by
  have hsum : ofMap w map =
      ofFound w (map.lookup a) + ((map.entries.kerase a).map fun e => w e.2).sum :=
    sum_kerase w a map.entries
  have hinsert : ofMap w (map.insert a b) =
      w b + ((map.entries.kerase a).map fun e => w e.2).sum := by
    rw [ofMap, AList.entries_insert, List.map_cons, List.sum_cons]
  omega

end Insert

section Total
variable [Fintype ι] [DecidableEq ι]

def total (mem : ι → AList fun _ : α => β) : Nat := ∑ i, ofMap w (mem i)

theorem total_update (mem : ι → AList fun _ : α => β) (i : ι) (map : AList fun _ : α => β) :
    total w (Function.update mem i map) + ofMap w (mem i) = total w mem + ofMap w map := by
  have hrest : ∀ j ∈ Finset.univ.erase i, ofMap w (Function.update mem i map j) =
      ofMap w (mem j) := by
    intro j hj
    rw [Function.update_of_ne (Finset.ne_of_mem_erase hj)]
  have hafter :=
    Finset.add_sum_erase Finset.univ (fun j => ofMap w (Function.update mem i map j))
      (Finset.mem_univ i)
  have hbefore := Finset.add_sum_erase Finset.univ (fun j => ofMap w (mem j)) (Finset.mem_univ i)
  rw [Finset.sum_congr rfl hrest, Function.update_self] at hafter
  unfold total
  omega

end Total

end Tally
