import Mathlib.Algebra.Order.BigOperators.Group.Finset
import Mathlib.Data.Fintype.BigOperators
import Mathlib.Tactic

/-! Totals of a weight over the members of a finite group, and what one member's change does to
them. -/
namespace Tally
open Function Finset

variable {ι α : Type*} [Fintype ι]

def tally (w : α → Nat) (g : ι → α) : Nat :=
  ∑ i, w (g i)

theorem tally_eq_card (p : α → Prop) [DecidablePred p] (g : ι → α) :
    tally (fun a => if p a then 1 else 0) g=(Finset.univ.filter fun i => p (g i)).card := by
  rw [tally,card_filter]

theorem le_tally (w : α → Nat) (g : ι → α) (i : ι) : w (g i)≤tally w g :=
  single_le_sum (f := fun i => w (g i)) (fun _ _ => Nat.zero_le _) (mem_univ i)

theorem tally_eq_zero_iff {w : α → Nat} {g : ι → α} : tally w g=0 ↔ ∀ i, w (g i)=0 := by
  simp [tally]

variable [DecidableEq ι]

/-- When one member changes, the total changes by the difference of its weights. -/
theorem tally_update (w : α → Nat) (g : ι → α) (i : ι) (a : α) :
    tally w (update g i a)+w (g i)=tally w g+w a := by
  have hnew := add_sum_erase Finset.univ (fun j => w (update g i a j))
    (mem_univ i)
  have hold := add_sum_erase Finset.univ (fun j => w (g j)) (mem_univ i)
  have hrest : ∑ j∈Finset.univ.erase i, w (update g i a j) =
      ∑ j∈Finset.univ.erase i, w (g j) := by
    refine sum_congr rfl fun j hj => ?_
    rw [update_of_ne (ne_of_mem_erase hj)]
  simp only [update_self] at hnew
  unfold tally
  omega

theorem add_le_tally (w : α → Nat) (g : ι → α) {i j : ι} (h : i≠j) : w (g i)+w (g j)≤tally w g := by
  have hpair := sum_le_sum_of_subset (f := fun k => w (g k)) (subset_univ {i, j})
  rwa [sum_pair h] at hpair

end Tally
