import Mathlib.Algebra.BigOperators.Group.Finset.Basic
import Mathlib.Algebra.BigOperators.Group.Finset.Piecewise
import Mathlib.Data.Fintype.Basic

/-!
# Counting references

A table of slots, each of which may refer to an object. How often an object is referred to
changes with one slot at a time.
-/

namespace Refs

open Function

variable {ι α : Type} [Fintype ι] [DecidableEq ι] [DecidableEq α]

/-- The number of slots that refer to `a`. -/
def count (table : ι → Option α) (a : α) : ℕ := ∑ i, if table i = some a then 1 else 0

variable {table : ι → Option α} {a : α} {i : ι}

/-- Changing one slot. -/
theorem count_update (v : Option α) :
    count (update table i v) a + (if table i = some a then 1 else 0) =
      count table a + (if v = some a then 1 else 0) := by
  unfold count
  rw [← Finset.add_sum_erase _ _ (Finset.mem_univ i),
    ← Finset.add_sum_erase (Finset.univ : Finset ι) (fun i => if table i = some a then 1 else 0)
      (Finset.mem_univ i), update_self]
  have hrest : ∀ j ∈ Finset.univ.erase i,
      (if update table i v j = some a then 1 else 0) =
        if table j = some a then 1 else 0 := by
    intro j hj
    rw [update_of_ne (Finset.ne_of_mem_erase hj)]
  rw [Finset.sum_congr rfl hrest]
  omega

/-- An object that some slot refers to is counted. -/
theorem count_pos (h : table i = some a) : 0 < count table a := by
  unfold count
  rw [← Finset.add_sum_erase _ _ (Finset.mem_univ i), if_pos h]
  omega

omit [DecidableEq ι] in
/-- Nothing refers to it. -/
theorem count_eq_zero (h : ∀ i, table i ≠ some a) : count table a = 0 :=
  Finset.sum_eq_zero fun i _ => if_neg (h i)

end Refs
