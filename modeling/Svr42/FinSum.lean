import Mathlib.Algebra.Order.BigOperators.Group.Finset

/-! Sums over a finite table, when one entry of it is overwritten. -/

namespace Svr42
open Function

open Finset

variable {ι V : Type*} [Fintype ι]

theorem sum_pos_of_entry {g : V → Nat} {f : ι → V} {i : ι} (h : 0 < g (f i)) : 0 < ∑ j, g (f j) :=
  lt_of_lt_of_le h (single_le_sum (fun j _ => Nat.zero_le (g (f j))) (mem_univ i))

variable [DecidableEq ι]

theorem sum_overwrite (g : V → Nat) (f : ι → V) (i : ι) (v : V) :
    ∑ j, g (update f i v j) + g (f i) = ∑ j, g (f j) + g v := by
  have hi : i ∈ univ := mem_univ i
  have hrest : ∑ j ∈ univ.erase i, g (update f i v j) = ∑ j ∈ univ.erase i, g (f j) :=
    sum_congr rfl fun j hj => by rw [update_of_ne (ne_of_mem_erase hj)]
  calc ∑ j, g (update f i v j) + g (f i)
      = g v + ∑ j ∈ univ.erase i, g (update f i v j) + g (f i) := by
        rw [← add_sum_erase univ _ hi, update_self]
    _ = g (f i) + ∑ j ∈ univ.erase i, g (f j) + g v := by
        rw [hrest]
        ac_rfl
    _ = ∑ j, g (f j) + g v := by rw [add_sum_erase univ (fun j => g (f j)) hi]

end Svr42
