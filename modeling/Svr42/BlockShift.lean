import Mathlib.Logic.Function.Basic

/-! Moving a range of blocks down by a gap that may be smaller than the range, lowest block first:
how far the move has come, and that it may be taken up again from any block whose copy lies less
than one gap back. -/

namespace Svr42
open Function

variable {β : Type*} {B : Nat → β} {lo gap u r e x : Nat}

/-- The blocks after those from `lo` up to `u` were copied down by `gap`. -/
def shifted (B : Nat → β) (lo gap u x : Nat) : β := if lo ≤ x + gap ∧ x + gap < u then B (x + gap) else B x

theorem shifted_in (hlo : lo ≤ x + gap) (hu : x + gap < u) : shifted B lo gap u x = B (x + gap) :=
  if_pos ⟨hlo, hu⟩

theorem shifted_below (h : x + gap < lo) : shifted B lo gap u x = B x :=
  if_neg fun hin => Nat.not_le.mpr h hin.1

theorem shifted_above (h : u ≤ x + gap) : shifted B lo gap u x = B x :=
  if_neg fun hin => Nat.not_le.mpr hin.2 h

theorem shifted_start : shifted B lo gap lo = B := by
  funext x
  rcases Nat.lt_or_ge (x + gap) lo with h | h
  · exact shifted_below h
  · exact shifted_above h

theorem shifted_succ (hlo : lo ≤ u) (hgap : gap ≤ u) :
    update (shifted B lo gap u) (u - gap) (B u) = shifted B lo gap (u + 1) := by
  funext x
  by_cases hx : x = u - gap
  · have hsum : x + gap = u := by omega
    rw [hx, update_self, ← hx, shifted_in (by omega) (by omega), hsum]
  rw [update_of_ne hx]
  unfold shifted
  by_cases hin : lo ≤ x + gap ∧ x + gap < u
  · rw [if_pos hin, if_pos ⟨hin.1, Nat.lt_succ_of_lt hin.2⟩]
  · rw [if_neg hin, if_neg fun h => hin ⟨h.1, by omega⟩]

/-- A move that has come to `u` may be taken up again at `r`, no more than a gap before. -/
theorem shifted_again (hlo : lo ≤ r) (hru : r ≤ u) (hur : u ≤ r + gap) :
    shifted (shifted B lo gap u) r gap e = shifted B lo gap (max u e) := by
  funext x
  by_cases hin : r ≤ x + gap ∧ x + gap < e
  · rw [shifted_in hin.1 hin.2, shifted_above (by omega), shifted_in (by omega) (by omega)]
  · unfold shifted
    rw [if_neg hin]
    by_cases hmax : lo ≤ x + gap ∧ x + gap < u
    · rw [if_pos hmax, if_pos ⟨hmax.1, by omega⟩]
    · rw [if_neg hmax, if_neg fun h => hmax ⟨h.1, by omega⟩]

theorem shifted_resume (hlo : lo ≤ r) (hru : r ≤ u) (hur : u ≤ r + gap) (hue : u ≤ e) :
    shifted (shifted B lo gap u) r gap e = shifted B lo gap e := by
  rw [shifted_again hlo hru hur, Nat.max_eq_right hue]

end Svr42
