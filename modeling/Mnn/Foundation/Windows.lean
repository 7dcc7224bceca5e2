import Mathlib

/-!
# Windows

A position that moves by steps is inside for a window of the steps.  Its two ends are
quotients which are rounded up.
-/

namespace Mnn.Foundation.Windows

open List

theorem filter_range (count first last : Nat) :
    (List.range count).filter (fun i => first ≤ i ∧ i < last) =
      (List.range (min count last - first)).map (first + ·) := by
  induction count with
  | zero => simp
  | succ count ih =>
    rw [range_succ, filter_append, ih]
    by_cases isInside : first ≤ count ∧ count < last
    · have isMore : min (count + 1) last - first = min count last - first + 1 := by
        omega
      have isLast : first + (min count last - first) = count := by omega
      rw [isMore, range_succ, map_append, map_singleton, isLast,
        filter_singleton, decide_eq_true isInside]
      rfl
    · have isSame : min (count + 1) last - first = min count last - first := by omega
      rw [isSame, filter_singleton, decide_eq_false isInside]
      exact append_nil _

/-- A quotient that is rounded up is at most the steps that reach the numerator. -/
theorem ceil_le {step : Nat} (positive : 0 < step) (distance i : Int) :
    (distance + step - 1) / step ≤ i ↔ distance ≤ i * step := by
  have isPositive : (0 : Int) < step := by exact_mod_cast positive
  rw [← Int.lt_add_one_iff, Int.ediv_lt_iff_lt_mul isPositive, Int.add_mul, Int.one_mul]
  omega

theorem lt_ceil {step : Nat} (positive : 0 < step) (distance i : Int) :
    i < (distance + step - 1) / step ↔ i * step < distance := by
  rw [← not_le, ceil_le positive, not_le]

end Mnn.Foundation.Windows
