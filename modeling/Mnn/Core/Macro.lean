import Mathlib

/-!
# Rounding up

The macros `UP_DIV` and `ROUND_UP`, and addresses that are made of digits.
-/

variable {x y value count radix high low : Nat}

namespace Mnn.Core

open Nat

def upDiv (x y : Nat) : Nat := (x + y - 1) / y

def roundUp (x y : Nat) : Nat := (x + y - 1) / y * y

theorem roundUp_eq (x y : Nat) : roundUp x y = upDiv x y * y :=
  rfl

theorem le_roundUp (positive : 0 < y) : x ≤ roundUp x y := by
  have division := Nat.div_add_mod (x + y - 1) y
  have remainder := mod_lt (x + y - 1) positive
  rw [Nat.mul_comm] at division
  unfold roundUp
  omega

theorem div_lt_upDiv (positive : 0 < y) (less : value < x) :
    value / y < upDiv x y := by
  apply (div_lt_iff_lt_mul positive).mpr
  exact Nat.lt_of_lt_of_le less (le_roundUp positive)

theorem upDiv_mono {x' : Nat} (y : Nat) (less : x ≤ x') : upDiv x y ≤ upDiv x' y :=
  Nat.div_le_div_right (by omega)

theorem roundUp_le_mul (positive : 0 < y) (le : x ≤ count * y) :
    roundUp x y ≤ count * y := by
  refine mul_le_mul_right y (le_of_lt_succ ?_)
  refine (div_lt_iff_lt_mul positive).mpr ?_
  rw [succ_mul]
  omega

theorem upDiv_zero (y : Nat) : upDiv 0 y = 0 := by
  rcases Nat.eq_zero_or_pos y with rfl | positive
  · rfl
  · exact Nat.div_eq_of_lt (by omega)

theorem upDiv_of_mod_eq_zero (positive : 0 < y) (aligned : x % y = 0) :
    upDiv x y = x / y := by
  have division := Nat.div_add_mod x y
  rw [aligned, Nat.add_zero] at division
  rw [upDiv, ← division, Nat.add_sub_assoc positive,
    Nat.mul_add_div positive, Nat.div_eq_of_lt (Nat.sub_lt positive Nat.one_pos),
    Nat.mul_div_cancel_left _ positive, Nat.add_zero]

/-- A digit below the radix and what stands before it are determined. -/
theorem digits_inj {high' low' : Nat} (less : low < radix) (less' : low' < radix)
    (same : high * radix + low = high' * radix + low') :
    high = high' ∧ low = low' := by
  have positive : 0 < radix := Nat.lt_of_le_of_lt (Nat.zero_le _) less
  have highs := congrArg (· / radix) same
  simp only [Nat.add_comm _ low, Nat.add_comm _ low',
    add_mul_div_right _ _ positive, div_eq_of_lt less,
    Nat.div_eq_of_lt less', Nat.zero_add] at highs
  rw [highs] at same
  exact ⟨highs, Nat.add_left_cancel same⟩

theorem digits_lt (less : high < count) (lowLess : low < radix) :
    high * radix + low < count * radix := by
  calc
    high * radix + low < high * radix + radix := Nat.add_lt_add_left lowLess _
    _ = (high + 1) * radix := (succ_mul high radix).symm
    _ ≤ count * radix := mul_le_mul_right radix less

theorem exists_digits (less : value < count * radix) :
    ∃ high low, high < count ∧ low < radix ∧ value = high * radix + low := by
  have positive : 0 < radix := by
    by_contra isZero
    rw [Nat.eq_zero_of_not_pos isZero, Nat.mul_zero] at less
    exact not_lt_zero _ less
  exact ⟨value / radix, value % radix, (div_lt_iff_lt_mul positive).mpr less,
      mod_lt _ positive, (div_add_mod' ..).symm⟩

end Mnn.Core
