import Mathlib

/-!
# Rounding to so many bits

A number that is not negative is rounded to a number with `precision` binary
digits, to the nearest one, and to the even one of two that are equally near.
Exponents are not bounded, so that nothing is too large or too small.  Rounding
keeps the order, leaves numbers that have few digits as they are, and changes
others by a small part of them.
-/

namespace Mnn.Foundation.BinaryRounding

open Nat

variable {K : Type} [Field K] [LinearOrder K] [IsStrictOrderedRing K] [FloorRing K]

/-! ## Integers -/

/-- The nearest integer, and the even one of two. -/
def toEven (x : K) : Int :=
  if x - ⌊x⌋ < 1 / 2 then
    ⌊x⌋
  else if 1 / 2 < x - ⌊x⌋ then
    ⌊x⌋ + 1
  else if ⌊x⌋ % 2 = 0 then
    ⌊x⌋
  else
    ⌊x⌋ + 1

theorem toEven_intCast (n : Int) : toEven (n : K) = n := by
  have small : (n : K) - n < 1 / 2 := by
    rw [sub_self]
    positivity
  rw [toEven, Int.floor_intCast, if_pos small]

theorem abs_toEven_sub_le (x : K) : |(toEven x : K) - x| ≤ 1 / 2 := by
  have below := Int.floor_le x
  have above := Int.lt_floor_add_one x
  rw [abs_le]
  unfold toEven
  split_ifs with early late isEven
  · constructor <;> linarith
  · constructor <;> push_cast <;> linarith
  · constructor <;> linarith
  · constructor <;> push_cast <;> linarith

variable {x y a b : K}

theorem toEven_mono (ordered : x ≤ y) : toEven x ≤ toEven y := by
  have floors := Int.floor_mono ordered
  have upper (z : K) : toEven z ≤ ⌊z⌋ + 1 := by
    unfold toEven
    split_ifs <;> omega
  have lower (z : K) : ⌊z⌋ ≤ toEven z := by
    unfold toEven
    split_ifs <;> omega
  rcases floors.lt_or_eq with less | same
  · calc
      toEven x ≤ ⌊x⌋ + 1 := upper x
      _ ≤ ⌊y⌋ := Int.add_one_le_of_lt less
      _ ≤ toEven y := lower y
  · unfold toEven
    rw [← same]
    split_ifs <;> first | omega | (exfalso; linarith)

/-! ## Numbers -/

/-- The distance of the numbers with so many digits that are as large as `x`. -/
def ulp (precision : Nat) (x : K) : K := 2 ^ (Int.log 2 x - (precision - 1))

/-- The nearest number with so many digits. -/
def roundTo (precision : Nat) (x : K) : K := toEven (x / ulp precision x) * ulp precision x

variable {precision : Nat}

theorem ulp_pos (x : K) : 0 < ulp precision x := zpow_pos two_pos _

variable {x : K}

/-- The smallest number that is as large as `x`, in its last places. -/
theorem mul_ulp_le (positive : 0 < x) :
    2 ^ ((precision : Int) - 1) * ulp precision x ≤ x := by
  have least := Int.zpow_log_le_self one_lt_two positive
  rw [cast_ofNat] at least
  rwa [ulp, ← zpow_add₀ two_ne_zero, show ((precision : Int) - 1 +
    (Int.log 2 x - (precision - 1))) = Int.log 2 x by ring]

theorem lt_mul_ulp (x : K) : x < 2 ^ (precision : Int) * ulp precision x := by
  have most := Int.lt_zpow_succ_log_self one_lt_two x
  rw [cast_ofNat] at most
  rwa [ulp, ← zpow_add₀ two_ne_zero, show ((precision : Int) +
    (Int.log 2 x - (precision - 1))) = Int.log 2 x + 1 by ring]

theorem roundTo_eq_self {m : Nat} {e : Int} (few : m < 2 ^ precision) :
    roundTo precision ((m : K) * 2 ^ e) = m * 2 ^ e := by
  rcases Nat.eq_zero_or_pos m with rfl | positive
  · rw [cast_zero, zero_mul, roundTo, zero_div]
    have zero := toEven_intCast (K := K) 0
    rw [Int.cast_zero] at zero
    rw [zero, Int.cast_zero, zero_mul]
  · have isPos : (0 : K) < m * 2 ^ e := mul_pos (cast_pos.mpr positive) (zpow_pos two_pos e)
    have small : Int.log 2 ((m : K) * 2 ^ e) < precision + e := by
      rw [← Int.lt_zpow_iff_log_lt one_lt_two isPos, cast_ofNat,
        zpow_add₀ two_ne_zero, zpow_natCast]
      exact mul_lt_mul_of_pos_right (by exact_mod_cast few) (zpow_pos two_pos e)
    -- The last place of the number is not smaller than the distance.
    obtain ⟨places, isPlaces⟩ :
        ∃ places : Nat, (places : Int) = e - (Int.log 2 ((m : K) * 2 ^ e) - (precision - 1)) :=
      ⟨_, Int.toNat_of_nonneg (by omega)⟩
    have isInt :
        (m : K) * 2 ^ e / ulp precision ((m : K) * 2 ^ e) = ((m * 2 ^ places : Nat) : Int) := by
      rw [ulp, mul_div_assoc, ← zpow_sub₀ two_ne_zero, ← isPlaces, zpow_natCast]
      push_cast
      rfl
    rw [roundTo, isInt, toEven_intCast, ← isInt, div_mul_cancel₀ _ (ulp_pos _).ne']

theorem abs_roundTo_sub_le (positive : 0 < x) :
    |roundTo precision x - x| ≤ x / 2 ^ precision := by
  have near := abs_toEven_sub_le (x / ulp precision x)
  have scaled :
      roundTo precision x - x =
        (toEven (x / ulp precision x) - x / ulp precision x) * ulp precision x := by
    rw [sub_mul, div_mul_cancel₀ _ (ulp_pos x).ne', roundTo]
  have least := @mul_ulp_le _ _ _ _ _ precision _ positive
  rw [scaled, abs_mul, abs_of_pos (ulp_pos x)]
  calc
    |(toEven (x / ulp precision x) : K) - x / ulp precision x| * ulp precision x ≤
        1 / 2 * ulp precision x :=
      mul_le_mul_of_nonneg_right near (ulp_pos x).le
    _ = 2 ^ ((precision : Int) - 1) * ulp precision x / 2 ^ precision := by
      rw [zpow_sub₀ two_ne_zero, zpow_natCast, zpow_one]
      field_simp
    _ ≤ x / 2 ^ precision := div_le_div_of_nonneg_right least (by positivity)

theorem roundTo_le_zpow : roundTo precision x ≤ 2 ^ (Int.log 2 x + 1) := by
  have quotient : x / ulp precision x ≤ ((2 ^ precision : Int) : K) := by
    rw [div_le_iff₀ (ulp_pos x)]
    exact_mod_cast (@lt_mul_ulp _ _ _ _ _ precision x).le
  have most := toEven_mono quotient
  rw [toEven_intCast] at most
  calc
    roundTo precision x ≤ ((2 ^ precision : Int) : K) * ulp precision x :=
      mul_le_mul_of_nonneg_right (Int.cast_le.mpr most) (ulp_pos x).le
    _ = 2 ^ (Int.log 2 x + 1) := by
      rw [Int.cast_pow, Int.cast_ofNat, ulp, ← zpow_natCast, ← zpow_add₀ two_ne_zero]
      congr 1
      ring

theorem zpow_le_roundTo (somePrecision : precision ≠ 0) (positive : 0 < x) :
    2 ^ Int.log 2 x ≤ roundTo precision x := by
  obtain ⟨digits, rfl⟩ := exists_eq_succ_of_ne_zero somePrecision
  have isDigits : ((digits.succ : Nat) : Int) - 1 = digits := by
    push_cast
    ring
  have least := @mul_ulp_le _ _ _ _ _ digits.succ _ positive
  rw [isDigits] at least
  have quotient : ((2 ^ digits : Int) : K) ≤ x / ulp digits.succ x := by
    rw [le_div_iff₀ (ulp_pos x)]
    exact_mod_cast least
  have most := toEven_mono quotient
  rw [toEven_intCast] at most
  calc
    (2 : K) ^ Int.log 2 x = ((2 ^ digits : Int) : K) * ulp digits.succ x := by
      rw [Int.cast_pow, Int.cast_ofNat, ulp, ← zpow_natCast, ← zpow_add₀ two_ne_zero, isDigits]
      congr 1
      ring
    _ ≤ roundTo digits.succ x := mul_le_mul_of_nonneg_right (Int.cast_le.mpr most) (ulp_pos x).le

theorem roundTo_mono (somePrecision : precision ≠ 0) (positive : 0 < x)
    (ordered : x ≤ y) : roundTo precision x ≤ roundTo precision y := by
  have yPositive := positive.trans_le ordered
  rcases (Int.log_mono_right (b := 2) positive ordered).lt_or_eq with less | same
  · -- There is a power of two between them.
    calc
      roundTo precision x ≤ 2 ^ (Int.log 2 x + 1) := roundTo_le_zpow
      _ ≤ 2 ^ Int.log 2 y := zpow_le_zpow_right₀ one_le_two (Int.add_one_le_of_lt less)
      _ ≤ roundTo precision y := zpow_le_roundTo somePrecision yPositive
  · have sameUlp : ulp precision x = ulp precision y := by
      rw [ulp, ulp, same]
    rw [roundTo, roundTo, sameUlp]
    refine mul_le_mul_of_nonneg_right ?_ (ulp_pos y).le
    exact Int.cast_le.mpr (toEven_mono (div_le_div_of_nonneg_right ordered (ulp_pos y).le))

/-! ## Rounded numbers -/

/-- A number that has so many digits. -/
def IsRounded (precision : Nat) (x : K) : Prop :=
  ∃ (m : Nat) (e : Int), m ≤ 2 ^ precision ∧ x = m * 2 ^ e

omit [IsStrictOrderedRing K] [FloorRing K] in
theorem isRounded_natCast {m : Nat} (few : m ≤ 2 ^ precision) : IsRounded precision (m : K) :=
  ⟨m, 0, few, by rw [zpow_zero, mul_one]⟩

omit [FloorRing K] in
theorem IsRounded.mul_zpow (rounded : IsRounded precision x) (e : Int) :
    IsRounded precision (x * 2 ^ e) := by
  rcases rounded with ⟨m, e', few, rfl⟩
  exact ⟨m, e' + e, few, by rw [mul_assoc, ← zpow_add₀ two_ne_zero]⟩

theorem IsRounded.roundTo_eq (rounded : IsRounded precision x)
    (somePrecision : precision ≠ 0) : roundTo precision x = x := by
  rcases rounded with ⟨m, e, few, rfl⟩
  rcases few.lt_or_eq with less | rfl
  · exact roundTo_eq_self less
  · -- The power of two has one digit.
    have one : ((2 ^ precision : Nat) : K) * 2 ^ e = ((1 : Nat) : K) * 2 ^ (precision + e) := by
      rw [zpow_add₀ two_ne_zero, zpow_natCast]
      push_cast
      ring
    rw [one]
    exact roundTo_eq_self (Nat.one_lt_two_pow somePrecision)

theorem isRounded_roundTo (positive : 0 < x) :
    IsRounded precision (roundTo precision x) := by
  have least : 0 ≤ toEven (x / ulp precision x) := by
    have zero := toEven_intCast (K := K) 0
    rw [Int.cast_zero] at zero
    rw [← zero]
    exact toEven_mono (div_pos positive (ulp_pos x)).le
  have quotient : x / ulp precision x ≤ ((2 ^ precision : Int) : K) := by
    rw [div_le_iff₀ (ulp_pos x)]
    exact_mod_cast (@lt_mul_ulp _ _ _ _ _ precision x).le
  have most := toEven_mono quotient
  rw [toEven_intCast] at most
  obtain ⟨m, isInt⟩ := Int.eq_ofNat_of_zero_le least
  refine ⟨m, Int.log 2 x - (precision - 1), ?_, ?_⟩
  · rw [isInt] at most
    exact_mod_cast most
  · rw [roundTo, isInt, Int.cast_natCast, ulp]

theorem IsRounded.le_roundTo (rounded : IsRounded precision a)
    (somePrecision : precision ≠ 0) (positive : 0 < a) (bound : a ≤ x) :
    a ≤ roundTo precision x := by
  rw [← rounded.roundTo_eq somePrecision]
  exact roundTo_mono somePrecision positive bound

theorem IsRounded.roundTo_le (rounded : IsRounded precision b)
    (somePrecision : precision ≠ 0) (positive : 0 < x) (bound : x ≤ b) :
    roundTo precision x ≤ b := by
  rw [← rounded.roundTo_eq somePrecision]
  exact roundTo_mono somePrecision positive bound

/-! ## Signed numbers -/

/-- The nearest number, on either side of zero. -/
def roundSigned (precision : Nat) (x : K) : K :=
  if x < 0 then -roundTo precision (-x) else roundTo precision x

theorem roundTo_zero : roundTo precision (0 : K) = 0 := by
  have zero := toEven_intCast (K := K) 0
  rw [Int.cast_zero] at zero
  rw [roundTo, zero_div, zero, Int.cast_zero, zero_mul]

theorem roundTo_nonneg (positive : 0 < x) : 0 ≤ roundTo precision x := by
  obtain ⟨m, e, -, isRounded⟩ := @isRounded_roundTo _ _ _ _ _ precision x positive
  rw [isRounded]
  exact mul_nonneg (cast_nonneg m) (zpow_pos two_pos e).le

theorem roundSigned_neg (x : K) : roundSigned precision (-x) = -roundSigned precision x := by
  unfold roundSigned
  rcases lt_trichotomy x 0 with less | rfl | more
  · rw [if_neg (by linarith), if_pos less, neg_neg]
  · rw [neg_zero, if_neg (lt_irrefl 0), if_neg (lt_irrefl 0), roundTo_zero, neg_zero]
  · rw [if_pos (by linarith), if_neg (by linarith), neg_neg]

/-- What lies under a rounded number of either sign stays there. -/
theorem roundSigned_le (rounded : IsRounded precision |b|)
    (somePrecision : precision ≠ 0) (bound : x ≤ b) : roundSigned precision x ≤ b := by
  unfold roundSigned
  split_ifs with negative
  · rcases lt_or_ge b 0 with less | le
    · rw [abs_of_neg less] at rounded
      have above : -b ≤ roundTo precision (-x) :=
        rounded.le_roundTo somePrecision (by linarith) (by linarith)
      linarith
    · have least : 0 ≤ roundTo precision (-x) := roundTo_nonneg (by linarith)
      linarith
  · rcases (not_lt.mp negative).eq_or_lt with rfl | positive
    · rwa [roundTo_zero]
    · rw [abs_of_pos (by linarith)] at rounded
      exact rounded.roundTo_le somePrecision positive bound

/-- What lies over a rounded number of either sign stays there. -/
theorem le_roundSigned (rounded : IsRounded precision |a|)
    (somePrecision : precision ≠ 0) (bound : a ≤ x) : a ≤ roundSigned precision x := by
  rw [← abs_neg] at rounded
  have below := roundSigned_le rounded somePrecision (neg_le_neg bound)
  rw [roundSigned_neg] at below
  exact neg_le_neg_iff.mp below

end Mnn.Foundation.BinaryRounding
