import Mathlib

/-!
# Rounding to a grid

A number is rounded to the nearest integer, halves away from zero.  What lies
between two integers is rounded to one between them, so that the codes of the
numbers of an interval are known from its ends.  Scaled, each number is half a
step away from its point of the grid at most.  The ends of the interval are
found by a loop, which bounds what it has seen.
-/

namespace Mnn.Foundation.Rounding

/-- What a state bounds stays bounded, and each item is bounded once seen. -/
theorem foldl_bounds {σ ι : Type} {f : σ → ι → σ} {Bounds : σ → ι → Prop}
    (keeps : ∀ state item other, Bounds state other → Bounds (f state item) other)
    (takes : ∀ state item, Bounds (f state item) item) (items : List ι) (state : σ) :
    (∀ other, Bounds state other → Bounds (items.foldl f state) other) ∧
      ∀ item ∈ items, Bounds (items.foldl f state) item := by
  induction items generalizing state with
  | nil =>
    constructor
    · intro other bounded
      exact bounded
    · intro item isIn
      nomatch isIn
  | cons item items ih =>
    rcases ih (f state item) with ⟨stays, sees⟩
    constructor
    · intro other bounded
      exact stays other (keeps state item other bounded)
    · intro seen isIn
      rcases List.mem_cons.mp isIn with rfl | isIn
      · exact stays seen (takes state seen)
      · exact sees seen isIn

/-! ## The nearest integer -/

variable {K : Type} [Field K] [LinearOrder K] [IsStrictOrderedRing K] [FloorRing K]

local instance two_atLeastTwo : Nat.AtLeastTwo 2 := ⟨Nat.le_refl 2⟩

/-- The nearest integer; a half is rounded away from zero. -/
def nearest (x : K) : Int :=
  if 0 ≤ x then ⌊x + 1 / 2⌋ else ⌈x - 1 / 2⌉

theorem abs_nearest_sub_le (x : K) : |(nearest x : K) - x| ≤ 1 / 2 := by
  rw [abs_le]
  unfold nearest
  split
  · have below := Int.floor_le (x + 1 / 2)
    have above := Int.lt_floor_add_one (x + 1 / 2)
    constructor
    · linarith
    · linarith
  · have below := Int.ceil_lt_add_one (x - 1 / 2)
    have above := Int.le_ceil (x - 1 / 2)
    constructor
    · linarith
    · linarith

theorem le_nearest {a : Int} {x : K} (bound : (a : K) ≤ x) : a ≤ nearest x := by
  by_contra less
  have next : nearest x + 1 ≤ a := by omega
  have cast : (nearest x : K) + 1 ≤ a := by exact_mod_cast next
  have close := (abs_le.mp (abs_nearest_sub_le x)).1
  linarith

theorem nearest_le {b : Int} {x : K} (bound : x ≤ (b : K)) : nearest x ≤ b := by
  by_contra more
  have next : b + 1 ≤ nearest x := by omega
  have cast : (b : K) + 1 ≤ nearest x := by exact_mod_cast next
  have close := (abs_le.mp (abs_nearest_sub_le x)).2
  linarith

theorem abs_grid_sub_le {scale : K} (positive : 0 < scale) (x : K) :
    |(nearest (x / scale) : K) * scale - x| ≤ scale / 2 := by
  have close := abs_nearest_sub_le (x / scale)
  have isScaled :
      (nearest (x / scale) : K) * scale - x = ((nearest (x / scale) : K) - x / scale) * scale := by
    field_simp
  rw [isScaled, abs_mul, abs_of_pos positive]
  calc
    |(nearest (x / scale) : K) - x / scale| * scale ≤ 1 / 2 * scale :=
      mul_le_mul_of_nonneg_right close positive.le
    _ = scale / 2 := by ring

theorem nearest_mem_levels {low high scale x : K} {levels : Int} (positive : 0 < scale)
    (isScale : scale * levels = high - low) (lowBound : low ≤ x) (highBound : x ≤ high) :
    0 ≤ nearest ((x - low) / scale) ∧ nearest ((x - low) / scale) ≤ levels := by
  constructor
  · apply le_nearest
    rw [Int.cast_zero]
    exact div_nonneg (sub_nonneg.mpr lowBound) positive.le
  · apply nearest_le
    rw [div_le_iff₀ positive]
    linarith

theorem abs_nearest_le {most scale x : K} {levels : Int} (positive : 0 < scale)
    (isScale : scale * levels = most) (bound : |x| ≤ most) :
    -levels ≤ nearest (x / scale) ∧ nearest (x / scale) ≤ levels := by
  rcases abs_le.mp bound with ⟨below, above⟩
  constructor
  · apply le_nearest
    rw [le_div_iff₀ positive, Int.cast_neg]
    linarith
  · apply nearest_le
    rw [div_le_iff₀ positive]
    linarith

end Mnn.Foundation.Rounding
