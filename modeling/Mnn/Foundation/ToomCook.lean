import Mathlib

/-!
# Bilinear algorithms by interpolation

A bilinear algorithm transforms its two arguments, multiplies them elementwise
and transforms the products back.  Whether it finds the sum of the products that
belong to each result is a question about its three matrices alone, and an
algorithm for rows and one for columns nest.

Such matrices come from the interpolation of a polynomial at finitely many points
and at infinity.
-/

namespace Mnn.Foundation

open Polynomial

section Bilinear

variable {R : Type*} [CommRing R]
variable {point signal kernel result : Type*}
variable [Fintype point] [Fintype signal] [DecidableEq signal] [Fintype kernel]

/--
With `A`, `B` and `G` a result is the sum over the kernel of the products with the
signal at `place`.
-/
def Bilinear (A : Matrix point result R) (B : Matrix signal point R)
    (G : Matrix point kernel R) (place : result → kernel → signal) : Prop :=
  ∀ i j l, ∑ k, A k i * G k j * B l k = if l = place i j then 1 else 0

variable {place : result → kernel → signal} {G : Matrix point kernel R} {A : Matrix point result R}
  {B : Matrix signal point R}

theorem Bilinear.mulVec (bilinear : Bilinear A B G place) (g : kernel → R) (d : signal → R) :
    A.transpose.mulVec (G.mulVec g * B.transpose.mulVec d) = fun i => ∑ j, g j * d (place i j) := by
  ext i
  simp only [Matrix.mulVec, dotProduct, Pi.mul_apply, Matrix.transpose_apply]
  calc
    ∑ k, A k i * ((∑ j, G k j * g j) * ∑ l, B l k * d l) =
        ∑ k, ∑ j, ∑ l, g j * d l * (A k i * G k j * B l k) := by
      refine Finset.sum_congr rfl fun k _ => ?_
      rw [Finset.sum_mul_sum, Finset.mul_sum]
      refine Finset.sum_congr rfl fun j _ => ?_
      rw [Finset.mul_sum]
      exact Finset.sum_congr rfl fun l _ => by ring
    _ = ∑ j, ∑ l, ∑ k, g j * d l * (A k i * G k j * B l k) := by
      rw [Finset.sum_comm]
      exact Finset.sum_congr rfl fun j _ => Finset.sum_comm
    _ = ∑ j, ∑ l, g j * d l * if l = place i j then 1 else 0 := by
      refine Finset.sum_congr rfl fun j _ => Finset.sum_congr rfl fun l _ => ?_
      rw [← Finset.mul_sum, bilinear i j l]
    _ = ∑ j, g j * d (place i j) := by
      simp only [mul_ite, mul_one, mul_zero, Finset.sum_ite_eq', Finset.mem_univ, if_true]

/-- An algorithm for the rows and one for the columns are one for both. -/
theorem Bilinear.nested {point' signal' kernel' result' : Type*}
    [Fintype point'] [Fintype signal'] [DecidableEq signal'] [Fintype kernel']
    (rows : Bilinear A B G place) {A' : Matrix point' result' R} {B' : Matrix signal' point' R}
    {G' : Matrix point' kernel' R} {place' : result' → kernel' → signal'}
    (columns : Bilinear A' B' G' place')
    (g : Matrix kernel kernel' R) (d : Matrix signal signal' R) :
    A.transpose * Matrix.hadamard (G * g * G'.transpose) (B.transpose * d * B') * A' =
      Matrix.of fun i i' => ∑ j, ∑ j', g j j' * d (place i j) (place' i' j') := by
  ext i i'
  have inRows (k' : point') :
      ∑ k, A k i * ((G * g * G'.transpose) k k' * (B.transpose * d * B') k k') =
        ∑ j, (g * G'.transpose) j k' * (d * B') (place i j) k' := by
    have row := congrFun (rows.mulVec (fun j => (g * G'.transpose) j k') fun l => (d * B') l k') i
    rw [← row]
    refine Finset.sum_congr rfl fun k _ => ?_
    rw [Matrix.mul_assoc, Matrix.mul_assoc]
    rfl
  have inColumns (j : kernel) :
      ∑ k', A' k' i' * ((g * G'.transpose) j k' * (d * B') (place i j) k') =
        ∑ j', g j j' * d (place i j) (place' i' j') := by
    have column := congrFun (columns.mulVec (g j) (d (place i j))) i'
    rw [← column]
    refine Finset.sum_congr rfl fun k' _ => ?_
    rw [Pi.mul_apply, Matrix.mul_apply, Matrix.mul_apply]
    simp only [Matrix.mulVec, dotProduct, Matrix.transpose_apply, mul_comm]
  calc
    _ = ∑ k', A' k' i' * ∑ k, A k i *
          ((G * g * G'.transpose) k k' * (B.transpose * d * B') k k') := by
      rw [Matrix.mul_apply]
      refine Finset.sum_congr rfl fun k' _ => ?_
      rw [mul_comm, Matrix.mul_apply]
      rfl
    _ = ∑ k', ∑ j, A' k' i' * ((g * G'.transpose) j k' * (d * B') (place i j) k') := by
      refine Finset.sum_congr rfl fun k' _ => ?_
      rw [inRows, Finset.mul_sum]
    _ = _ := by
      rw [Finset.sum_comm]
      exact Finset.sum_congr rfl fun j _ => inColumns j

end Bilinear

section Interpolation

variable {K : Type*} [Field K]

/-- A polynomial is known from its values at `count` points and its top
coefficient. -/
theorem eq_sum_basis_add_nodal {v : ℕ → K} {count : ℕ}
    (distinct : Set.InjOn v (Finset.range count)) {p : K[X]} (degree : p.natDegree ≤ count) :
    p = ∑ k ∈ Finset.range count, C (p.eval (v k)) * Lagrange.basis (Finset.range count) v k +
        C (p.coeff count) * Lagrange.nodal (Finset.range count) v := by
  have below :
      (p - C (p.coeff count) * Lagrange.nodal (Finset.range count) v).degree <
        (Finset.range count).card := by
    rw [Finset.card_range, degree_lt_iff_coeff_zero]
    intro m le
    rw [coeff_sub, coeff_C_mul]
    have size : (Lagrange.nodal (Finset.range count) v).natDegree = count := by
      rw [Lagrange.natDegree_nodal, Finset.card_range]
    rcases Nat.lt_or_eq_of_le le with above | rfl
    · rw [coeff_eq_zero_of_natDegree_lt (Nat.lt_of_le_of_lt degree above),
        coeff_eq_zero_of_natDegree_lt (size.trans_lt above), mul_zero, sub_zero]
    · have monic : (Lagrange.nodal (Finset.range count) v).Monic := Lagrange.nodal_monic
      have top := monic.coeff_natDegree
      rw [size] at top
      rw [top, mul_one, sub_self]
  have interpolated := Lagrange.eq_interpolate_of_eval_eq (fun k => p.eval (v k)) distinct below
      fun k member => by
        rw [eval_sub, eval_mul, Lagrange.eval_nodal_at_node member, mul_zero, sub_zero]
  rw [Lagrange.interpolate_apply] at interpolated
  rw [← interpolated, sub_add_cancel]

/-- The coefficients of a power, from its values and its top coefficient. -/
theorem sum_pow_mul_coeff_basis {v : ℕ → K} {count : ℕ}
    (distinct : Set.InjOn v (Finset.range count)) {m : ℕ} (le : m ≤ count) (l : ℕ) :
    ∑ k ∈ Finset.range count, v k ^ m * (Lagrange.basis (Finset.range count) v k).coeff l +
        (if m = count then 1 else 0) *
          (Lagrange.nodal (Finset.range count) v).coeff l =
      if l = m then 1 else 0 := by
  have power := congrArg (coeff · l)
      (eq_sum_basis_add_nodal distinct (p := X ^ m) ((natDegree_X_pow m).trans_le le))
  simp only [coeff_X_pow, coeff_add, finsetSum_coeff, coeff_C_mul, eval_pow, eval_X] at power
  rw [power]
  simp only [eq_comm (a := count)]

end Interpolation

end Mnn.Foundation
