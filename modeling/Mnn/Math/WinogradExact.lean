import Mnn.Foundation.ToomCook
import Mnn.Math.WingoradGenerater

/-!
# Winograd's convolution is exact

The columns of `B` are the Lagrange polynomials of the points and the polynomial
that is zero in all of them, so that the matrices interpolate the product of the
kernel with each power.
-/

variable {i k j n r : Nat} {a : Nat → ℚ}

namespace Mnn.Math

open Mnn.Foundation Polynomial

section Poly

variable {K : Type*} [Field K]

/-- The polynomial whose coefficients are in the first line. -/
noncomputable def toPoly (tensor : Tensor K) : K[X] :=
  ∑ x ∈ Finset.range tensor.width, C (tensor.host 0 x) * X ^ x

theorem coeff_toPoly (tensor : Tensor K) (less : i < tensor.width) :
    (toPoly tensor).coeff i = tensor.host 0 i := by
  unfold toPoly
  simp only [finsetSum_coeff, coeff_C_mul, coeff_X_pow, mul_ite, mul_one, mul_zero]
  rw [Finset.sum_ite_eq, if_pos (Finset.mem_range.mpr less)]

theorem toPoly_polyMulti {A B : Tensor K} (somethingA : 0 < A.width) (somethingB : 0 < B.width) :
    toPoly (A.polyMulti B) = toPoly A * toPoly B := by
  have term {x y : Nat} (inA : x < A.width) (inB : y < B.width) :
      ∑ i ∈ Finset.range (A.width + B.width - 1),
          C (if x + y = i then B.host 0 y * A.host 0 x else 0) * X ^ i =
        C (A.host 0 x) * X ^ x * (C (B.host 0 y) * X ^ y) := by
    rw [Finset.sum_eq_single (x + y)]
    · rw [if_pos rfl, map_mul, pow_add]
      ring
    · intro i _ other
      rw [if_neg (Ne.symm other), map_zero, zero_mul]
    · intro outside
      exact absurd (Finset.mem_range.mpr (by omega)) outside
  unfold toPoly Tensor.polyMulti
  calc
    _ = ∑ y ∈ Finset.range B.width, ∑ x ∈ Finset.range A.width,
          ∑ i ∈ Finset.range (A.width + B.width - 1),
            C (if x + y = i then B.host 0 y * A.host 0 x else 0) * X ^ i := by
      simp only [map_sum, Finset.sum_mul]
      rw [Finset.sum_comm]
      exact Finset.sum_congr rfl fun y _ => Finset.sum_comm
    _ = ∑ y ∈ Finset.range B.width, ∑ x ∈ Finset.range A.width,
          C (A.host 0 x) * X ^ x * (C (B.host 0 y) * X ^ y) := by
      refine Finset.sum_congr rfl fun y inB => Finset.sum_congr rfl fun x inA => ?_
      exact term (Finset.mem_range.mp inA) (Finset.mem_range.mp inB)
    _ = _ := by
      rw [Finset.sum_comm, Finset.sum_mul_sum]

end Poly

/-! ## The Lagrange polynomials -/

section Points

variable {a : Nat → ℚ}

theorem width_computeLPoly (k i : Nat) :
    (computeLPoly a k i).width = if k < i then i else i + 1 := by
  induction i with
  | zero => rfl
  | succ i ih =>
    unfold computeLPoly
    by_cases same : i = k
    · subst same
      rw [if_pos rfl, ih, if_neg (lt_irrefl i), if_pos (Nat.lt_succ_self i)]
    · rw [if_neg same]
      show (computeLPoly a k i).width + 2 - 1 = _
      rw [ih]
      split <;> split <;> omega

theorem toPoly_computeLPoly (k i : Nat) :
    toPoly (computeLPoly a k i) = ∏ j ∈ (Finset.range i).erase k, (X - C (a j)) := by
  induction i with
  | zero =>
    show ∑ x ∈ Finset.range 1, C (1 : ℚ) * X ^ x = _
    rw [Finset.sum_range_one, pow_zero, mul_one, map_one]
    rfl
  | succ i ih =>
    unfold computeLPoly
    rw [Finset.range_add_one]
    by_cases same : i = k
    · subst same
      rw [if_pos rfl, ih, Finset.erase_insert Finset.notMem_range_self,
        Finset.erase_eq_of_notMem Finset.notMem_range_self]
    · have factor : toPoly
              ({ width := 2
                 height := 1
                 host := fun _ x => if x = 0 then -a i else 1 } : Tensor ℚ) =
            X - C (a i) := by
        show ∑ x ∈ Finset.range 2, C (if x = 0 then -a i else 1 : ℚ) * X ^ x = _
        rw [Finset.sum_range_succ, Finset.sum_range_one, if_pos rfl,
          if_neg one_ne_zero, pow_zero, pow_one, map_neg, map_one]
        ring
      have something : 0 < (computeLPoly a k i).width := by
        rw [width_computeLPoly]
        split <;> omega
      rw [if_neg same, toPoly_polyMulti something Nat.two_pos, ih,
        factor, Finset.erase_insert_of_ne same,
        Finset.prod_insert fun member => Finset.notMem_range_self (Finset.mem_of_mem_erase member),
        mul_comm]

/-- The nodes as which the points are interpolated. -/
abbrev nodes (count : Nat) : Finset Nat := Finset.range count

theorem computeF_eq (count k : Nat) :
    (computeF a count).host 0 k = ∏ i ∈ (nodes count).erase k, (a k - a i) := by
  show ∏ i ∈ nodes count, (if k = i then 1 else a k - a i) = _
  by_cases member : k ∈ nodes count
  · rw [← Finset.mul_prod_erase _ _ member, if_pos rfl, one_mul]
    refine Finset.prod_congr rfl fun i other => ?_
    exact if_neg (Ne.symm (Finset.ne_of_mem_erase other))
  · rw [Finset.erase_eq_of_notMem member]
    refine Finset.prod_congr rfl fun i inNodes => if_neg ?_
    rintro rfl
    exact member inNodes

theorem coeff_basis {count : Nat} (isNode : k < count) (less : j < count) :
    ((computeL a count).divPerLine (computeF a count)).host k j =
      (Lagrange.basis (nodes count) a k).coeff j := by
  have basis :
      Lagrange.basis (nodes count) a k = C (∏ i ∈ (nodes count).erase k, (a k - a i))⁻¹ *
          toPoly (computeLPoly a k count) := by
    unfold Lagrange.basis Lagrange.basisDivisor
    rw [Finset.prod_mul_distrib, toPoly_computeLPoly, ← map_prod, Finset.prod_inv_distrib]
  have width : (computeLPoly a k count).width = count := by
    rw [width_computeLPoly, if_pos isNode]
  rw [basis, coeff_C_mul, coeff_toPoly _ (less.trans_eq width.symm), ← computeF_eq]
  show (computeLPoly a k count).host 0 j / (computeF a count).host 0 k = _
  rw [div_eq_inv_mul]

variable {count : Nat}

theorem computeB_basis (distinct : Set.InjOn a (nodes count))
    (le : j ≤ count) (isNode : k < count) :
    (computeB a (count + 1)).host j k = (Lagrange.basis (nodes count) a k).coeff j := by
  unfold computeB
  simp only [Nat.add_sub_cancel]
  rcases lt_or_eq_of_le le with less | rfl
  · rw [if_neg (ne_of_lt less), ← coeff_basis isNode less]
    show ∑ i ∈ Finset.range count, ((computeL a count).divPerLine (computeF a count)).host i j *
        (if k = count then -a i ^ count else if k = i then 1 else 0) = _
    simp only [if_neg (ne_of_lt isNode), mul_ite, mul_one, mul_zero]
    rw [Finset.sum_ite_eq, if_pos (Finset.mem_range.mpr isNode)]
  · rw [if_pos rfl, if_neg (ne_of_lt isNode)]
    symm
    apply coeff_eq_zero_of_natDegree_lt
    rw [Lagrange.natDegree_basis distinct (Finset.mem_range.mpr isNode), Finset.card_range]
    omega

/-- The last column of `B` is the polynomial that is zero in all points. -/
theorem computeB_nodal (distinct : Set.InjOn a (nodes count)) (le : j ≤ count) :
    (computeB a (count + 1)).host j count = (Lagrange.nodal (nodes count) a).coeff j := by
  have identity := sum_pow_mul_coeff_basis distinct (le_refl count) j
  rw [if_pos rfl, one_mul] at identity
  unfold computeB
  simp only [Nat.add_sub_cancel]
  rcases lt_or_eq_of_le le with less | rfl
  · rw [if_neg (ne_of_lt less)]
    rw [if_neg (ne_of_lt less)] at identity
    show ∑ i ∈ Finset.range count, ((computeL a count).divPerLine (computeF a count)).host i j *
        (if count = count then -a i ^ count else if count = i then 1 else 0) = _
    rw [← neg_eq_of_add_eq_zero_right identity, ← Finset.sum_neg_distrib]
    refine Finset.sum_congr rfl fun k member => ?_
    rw [if_pos rfl, coeff_basis (Finset.mem_range.mp member) less]
    ring
  · rw [if_pos rfl, if_pos trivial]
    have monic : (Lagrange.nodal (nodes j) a).Monic := Lagrange.nodal_monic
    have top := monic.coeff_natDegree
    rw [Lagrange.natDegree_nodal, Finset.card_range] at top
    exact top.symm

theorem polyBuffer_injective {interp : ℚ} (nonzero : interp ≠ 0) :
    Function.Injective (polyBuffer interp) := by
  have factor (i : Nat) :
      polyBuffer interp i = ((if i % 2 = 0 then -(i / 2 : Int) else (i + 1) / 2 : Int) : ℚ) *
          interp := by
    cases i with
    | zero => exact (zero_mul interp).symm.trans (by rw [Int.cast_ite]; rfl)
    | succ i =>
      unfold polyBuffer
      refine congrArg (fun factor : Int => (factor : ℚ) * interp) ?_
      push_cast
      split <;> split <;> omega
  intro i j same
  rw [factor, factor] at same
  have ints := Int.cast_injective (mul_right_cancel₀ nonzero same)
  split at ints <;> split at ints <;> omega

end Points

/-! ## The transformation -/

section Transform

variable {interp : ℚ}

/-- A column of `computeA` is a power of its point, or the top coefficient. -/
theorem computeA_eq (a : Nat → ℚ) (count n : Nat) (y x : Nat) :
    (computeA a (count + 1) n).host y x =
      if x = count then if y = n - 1 then 1 else 0 else a x ^ y := by
  show (if x = count + 1 - 1 then _ else _ : ℚ) = _
  rw [Nat.add_sub_cancel]
  by_cases last : x = count
  · rw [if_pos last, if_pos last]
  · rw [if_neg last, if_neg last]
    by_cases first : x = 0 ∧ y = 0
    · rw [if_pos first, first.2, pow_zero]
    · rw [if_neg first]

theorem computeFDiag_ne_zero (distinct : Function.Injective a) (alpha x : Nat) :
    (computeFDiag a alpha).host 0 x ≠ 0 := by
  have product (x : Nat) : (if x = alpha - 1 then 1
        else ∏ i ∈ Finset.range (alpha - 1), if x = i then 1 else a x - a i) ≠
        (0 : ℚ) := by
    split
    · exact one_ne_zero
    · refine Finset.prod_ne_zero_iff.mpr fun i _ => ?_
      split
      · exact one_ne_zero
      · rename_i other
        exact sub_ne_zero.mpr (distinct.ne other)
  show (if x = 0 ∧ _ then _ else _ : ℚ) ≠ 0
  split
  · exact neg_ne_zero.mpr (product 0)
  · exact product x

/--
The interpolation, with the numbers `f` by which `G` is divided and `B` is
multiplied.
-/
theorem sum_computeA_computeB (distinct : Function.Injective a)
    (someN : 0 < n) (someR : 0 < r) (f : Nat → ℚ)
    (nonzero : ∀ k, f k ≠ 0) {l : Nat} (inResult : i < n) (inKernel : j < r)
    (inSignal : l < n + r - 1) :
    ∑ k ∈ Finset.range (n + r - 1), (computeA a (n + r - 1) n).host i k *
            ((computeA a (n + r - 1) r).host j k / f k) *
          ((computeB a (n + r - 1)).host l k * f k) =
      if l = i + j then 1 else 0 := by
  obtain ⟨count, isCount⟩ : ∃ count, n + r - 1 = count + 1 := ⟨n + r - 2, by omega⟩
  have inNodes : Set.InjOn a (nodes count) := distinct.injOn
  rw [isCount] at inSignal ⊢
  have le : l ≤ count := Nat.le_of_lt_succ inSignal
  have corner : i + j = count ↔ i = n - 1 ∧ j = r - 1 := by omega
  rw [← sum_pow_mul_coeff_basis inNodes (show i + j ≤ count by omega), Finset.sum_range_succ]
  congr 1
  · refine Finset.sum_congr rfl fun k member => ?_
    have isNode := Finset.mem_range.mp member
    have notLast := ne_of_lt isNode
    have divisor := nonzero k
    rw [computeA_eq, computeA_eq, if_neg notLast, if_neg notLast,
      computeB_basis inNodes le isNode, pow_add]
    field_simp
  · have divisor := nonzero count
    rw [computeA_eq, computeA_eq, if_pos rfl, if_pos rfl, computeB_nodal inNodes le]
    by_cases isCorner : i + j = count
    · rw [if_pos (corner.mp isCorner).1, if_pos (corner.mp isCorner).2, if_pos isCorner]
      field_simp
    · rw [if_neg isCorner, zero_mul]
      by_cases top : i = n - 1
      · rw [if_neg fun other => isCorner (corner.mpr ⟨top, other⟩), zero_div, mul_zero, zero_mul]
      · rw [if_neg top, zero_mul, zero_mul]

/-- Where the product of a result with an entry of the kernel takes the signal. -/
def tap {alpha n r : Nat} (size : n + r - 1 = alpha) (i : Fin n) (j : Fin r) : Fin alpha :=
  ⟨i + j, by omega⟩

theorem bilinear_of_points (distinct : Function.Injective a)
    {alpha : Nat} (someN : 0 < n) (someR : 0 < r)
    (size : n + r - 1 = alpha) (f : Nat → ℚ) (nonzero : ∀ k, f k ≠ 0) :
    Bilinear (Matrix.of fun (k : Fin alpha) (i : Fin n) =>
        (computeA a alpha n).host i k)
      (Matrix.of fun (l : Fin alpha) (k : Fin alpha) =>
        (computeB a alpha).host l k * f k)
      (Matrix.of fun (k : Fin alpha) (j : Fin r) =>
        (computeA a alpha r).host j k / f k)
      (tap size) := by
  subst size
  intro i j l
  have sum := sum_computeA_computeB distinct someN someR f nonzero i.2 j.2 l.2
  rw [Finset.sum_range] at sum
  simp only [Matrix.of_apply, Fin.ext_iff]
  exact sum

end Transform

namespace WinogradGenerater

variable {nY nX rY rX alpha : Nat} {interp : ℚ}

/-- By what `G` is divided. -/
def divisor (interp : ℚ) (alpha : Nat) (dividedInG : Bool) (k : Nat) : ℚ :=
  if dividedInG then (computeFDiag (polyBuffer interp) alpha).host 0 k else 1

theorem divisor_ne_zero (nonzero : interp ≠ 0) (dividedInG : Bool) (k : Nat) :
    divisor interp alpha dividedInG k ≠ 0 := by
  unfold divisor
  split
  · exact computeFDiag_ne_zero (polyBuffer_injective nonzero) alpha k
  · exact one_ne_zero

section Entries

variable (sizeY : nY + rY - 1 = alpha) (sizeX : nX + rX - 1 = alpha)
variable (dividedInG : Bool) (uninit : ℚ)

include sizeY sizeX

theorem host_mA (someY : 1 < nY) (k i : Nat) :
    (ofUnits (nY, nX) (rY, rX) interp dividedInG uninit).mA.host k i =
      (computeA (polyBuffer interp) alpha nY).host i k := by
  simp only [ofUnits, sizeY, sizeX, max_self, if_pos someY]
  rfl

theorem host_mA_Right (someX : 1 < nX) (i k : Nat) :
    (ofUnits (nY, nX) (rY, rX) interp dividedInG uninit).mA_Right.host i k =
      (computeA (polyBuffer interp) alpha nX).host i k := by
  simp only [ofUnits, sizeY, sizeX, max_self, if_pos someX]

theorem host_mG (someY : 1 < nY) (k j : Nat) :
    (ofUnits (nY, nX) (rY, rX) interp dividedInG uninit).mG.host k j =
      (computeA (polyBuffer interp) alpha rY).host j k / divisor interp alpha dividedInG k := by
  simp only [ofUnits, sizeY, sizeX, max_self, if_pos someY]
  cases dividedInG with
  | true => rfl
  | false => exact (div_one _).symm

theorem host_mG_Right (someX : 1 < nX) (j k : Nat) :
    (ofUnits (nY, nX) (rY, rX) interp dividedInG uninit).mG_Right.host j k =
      (computeA (polyBuffer interp) alpha rX).host j k / divisor interp alpha dividedInG k := by
  simp only [ofUnits, sizeY, sizeX, max_self, if_pos someX]
  cases dividedInG with
  | true => rfl
  | false => exact (div_one _).symm

theorem host_mB (l k : Nat) :
    (ofUnits (nY, nX) (rY, rX) interp dividedInG uninit).mB.host l k =
      (computeB (polyBuffer interp) alpha).host l k * divisor interp alpha dividedInG k := by
  simp only [ofUnits, sizeY, sizeX, max_self]
  cases dividedInG with
  | true => rfl
  | false => exact (mul_one _).symm

end Entries

section Exact

variable (sizeY : nY + rY - 1 = alpha) (sizeX : nX + rX - 1 = alpha)
variable (nonzero : interp ≠ 0) (dividedInG : Bool) (uninit : ℚ)

include sizeY sizeX nonzero

theorem ofUnits_rows (someY : 1 < nY) (someR : 0 < rY) :
    let generater := ofUnits (nY, nX) (rY, rX) interp dividedInG uninit
    Bilinear (generater.mA.toMatrix alpha nY) (generater.mB.toMatrix alpha alpha)
      (generater.mG.toMatrix alpha rY) (tap sizeY) := by
  intro generater i j l
  rw [← bilinear_of_points (polyBuffer_injective nonzero)
    (Nat.lt_of_succ_lt someY) someR sizeY (divisor interp alpha dividedInG)
    (divisor_ne_zero nonzero dividedInG) i j l]
  refine Finset.sum_congr rfl fun k _ => ?_
  rw [Tensor.toMatrix_apply, Tensor.toMatrix_apply, Tensor.toMatrix_apply,
    host_mA sizeY sizeX dividedInG uninit someY,
    host_mG sizeY sizeX dividedInG uninit someY,
    host_mB sizeY sizeX dividedInG uninit]
  rfl

theorem ofUnits_columns (someX : 1 < nX) (someR : 0 < rX) :
    let generater := ofUnits (nY, nX) (rY, rX) interp dividedInG uninit
    Bilinear (generater.mA_Right.toMatrix nX alpha).transpose (generater.mB.toMatrix alpha alpha)
      (generater.mG_Right.toMatrix rX alpha).transpose (tap sizeX) := by
  intro generater i j l
  rw [← bilinear_of_points (polyBuffer_injective nonzero)
    (Nat.lt_of_succ_lt someX) someR sizeX (divisor interp alpha dividedInG)
    (divisor_ne_zero nonzero dividedInG) i j l]
  refine Finset.sum_congr rfl fun k _ => ?_
  rw [Matrix.transpose_apply, Matrix.transpose_apply, Tensor.toMatrix_apply,
    Tensor.toMatrix_apply, Tensor.toMatrix_apply,
    host_mA_Right sizeY sizeX dividedInG uninit someX,
    host_mG_Right sizeY sizeX dividedInG uninit someX,
    host_mB sizeY sizeX dividedInG uninit]
  rfl

/--
The transformed signal and kernel of one direction give the correlation, and so do
those of both directions.
-/
theorem ofUnits_exact (someY : 1 < nY) (someX : 1 < nX) (someRY : 0 < rY) (someRX : 0 < rX) :
    let generater := ofUnits (nY, nX) (rY, rX) interp dividedInG uninit
    let A := generater.mA.toMatrix alpha nY
    let A_Right := generater.mA_Right.toMatrix nX alpha
    let B := generater.mB.toMatrix alpha alpha
    let G := generater.mG.toMatrix alpha rY
    (∀ (g : Fin rY → ℚ) (d : Fin alpha → ℚ),
        A.transpose.mulVec (G.mulVec g * B.transpose.mulVec d) =
          fun y => ∑ j, g j * d (tap sizeY y j)) ∧
      ∀ (g : Tensor ℚ) (d : Matrix (Fin alpha) (Fin alpha) ℚ), g.width = rX → A.transpose *
                Matrix.hadamard ((generater.transformWeight g).toMatrix alpha alpha)
                  (B.transpose * d * B) *
              A_Right.transpose =
            Matrix.of fun y x =>
              ∑ j : Fin rY, ∑ j' : Fin rX, g.host j j' * d (tap sizeY y j) (tap sizeX x j') := by
  intro generater A A_Right B G
  have rows := ofUnits_rows sizeY sizeX nonzero dividedInG uninit someY someRY
  have columns := ofUnits_columns sizeY sizeX nonzero dividedInG uninit someX someRX
  refine ⟨rows.mulVec, fun g d width => ?_⟩
  have widthG : generater.mG.width = rY := by
    simp only [generater, ofUnits, if_pos someY]
    cases dividedInG <;> rfl
  have transformed :
      (generater.transformWeight g).toMatrix alpha alpha = G * g.toMatrix rY rX *
          (generater.mG_Right.toMatrix rX alpha).transpose.transpose := by
    unfold transformWeight
    rw [Tensor.toMatrix_multi _ _ (show (generater.mG.multi g).width = rX from width),
      Tensor.toMatrix_multi _ _ widthG,
      Matrix.transpose_transpose]
  rw [transformed]
  exact rows.nested columns (g.toMatrix rY rX) d

end Exact

/-- The matrices for one unit and one kernel size are a bilinear algorithm. -/
theorem create_exact (n r : Nat) (someN : 2 ≤ n) (someR : 2 ≤ r) (interp : ℚ)
    (nonzero : interp ≠ 0) (dividedInG : Bool) (uninit : ℚ) :
    let generater : WinogradGenerater := create n r interp dividedInG uninit
    let alpha := n + r - 1
    let A := generater.mA.toMatrix alpha n
    let A_Right := generater.mA_Right.toMatrix n alpha
    let B := generater.mB.toMatrix alpha alpha
    let G := generater.mG.toMatrix alpha r
    (∀ (g : Fin r → ℚ) (d : Fin alpha → ℚ), A.transpose.mulVec (G.mulVec g * B.transpose.mulVec d) =
          fun y => ∑ j, g j * d (tap rfl y j)) ∧
      ∀ (g : Tensor ℚ) (d : Matrix (Fin alpha) (Fin alpha) ℚ), g.width = r → A.transpose *
                Matrix.hadamard ((generater.transformWeight g).toMatrix alpha alpha)
                  (B.transpose * d * B) *
              A_Right.transpose =
            Matrix.of fun y x =>
              ∑ j : Fin r, ∑ j' : Fin r, g.host j j' * d (tap rfl y j) (tap rfl x j') :=
  ofUnits_exact rfl rfl nonzero dividedInG uninit someN someN (by omega) (by omega)

/-- Two results of a kernel of size three. -/
theorem create_exact_two_three :
    let generater := create 2 3 1 true 0
    let g : Fin 3 → ℚ := ![1, 2, 3]
    let d : Fin 4 → ℚ := ![2, 0, -1, 5]
    (generater.mA.toMatrix 4 2).transpose.mulVec ((generater.mG.toMatrix 4 3).mulVec g *
          (generater.mB.toMatrix 4 4).transpose.mulVec d) =
      fun y => ∑ j, g j * d (tap rfl y j) :=
  (create_exact 2 3 (le_refl 2) (Nat.le_succ 2) 1 one_ne_zero true 0).1 _ _

end WinogradGenerater

end Mnn.Math
