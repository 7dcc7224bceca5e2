import Mnn.Geometry.SpaceToBatch

/-!
# Exactness of both directions

Images and channels are one loop with one stride.  That is right if channels lie outside
rows and columns; if they lie inside, it is right for one image, or for images of one
element.
-/

variable {n c y x r i j : Nat}

namespace Mnn.Geometry.SpaceToBatch

open Mnn.Core.Raster
open Mnn.Core
open List
open Nat

theorem position_inj (dimensionFormat : DimensionFormat) {batch channel height width : Nat}
    {n' c' y' x' : Nat} (cLess : c < channel) (cLess' : c' < channel)
    (yLess : y < height) (yLess' : y' < height) (xLess : x < width) (xLess' : x' < width)
    (same :
      position dimensionFormat (spaceOf batch channel height width) n c y x =
        position dimensionFormat (spaceOf batch channel height width) n' c' y' x') :
    n = n' ∧ c = c' ∧ y = y' ∧ x = x' := by
  have outside (same :
        ((n : Int) * channel + c) * height * width + y * width + x =
          ((n' : Int) * channel + c') * height * width + y' * width + x') :
      n = n' ∧ c = c' ∧ y = y' ∧ x = x' := by
    have same :
        ((n * channel + c) * height + y) * width + x =
          ((n' * channel + c') * height + y') * width + x' := by
      zify
      linarith
    rcases digits_inj xLess xLess' same with ⟨same, isX⟩
    rcases digits_inj yLess yLess' same with ⟨same, isY⟩
    rcases digits_inj cLess cLess' same with ⟨isN, isC⟩
    exact ⟨isN, isC, isY, isX⟩
  have inside (same :
        (((n : Int) * height + y) * width + x) * channel + c =
          (((n' : Int) * height + y') * width + x') * channel + c') :
      n = n' ∧ c = c' ∧ y = y' ∧ x = x' := by
    have same :
        ((n * height + y) * width + x) * channel + c =
          ((n' * height + y') * width + x') * channel + c' := by
      exact_mod_cast same
    rcases digits_inj cLess cLess' same with ⟨same, isC⟩
    rcases digits_inj xLess xLess' same with ⟨same, isX⟩
    rcases digits_inj yLess yLess' same with ⟨isN, isY⟩
    exact ⟨isN, isC, isY, isX⟩
  cases dimensionFormat with
  | NHWC => exact inside same
  | NCHW => exact outside (by simp only [position, spaceOf] at same; linarith)
  | NC4HW4 => exact outside (by simp only [position, spaceOf] at same; linarith)

theorem position_blocksOf (dimensionFormat : DimensionFormat) (param : SpaceBatch)
    (batch channel outHeight outWidth : Nat) (n c y x : Int) :
    position dimensionFormat (blocksOf param batch channel outHeight outWidth) n c y x =
      position dimensionFormat (spaceOf batch channel outHeight outWidth) n c y x := by
  cases dimensionFormat with
  | NHWC => rfl
  | NCHW => rfl
  | NC4HW4 => rfl

/-! ## Where one stride is enough -/

/-- Images and channels may be one loop. -/
def Fusible (dimensionFormat : DimensionFormat)
    (batch height width outHeight outWidth : Nat) : Prop :=
  dimensionFormat ≠ .NHWC ∨ batch ≤ 1 ∨ height * width = 1 ∧ outHeight * outWidth = 1

section Exact

variable {dimensionFormat : DimensionFormat} {param : SpaceBatch}
  {batch channel height width outHeight outWidth : Nat}

/-- The places between which an element is copied. -/
def placeAt (dimensionFormat : DimensionFormat) (param : SpaceBatch)
    (batch channel height width outHeight outWidth : Nat)
    (index : (_ : Nat) × ((Nat × Nat) × (Nat × Nat))) : Int × Int :=
  (position dimensionFormat (spaceOf batch channel height width) index.2.1.1 index.2.1.2
      (rowOf param index.1 index.2.2.1) (columnOf param index.1 index.2.2.2),
    position dimensionFormat (spaceOf batch channel outHeight outWidth)
      (index.1 * batch + index.2.1.1 : Nat) index.2.1.2 index.2.2.1 index.2.2.2)

theorem mem_indices :
    ⟨r, ((n, c), (i, j))⟩ ∈ indices param batch channel height width outHeight outWidth ↔
      r < param.blockShapeHeight * param.blockShapeWidth ∧ ((n < batch ∧ c < channel) ∧
          ((i < outHeight ∧ 0 ≤ rowOf param r i ∧ rowOf param r i < height) ∧
            (j < outWidth ∧ 0 ≤ columnOf param r j ∧ columnOf param r j < width))) := by
  refine mem_sigma.trans (and_congr mem_range ?_)
  rw [mem_product, mem_product, mem_product, rows, columns, mem_filter,
    mem_filter, mem_range, mem_range, mem_range, mem_range,
    decide_eq_true_eq, decide_eq_true_eq]

theorem nodup_indices : (indices param batch channel height width outHeight outWidth).Nodup :=
  nodup_range.sigma fun _ =>
    (nodup_range.product nodup_range).product
      ((nodup_range.filter _).product (nodup_range.filter _))

theorem moveAt_eq_placeAt (fusible : Fusible dimensionFormat batch height width outHeight outWidth)
    {index : (_ : Nat) × ((Nat × Nat) × (Nat × Nat))}
    (isIn : index ∈ indices param batch channel height width outHeight outWidth) :
    moveAt dimensionFormat param batch channel height width outHeight outWidth index =
      placeAt dimensionFormat param batch channel height width outHeight outWidth index := by
  rcases index with ⟨r, ⟨n, c⟩, i, j⟩
  have nLess := (mem_indices.mp isIn).2.1.1
  have outside (isOutside : dimensionFormat ≠ .NHWC) :
      moveAt dimensionFormat param batch channel height width outHeight outWidth
          ⟨r, ((n, c), (i, j))⟩ =
        placeAt dimensionFormat param batch channel height width outHeight outWidth
          ⟨r, ((n, c), (i, j))⟩ := by
    cases dimensionFormat with
    | NHWC => exact absurd rfl isOutside
    | NCHW =>
      refine Prod.ext ?_ ?_
      · simp only [moveAt, placeAt, position, stridesOf, spaceOf, blocksOf]
        ring
      · simp only [moveAt, placeAt, position, stridesOf, spaceOf, blocksOf]
        push_cast
        ring
    | NC4HW4 =>
      refine Prod.ext ?_ ?_
      · simp only [moveAt, placeAt, position, stridesOf, spaceOf, blocksOf]
        ring
      · simp only [moveAt, placeAt, position, stridesOf, spaceOf, blocksOf]
        push_cast
        ring
  by_cases isOutside : dimensionFormat ≠ .NHWC
  · exact outside isOutside
  · rw [not_not] at isOutside
    subst isOutside
    rcases fusible with notInside | isOne | ⟨isOne, isOne'⟩
    · exact absurd rfl notInside
    · have isFirst : n = 0 := by omega
      have isSingle : batch = 1 := by omega
      subst isFirst isSingle
      refine Prod.ext ?_ ?_
      · simp only [moveAt, placeAt, position, stridesOf, spaceOf, blocksOf]
        push_cast
        ring
      · simp only [moveAt, placeAt, position, stridesOf, spaceOf, blocksOf]
        push_cast
        ring
    · obtain rfl := eq_one_of_mul_eq_one_right isOne
      obtain rfl := eq_one_of_mul_eq_one_left isOne
      obtain rfl := eq_one_of_mul_eq_one_right isOne'
      obtain rfl := eq_one_of_mul_eq_one_left isOne'
      refine Prod.ext ?_ ?_
      · simp only [moveAt, placeAt, position, stridesOf, spaceOf, blocksOf]
        push_cast
        ring
      · simp only [moveAt, placeAt, position, stridesOf, spaceOf, blocksOf]
        push_cast
        ring

theorem placeAt_inj {index index' : (_ : Nat) × ((Nat × Nat) × (Nat × Nat))}
    (isIn : index ∈ indices param batch channel height width outHeight outWidth)
    (isIn' : index' ∈ indices param batch channel height width outHeight outWidth)
    (same : (placeAt dimensionFormat param batch channel height width outHeight outWidth index).2 =
        (placeAt dimensionFormat param batch channel height width outHeight outWidth index').2) :
    index = index' := by
  rcases index with ⟨r, ⟨n, c⟩, i, j⟩
  rcases index' with ⟨r', ⟨n', c'⟩, i', j'⟩
  rcases mem_indices.mp isIn with ⟨-, ⟨nLess, cLess⟩, ⟨iLess, -⟩, jLess, -⟩
  rcases mem_indices.mp isIn' with ⟨-, ⟨nLess', cLess'⟩, ⟨iLess', -⟩, jLess', -⟩
  rcases position_inj dimensionFormat cLess cLess' iLess iLess' jLess jLess' same with
    ⟨isImage, rfl, rfl, rfl⟩
  rcases digits_inj nLess nLess' isImage with ⟨rfl, rfl⟩
  rfl

theorem nodup_places : ((indices param batch channel height width outHeight outWidth).map
      (placeAt dimensionFormat param batch channel height width outHeight outWidth)).Nodup :=
  nodup_indices.map_on fun _ isIn _ isIn' same =>
    placeAt_inj isIn isIn' (congrArg Prod.snd same)

theorem movesOf_eq_places (realTensor : TensorPtr) (some : 0 < batch)
    (fusible : Fusible dimensionFormat batch height width outHeight outWidth) :
    movesOf (regionsOf dimensionFormat param realTensor (spaceOf batch channel height width)
          (blocksOf param batch channel outHeight outWidth)) =
      (indices param batch channel height width outHeight outWidth).map
        (placeAt dimensionFormat param batch channel height width outHeight outWidth) := by
  rw [movesOf_regionsOf dimensionFormat param batch channel height width outHeight outWidth
    realTensor some]
  exact map_congr_left fun _ isIn => moveAt_eq_placeAt fusible isIn

/-! ## To batch -/

theorem cells_spaceOf :
    cells (spaceOf batch channel height width) = (List.range batch ×ˢ List.range channel) ×ˢ
        (List.range height ×ˢ List.range width) :=
  rfl

theorem cells_blocksOf :
    cells (blocksOf param batch channel outHeight outWidth) =
      (List.range (param.blockShapeHeight * param.blockShapeWidth * batch) ×ˢ List.range channel) ×ˢ
        (List.range outHeight ×ˢ List.range outWidth) := by
  have isBatch :
      ((batch : Int) * param.blockShapeHeight * param.blockShapeWidth).toNat =
        param.blockShapeHeight * param.blockShapeWidth * batch := by
    rw [← cast_mul, ← cast_mul, Int.toNat_natCast, mul_assoc, mul_comm]
  rw [cells, blocksOf, isBatch]
  rfl

def SpaceBatch.batchedHeight (param : SpaceBatch) (height : Nat) : Nat :=
  (height + param.height.before + param.height.after) / param.height.block

def SpaceBatch.batchedWidth (param : SpaceBatch) (width : Nat) : Nat :=
  param.width.elim width fun spatial =>
    (width + spatial.before + spatial.after) / spatial.block

theorem batched_natCast (spatial : Spatial) (length : Nat) :
    spatial.batched length = ((length + spatial.before + spatial.after) / spatial.block : Nat) := by
  rw [Spatial.batched, Int.tdiv_eq_ediv_of_nonneg (by omega)]
  norm_cast

theorem batchedShape_spaceOf :
    batchedShape param (spaceOf batch channel height width) =
      blocksOf param batch channel (param.batchedHeight height) (param.batchedWidth width) := by
  have isHeight : param.height.batched height = (param.batchedHeight height : Nat) :=
    batched_natCast ..
  have isWidth :
      (param.width.elim (width : Int) fun spatial => spatial.batched width) =
        (param.batchedWidth width : Nat) := by
    rw [SpaceBatch.batchedWidth]
    cases param.width with
    | none => rfl
    | some spatial => exact batched_natCast ..
  rw [batchedShape, blocksOf, ← isHeight, ← isWidth]
  rfl

theorem mem_askedToBatch {move : Int × Int} :
    move ∈ askedToBatch dimensionFormat param (spaceOf batch channel height width) ↔ ∃ m c i j,
        (((m < param.blockShapeHeight * param.blockShapeWidth * batch ∧ c < channel) ∧
            i < param.batchedHeight height ∧ j < param.batchedWidth width) ∧
          ((0 ≤ rowOf param (m / batch) i ∧ rowOf param (m / batch) i < height) ∧
            (0 ≤ columnOf param (m / batch) j ∧ columnOf param (m / batch) j < width))) ∧
          (position dimensionFormat (spaceOf batch channel height width) (m % batch : Nat)
              c (rowOf param (m / batch) i) (columnOf param (m / batch) j),
            position dimensionFormat (spaceOf batch channel (param.batchedHeight height)
                (param.batchedWidth width)) m c i j) = move := by
  rw [askedToBatch, batchedShape_spaceOf, cells_blocksOf]
  simp only [mem_map, mem_filter, Prod.exists, mem_product, mem_range,
    decide_eq_true_eq, position_blocksOf]
  rfl

theorem divMod_digits (high : Nat) {radix low : Nat} (less : low < radix) :
    (high * radix + low) / radix = high ∧ (high * radix + low) % radix = low := by
  refine ⟨?_, ?_⟩
  · rw [mul_comm, mul_add_div (zero_lt_of_lt less), div_eq_of_lt less, add_zero]
  · rw [mul_comm, mul_add_mod, mod_eq_of_lt less]

theorem nodup_askedToBatch :
    (askedToBatch dimensionFormat param (spaceOf batch channel height width)).Nodup := by
  rw [askedToBatch, batchedShape_spaceOf, cells_blocksOf]
  refine List.Nodup.map_on ?_ (List.Nodup.filter _ ((nodup_range.product nodup_range).product
      (nodup_range.product nodup_range)))
  rintro ⟨⟨m, c⟩, i, j⟩ isIn ⟨⟨m', c'⟩, i', j'⟩ isIn' same
  have inCells := (mem_filter.mp isIn).1
  have inCells' := (mem_filter.mp isIn').1
  simp only [mem_product, mem_range] at inCells inCells'
  have samePlace := congrArg Prod.snd same
  simp only [position_blocksOf] at samePlace
  rcases position_inj dimensionFormat inCells.1.2 inCells'.1.2 inCells.2.1 inCells'.2.1
      inCells.2.2 inCells'.2.2 samePlace with
    ⟨rfl, rfl, rfl, rfl⟩
  rfl

theorem places_perm_askedToBatch :
    ((indices param batch channel height width (param.batchedHeight height)
          (param.batchedWidth width)).map
        (placeAt dimensionFormat param batch channel height width
          (param.batchedHeight height) (param.batchedWidth width))).Perm
      (askedToBatch dimensionFormat param (spaceOf batch channel height width)) := by
  refine (perm_ext_iff_of_nodup nodup_places nodup_askedToBatch).mpr fun move => ?_
  rw [mem_askedToBatch, mem_map]
  constructor
  · rintro ⟨⟨r, ⟨n, c⟩, i, j⟩, isIn, rfl⟩
    rcases mem_indices.mp isIn with
      ⟨rLess, ⟨nLess, cLess⟩, ⟨iLess, inRow⟩, jLess, inColumn⟩
    rcases divMod_digits r nLess with ⟨isBlock, isImage⟩
    refine ⟨r * batch + n, c, i, j, ⟨⟨⟨digits_lt rLess nLess, cLess⟩, iLess, jLess⟩, ?_⟩, ?_⟩
    · rw [isBlock]
      exact ⟨inRow, inColumn⟩
    · rw [isBlock, isImage]
      rfl
  · rintro ⟨m, c, i, j, ⟨⟨⟨mLess, cLess⟩, iLess, jLess⟩, inRow, inColumn⟩, rfl⟩
    rcases exists_digits mLess with ⟨r, n, rLess, nLess, rfl⟩
    rcases divMod_digits r nLess with ⟨isBlock, isImage⟩
    rw [isBlock] at inRow inColumn
    refine ⟨⟨r, ((n, c), (i, j))⟩,
      mem_indices.mpr ⟨rLess, ⟨nLess, cLess⟩, ⟨iLess, inRow⟩, jLess, inColumn⟩, ?_⟩
    rw [isBlock, isImage]
    rfl

/-! ## To space -/

theorem spaced_bounds {spaceHeight spaceWidth : Nat} (isSpaced :
      spacedShape param (blocksOf param batch channel outHeight outWidth) =
        spaceOf batch channel spaceHeight spaceWidth) :
    spaceHeight + param.padTop ≤ outHeight * param.blockShapeHeight ∧
      spaceWidth + param.padLeft ≤ outWidth * param.blockShapeWidth := by
  have isHeight := congrArg Shape.height isSpaced
  have isWidth := congrArg Shape.width isSpaced
  have isHeight : (outHeight * param.height.block : Nat) - (param.height.before : Int) -
        param.height.after = spaceHeight := by
    push_cast
    exact isHeight
  refine ⟨?_, ?_⟩
  · show spaceHeight + param.height.before ≤ outHeight * param.height.block
    generalize outHeight * param.height.block = padded at *
    omega
  · rw [SpaceBatch.padLeft, SpaceBatch.blockShapeWidth]
    rw [spacedShape] at isWidth
    cases isParam : param.width with
    | none =>
      simp only [isParam, Option.elim_none] at isWidth
      have same : (outWidth : Int) = spaceWidth := isWidth
      simp only
      omega
    | some spatial =>
      simp only [isParam, Option.elim_some] at isWidth
      have isWidth :
          (outWidth * spatial.block : Nat) - (spatial.before : Int) - spatial.after =
            spaceWidth := by
        push_cast
        exact isWidth
      simp only
      generalize outWidth * spatial.block = padded at *
      omega

/-- The place in the blocks, and that in the space. -/
def spacedAt (dimensionFormat : DimensionFormat) (param : SpaceBatch)
    (batch channel height width outHeight outWidth : Nat) (n c y x : Nat) : Int × Int :=
  let row := y + param.padTop
  let column := x + param.padLeft
  let r :=
    row % param.blockShapeHeight * param.blockShapeWidth + column % param.blockShapeWidth
  (position dimensionFormat (spaceOf batch channel outHeight outWidth)
      (r * batch + n : Nat) c (row / param.blockShapeHeight : Nat)
      (column / param.blockShapeWidth : Nat),
    position dimensionFormat (spaceOf batch channel height width) n c y x)

section

variable
  (isSpaced : spacedShape param (blocksOf param batch channel outHeight outWidth) = spaceOf batch channel height width)

include isSpaced

theorem askedToSpace_eq :
    askedToSpace dimensionFormat param (blocksOf param batch channel outHeight outWidth) =
      ((List.range batch ×ˢ List.range channel) ×ˢ (List.range height ×ˢ List.range width)).map
        fun cell =>
          spacedAt dimensionFormat param batch channel height width outHeight outWidth
            cell.1.1 cell.1.2 cell.2.1 cell.2.2 := by
  rw [askedToSpace, isSpaced, cells_spaceOf]
  simp only [position_blocksOf, spacedAt]
  refine map_congr_left fun cell _ => ?_
  push_cast
  rfl

theorem nodup_askedToSpace :
    (askedToSpace dimensionFormat param
      (blocksOf param batch channel outHeight outWidth)).Nodup := by
  rw [askedToSpace_eq isSpaced]
  refine List.Nodup.map_on ?_ ((nodup_range.product nodup_range).product
      (nodup_range.product nodup_range))
  rintro ⟨⟨n, c⟩, y, x⟩ isIn ⟨⟨n', c'⟩, y', x'⟩ isIn' same
  simp only [mem_product, mem_range] at isIn isIn'
  rcases position_inj dimensionFormat isIn.1.2 isIn'.1.2 isIn.2.1 isIn'.2.1
      isIn.2.2 isIn'.2.2 (congrArg Prod.snd same) with
    ⟨rfl, rfl, rfl, rfl⟩
  rfl

end

theorem spacedAt_eq (inBlock : r < param.blockShapeHeight * param.blockShapeWidth)
    (isRow : rowOf param r i = y) (isColumn : columnOf param r j = x) :
    spacedAt dimensionFormat param batch channel height width outHeight outWidth n c y x =
      (placeAt dimensionFormat param batch channel height width outHeight outWidth
        ⟨r, ((n, c), (i, j))⟩).swap := by
  have inHeight : r / param.blockShapeWidth < param.blockShapeHeight :=
    (div_lt_iff_lt_mul param.blockShapeWidth_pos).mpr inBlock
  have inWidth : r % param.blockShapeWidth < param.blockShapeWidth :=
    mod_lt _ param.blockShapeWidth_pos
  have isPadded : y + param.padTop = i * param.blockShapeHeight + r / param.blockShapeWidth := by
    rw [rowOf] at isRow
    zify
    omega
  have isPadded' : x + param.padLeft = j * param.blockShapeWidth + r % param.blockShapeWidth := by
    rw [columnOf] at isColumn
    zify
    omega
  rw [spacedAt, isPadded, isPadded', (divMod_digits i inHeight).1,
    (divMod_digits i inHeight).2, (divMod_digits j inWidth).1,
    (divMod_digits j inWidth).2, div_add_mod', placeAt, Prod.swap, isRow, isColumn]

section

variable
  (isSpaced : spacedShape param (blocksOf param batch channel outHeight outWidth) = spaceOf batch channel height width)

include isSpaced

theorem exists_index (nLess : n < batch) (cLess : c < channel) (yLess : y < height)
    (xLess : x < width) :
    ∃ r i j, ⟨r, ((n, c), (i, j))⟩ ∈ indices param batch channel height width outHeight outWidth ∧
        rowOf param r i = y ∧ columnOf param r j = x := by
  rcases spaced_bounds isSpaced with ⟨heightFits, widthFits⟩
  have inHeight : y + param.padTop < outHeight * param.blockShapeHeight := by omega
  have inWidth : x + param.padLeft < outWidth * param.blockShapeWidth := by omega
  rcases exists_digits inHeight with ⟨i, rh, iLess, rhLess, isPadded⟩
  rcases exists_digits inWidth with ⟨j, rw, jLess, rwLess, isPadded'⟩
  rcases divMod_digits rh rwLess with ⟨isHigh, isLow⟩
  have isRow : rowOf param (rh * param.blockShapeWidth + rw) i = y := by
    rw [rowOf, isHigh]
    zify at isPadded
    omega
  have isColumn : columnOf param (rh * param.blockShapeWidth + rw) j = x := by
    rw [columnOf, isLow]
    zify at isPadded'
    omega
  refine ⟨rh * param.blockShapeWidth + rw, i, j, mem_indices.mpr ?_, isRow, isColumn⟩
  rw [isRow, isColumn]
  exact ⟨digits_lt rhLess rwLess, ⟨nLess, cLess⟩,
    ⟨iLess, Int.natCast_nonneg _, by exact_mod_cast yLess⟩, jLess, Int.natCast_nonneg _,
    by exact_mod_cast xLess⟩

theorem places_perm_askedToSpace :
    (((indices param batch channel height width outHeight outWidth).map
          (placeAt dimensionFormat param batch channel height width outHeight
            outWidth)).map Prod.swap).Perm
      (askedToSpace dimensionFormat param (blocksOf param batch channel outHeight outWidth)) := by
  refine (perm_ext_iff_of_nodup (nodup_places.map Prod.swap_injective)
    (nodup_askedToSpace isSpaced)).mpr fun move => ?_
  rw [askedToSpace_eq isSpaced, map_map, mem_map, mem_map]
  constructor
  · rintro ⟨⟨r, ⟨n, c⟩, i, j⟩, isIn, rfl⟩
    rcases mem_indices.mp isIn with
      ⟨rLess, ⟨nLess, cLess⟩, ⟨-, rowNonneg, rowLess⟩, -, columnNonneg, columnLess⟩
    rcases Int.eq_ofNat_of_zero_le rowNonneg with ⟨y, isRow⟩
    rcases Int.eq_ofNat_of_zero_le columnNonneg with ⟨x, isColumn⟩
    rw [isRow] at rowLess
    rw [isColumn] at columnLess
    refine ⟨((n, c), (y, x)), ?_, spacedAt_eq rLess isRow isColumn⟩
    simp only [mem_product, mem_range]
    exact ⟨⟨nLess, cLess⟩, by exact_mod_cast rowLess, by exact_mod_cast columnLess⟩
  · rintro ⟨⟨⟨n, c⟩, y, x⟩, isIn, rfl⟩
    simp only [mem_product, mem_range] at isIn
    rcases exists_index isSpaced isIn.1.1 isIn.1.2 isIn.2.1 isIn.2.2 with
      ⟨r, i, j, isIndex, isRow, isColumn⟩
    exact ⟨_, isIndex, (spacedAt_eq (mem_indices.mp isIndex).1 isRow isColumn).symm⟩

end

theorem rowOf_columnOf_inj {r' i' j' : Nat}
    (rLess : r < param.blockShapeHeight * param.blockShapeWidth)
    (rLess' : r' < param.blockShapeHeight * param.blockShapeWidth)
    (sameRow : rowOf param r i = rowOf param r' i')
    (sameColumn : columnOf param r j = columnOf param r' j') :
    r = r' ∧ i = i' ∧ j = j' := by
  have inHeight := (div_lt_iff_lt_mul param.blockShapeWidth_pos).mpr rLess
  have inHeight' := (div_lt_iff_lt_mul param.blockShapeWidth_pos).mpr rLess'
  have inWidth := mod_lt r param.blockShapeWidth_pos
  have inWidth' := mod_lt r' param.blockShapeWidth_pos
  have sameRow :
      i * param.blockShapeHeight + r / param.blockShapeWidth =
        i' * param.blockShapeHeight + r' / param.blockShapeWidth := by
    rw [rowOf, rowOf] at sameRow
    zify
    omega
  have sameColumn :
      j * param.blockShapeWidth + r % param.blockShapeWidth =
        j' * param.blockShapeWidth + r' % param.blockShapeWidth := by
    rw [columnOf, columnOf] at sameColumn
    zify
    omega
  rcases digits_inj inHeight inHeight' sameRow with ⟨isI, isHigh⟩
  rcases digits_inj inWidth inWidth' sameColumn with ⟨isJ, isLow⟩
  refine ⟨?_, isI, isJ⟩
  calc
    r = r / param.blockShapeWidth * param.blockShapeWidth + r % param.blockShapeWidth :=
      (div_add_mod' ..).symm
    _ = r' / param.blockShapeWidth * param.blockShapeWidth + r' % param.blockShapeWidth := by
      rw [isHigh, isLow]
    _ = r' := div_add_mod' ..

/-- The last place of the space is reached only if an image has one element. -/
theorem last_reached {y x : Int} (several : 2 ≤ batch)
    (nLess : n < batch) (cLess : c < channel) (yLess : y < height) (xLess : x < width)
    (same :
      y * (width * channel) + x * channel + (n * channel + c) =
        (((batch - 1 : Nat) * (height : Int) + (height - 1 : Nat)) * width +
            (width - 1 : Nat)) * channel + (channel - 1 : Nat)) :
    height * width ≤ 1 := by
  by_contra isMore
  have hasHeight : 1 ≤ height := by
    rcases Nat.eq_zero_or_pos height with rfl | hasHeight
    · exact absurd (zero_le _) (by rwa [zero_mul] at isMore)
    · exact hasHeight
  have hasWidth : 1 ≤ width := by
    rcases Nat.eq_zero_or_pos width with rfl | hasWidth
    · exact absurd (zero_le _) (by rwa [mul_zero] at isMore)
    · exact hasWidth
  have hasChannel : 1 ≤ channel := one_le_of_lt cLess
  have hasImage : 1 ≤ batch := one_le_of_lt nLess
  push_cast [hasHeight, hasWidth, hasChannel, hasImage] at same
  have several : (2 : Int) ≤ batch := by exact_mod_cast several
  have isImage : (n : Int) ≤ batch - 1 := by omega
  have isChannel : (c : Int) ≤ channel - 1 := by omega
  have hasChannel : (1 : Int) ≤ channel := by exact_mod_cast hasChannel
  have atRow : y * (width * channel) ≤ (height - 1) * ((width : Int) * channel) :=
    mul_le_mul_of_nonneg_right (by omega) (by positivity)
  have atColumn : x * channel ≤ (width - 1) * (channel : Int) :=
    mul_le_mul_of_nonneg_right (by omega) (by positivity)
  have atImage : (n : Int) * channel ≤ (batch - 1) * channel :=
    mul_le_mul_of_nonneg_right isImage (by positivity)
  have isSmall :
      ((height * width : Nat) : Int) * ((batch - 1) * channel) ≤
        1 * ((batch - 1) * channel) := by
    push_cast
    linarith
  have isPositive : (0 : Int) < (batch - 1) * channel := mul_pos (by omega) (by omega)
  have atMost := le_of_mul_le_mul_right isSmall isPositive
  exact isMore (by exact_mod_cast atMost)

/-- The copy of the last element, where it lies at the given place of a block. -/
theorem last_not_copied (rLess : r < param.blockShapeHeight * param.blockShapeWidth)
    (isInside : dimensionFormat = .NHWC) (several : 2 ≤ batch)
    (hasChannel : 0 < channel) (hasHeight : 0 < height) (hasWidth : 0 < width)
    (isRow : rowOf param r i = (height : Int) - 1)
    (isColumn : columnOf param r j = (width : Int) - 1)
    (notOne : ¬(height * width = 1 ∧ outHeight * outWidth = 1)) :
    (position dimensionFormat (spaceOf batch channel height width) (batch - 1 : Nat)
          (channel - 1 : Nat) (height - 1 : Nat) (width - 1 : Nat),
        position dimensionFormat (spaceOf batch channel outHeight outWidth)
          (r * batch + (batch - 1) : Nat) (channel - 1 : Nat) i j) ∉
      (indices param batch channel height width outHeight outWidth).map
        (moveAt dimensionFormat param batch channel height width outHeight outWidth) := by
  subst isInside
  intro isIn
  rcases mem_map.mp isIn with ⟨⟨r', ⟨n, c⟩, i', j'⟩, isIndex, same⟩
  rcases mem_indices.mp isIndex with
    ⟨rLess', ⟨nLess, cLess⟩, ⟨iLess, rowNonneg, rowLess⟩, jLess, columnNonneg, columnLess⟩
  have sameSpace :
      rowOf param r' i' * (width * channel) + columnOf param r' j' * channel + (n * channel + c) =
        (((batch - 1 : Nat) * (height : Int) + (height - 1 : Nat)) * width +
            (width - 1 : Nat)) * channel + (channel - 1 : Nat) := by
    have isFirst := congrArg Prod.fst same
    simp only [moveAt, position, stridesOf, spaceOf, mul_one] at isFirst
    exact isFirst
  have isOne : height * width = 1 :=
    le_antisymm (last_reached several nLess cLess rowLess columnLess sameSpace)
      (mul_pos hasHeight hasWidth)
  obtain rfl := eq_one_of_mul_eq_one_right isOne
  obtain rfl := eq_one_of_mul_eq_one_left isOne
  have isRow' : rowOf param r' i' = 0 := by omega
  have isColumn' : columnOf param r' j' = 0 := by omega
  rcases rowOf_columnOf_inj rLess rLess' (isRow.trans isRow'.symm)
      (isColumn.trans isColumn'.symm) with
    ⟨rfl, rfl, rfl⟩
  rw [isRow', isColumn'] at sameSpace
  have sameFused : n * channel + c = (batch - 1) * channel + (channel - 1) := by
    zify
    push_cast at sameSpace
    linarith
  have isFused : (n : Int) * channel + c = ((batch - 1 : Nat) : Int) * channel +
      (channel - 1 : Nat) := by
    exact_mod_cast sameFused
  have sameBlocks := congrArg Prod.snd same
  simp only [moveAt, position, stridesOf, spaceOf, blocksOf, mul_one, isFused] at sameBlocks
  refine notOne ⟨isOne, ?_⟩
  have hasImage : 0 < batch - 1 := by omega
  have isScaled :
      (outHeight * outWidth) * ((batch - 1) * channel) = 1 * ((batch - 1) * channel) := by
    zify
    push_cast at sameBlocks
    linarith
  exact eq_of_mul_eq_mul_right (mul_pos hasImage hasChannel) isScaled

end Exact

end Mnn.Geometry.SpaceToBatch
