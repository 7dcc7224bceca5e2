import Mnn.Geometry.SpaceToBatchExact

/-!
# Space to batch and back

The shapes are right if every length that no block sets was right before, and they come
back if the blocks divide the padded lengths.  Then the elements come back as well.
-/

namespace Mnn.Geometry.SpaceToBatch

open Mnn.Core
open Mnn.Core.Raster
open Mnn.Foundation.StridedLoops
open List

/-! ## Shapes -/

/-- Without a block of the width, the output already has the last length of the input. -/
def LastKept (dimensionFormat : DimensionFormat) (param : SpaceBatch) (input : Shape)
    (last : Int) : Prop :=
  param.width = none → last = match dimensionFormat with | .NHWC => input.channel | _ => input.width

/-- The blocks divide the padded lengths. -/
def Divisible (param : SpaceBatch) (height width : Nat) : Prop :=
  param.height.block ∣ height + param.height.before + param.height.after ∧
    ∀ spatial ∈ param.width, spatial.block ∣ width + spatial.before + spatial.after

theorem setLengths_eq_iff (dimensionFormat : DimensionFormat) (param : SpaceBatch)
    (length : Spatial → Int → Int) (batch last : Int) (input : Shape) :
    setLengths dimensionFormat param length batch last input =
        ⟨batch, input.channel, length param.height input.height,
          param.width.elim input.width (length · input.width)⟩ ↔
      LastKept dimensionFormat param input last := by
  unfold setLengths LastKept
  cases param.width with
  | some spatial => simp
  | none =>
    cases dimensionFormat with
    | NHWC => simp
    | NCHW => simp
    | NC4HW4 => simp

theorem spaceToBatchSize_eq_iff (dimensionFormat : DimensionFormat) (param : SpaceBatch)
    (last : Int) (input : Shape) :
    spaceToBatchSize dimensionFormat param last input = batchedShape param input ↔
      LastKept dimensionFormat param input last :=
  setLengths_eq_iff ..

theorem batch_blocksOf (param : SpaceBatch) (batch channel outHeight outWidth : Nat) :
    ((blocksOf param batch channel outHeight outWidth).batch.tdiv
          param.blockShapeHeight).tdiv param.blockShapeWidth = batch ∧
      (blocksOf param batch channel outHeight outWidth).batch /
          (param.blockShapeHeight * param.blockShapeWidth : Nat) = batch := by
  have isHeight : (param.blockShapeHeight : Int) ≠ 0 := by
    exact_mod_cast param.blockShapeHeight_pos.ne'
  have isWidth : (param.blockShapeWidth : Int) ≠ 0 := by
    exact_mod_cast param.blockShapeWidth_pos.ne'
  refine ⟨?_, ?_⟩
  · show (((batch : Int) * param.blockShapeHeight * param.blockShapeWidth).tdiv _).tdiv _ = _
    rw [mul_right_comm, Int.mul_tdiv_cancel _ isHeight, Int.mul_tdiv_cancel _ isWidth]
  · show (batch : Int) * param.blockShapeHeight * param.blockShapeWidth / _ = _
    rw [Nat.cast_mul, mul_assoc]
    exact Int.mul_ediv_cancel _ (mul_ne_zero isHeight isWidth)

theorem batchToSpaceSize_eq_iff (dimensionFormat : DimensionFormat) (param : SpaceBatch)
    (last : Int) (batch channel height width : Nat) :
    batchToSpaceSize dimensionFormat param last (blocksOf param batch channel height width) =
        spacedShape param (blocksOf param batch channel height width) ↔
      LastKept dimensionFormat param (blocksOf param batch channel height width) last := by
  rw [batchToSpaceSize, (batch_blocksOf ..).1, spacedShape, (batch_blocksOf ..).2]
  exact setLengths_eq_iff ..

theorem spaced_batched_iff (spatial : Spatial) (length : Nat) :
    spatial.spaced (spatial.batched length) = length ↔
      spatial.block ∣ length + spatial.before + spatial.after := by
  rw [batched_natCast, Spatial.spaced, Nat.dvd_iff_div_mul_eq, ← Nat.cast_mul]
  generalize (length + spatial.before + spatial.after) / spatial.block * spatial.block = padded
  omega

theorem back_eq_iff (dimensionFormat : DimensionFormat) (param : SpaceBatch) (last : Int)
    (batch channel height width : Nat) :
    batchToSpaceSize dimensionFormat param last
          (batchedShape param (spaceOf batch channel height width)) =
        spaceOf batch channel height width ↔
      LastKept dimensionFormat param (spaceOf batch channel height width) last ∧
        Divisible param height width := by
  have isHeight := spaced_batched_iff param.height height
  have isBatch := (batch_blocksOf param batch channel (param.batchedHeight height)
    (param.batchedWidth width)).1
  rw [← batchedShape_spaceOf] at isBatch
  rw [batchToSpaceSize, isBatch]
  unfold setLengths LastKept Divisible
  cases isParam : param.width with
  | some spatial =>
    have isWidth := spaced_batched_iff spatial width
    simp [batchedShape, spaceOf, isParam, isHeight, isWidth]
  | none =>
    cases dimensionFormat with
    | NHWC => simp [batchedShape, spaceOf, isParam, isHeight, and_comm]
    | NCHW => simp [batchedShape, spaceOf, isParam, isHeight, and_comm]
    | NC4HW4 => simp [batchedShape, spaceOf, isParam, isHeight, and_comm]

/-! ## Copies of both directions -/

theorem movesOf_exchanged (regions : List Region) :
    movesOf (regions.map exchanged) = (movesOf regions).map Prod.swap := by
  rw [movesOf, movesOf, flatMap_map, map_flatMap]
  refine flatMap_congr fun reg _ => ?_
  rw [moves_eq_flatMap, moves_eq_flatMap]
  simp only [map_flatMap, map_map]
  rfl

theorem origin_regionsOf (dimensionFormat : DimensionFormat) (param : SpaceBatch)
    (realTensor : TensorPtr) (input output : Shape) :
    ∀ reg ∈ regionsOf dimensionFormat param realTensor input output,
      reg.origin = some realTensor := by
  intro reg isIn
  rcases mem_map.mp isIn with ⟨r, -, rfl⟩
  rfl

theorem origin_compute (type : OpType) (dimensionFormat : DimensionFormat)
    (param : SpaceBatch) (realTensor : TensorPtr) (input output : Shape) :
    ∀ reg ∈ compute type dimensionFormat param realTensor input output,
      reg.origin = some realTensor := by
  rw [compute]
  split
  · exact forall_mem_nil _
  · cases type with
    | SpaceToBatchND => exact origin_regionsOf _ _ _ _ _
    | BatchToSpaceND =>
      intro reg isIn
      rcases mem_map.mp isIn with ⟨original, isOriginal, rfl⟩
      exact origin_regionsOf _ _ _ _ _ original isOriginal

theorem cells_of_hasZeroShape {shape : Shape} (isZero : hasZeroShape shape = true) :
    cells shape = [] := by
  rw [hasZeroShape, decide_eq_true_eq] at isZero
  refine eq_nil_iff_forall_not_mem.mpr ?_
  rintro ⟨⟨n, c⟩, y, x⟩ isIn
  simp only [cells, mem_product, mem_range] at isIn
  omega

variable {outHeight outWidth : Nat}

variable (realTensor : TensorPtr)

section Copies

variable {dimensionFormat : DimensionFormat} {param : SpaceBatch} {batch channel height width : Nat}

theorem pos_of_hasZeroShape (notZero : hasZeroShape (spaceOf batch channel height width) = false) :
    (0 < batch ∧ 0 < channel) ∧ 0 < height ∧ 0 < width := by
  rw [hasZeroShape, decide_eq_false_iff_not] at notZero
  simp only [spaceOf] at notZero
  omega

theorem pos_of_hasZeroShape_blocksOf
    (notZero : hasZeroShape (blocksOf param batch channel height width) = false) :
    (0 < batch ∧ 0 < channel) ∧ 0 < height ∧ 0 < width := by
  rw [hasZeroShape, decide_eq_false_iff_not] at notZero
  simp only [blocksOf] at notZero
  have hasBatch : 0 < batch := by
    by_contra isZero
    have isZero : batch = 0 := Nat.eq_zero_of_not_pos isZero
    simp [isZero] at notZero
  omega

theorem indices_eq_nil (isEmpty : height * width = 0) :
    indices param batch channel height width outHeight outWidth = [] := by
  refine eq_nil_iff_forall_not_mem.mpr ?_
  rintro ⟨r, ⟨n, c⟩, i, j⟩ isIn
  rcases mem_indices.mp isIn with ⟨-, -, ⟨-, rowNonneg, rowLess⟩, -, columnNonneg, columnLess⟩
  rcases mul_eq_zero.mp isEmpty with rfl | rfl
  · omega
  · omega

theorem movesOf_eq_places_or_empty (some : 0 < batch)
    (fits : Fusible dimensionFormat batch height width outHeight outWidth ∨ height * width = 0) :
    movesOf (regionsOf dimensionFormat param realTensor (spaceOf batch channel height width)
          (blocksOf param batch channel outHeight outWidth)) =
      (indices param batch channel height width outHeight outWidth).map
        (placeAt dimensionFormat param batch channel height width outHeight outWidth) := by
  rcases fits with fusible | isEmpty
  · exact movesOf_eq_places realTensor some fusible
  · rw [movesOf_regionsOf dimensionFormat param batch channel height width outHeight
      outWidth realTensor some, indices_eq_nil isEmpty]
    rfl

/-! ## To batch and back -/

theorem exact_toBatch (fits :
      (Fusible dimensionFormat batch height width (param.batchedHeight height)
          (param.batchedWidth width) ∨
        height * width = 0) ∨ channel = 0) :
    Exact (compute .SpaceToBatchND dimensionFormat param realTensor
        (spaceOf batch channel height width)
        (batchedShape param (spaceOf batch channel height width)))
      realTensor (askedToBatch dimensionFormat param (spaceOf batch channel height width)) := by
  refine ⟨origin_compute _ _ _ _ _ _, ?_⟩
  rw [compute]
  cases isZero : hasZeroShape (batchedShape param (spaceOf batch channel height width)) with
  | true =>
    rw [if_pos rfl, askedToBatch, cells_of_hasZeroShape isZero]
    exact .refl _
  | false =>
    rw [if_neg (by decide)]
    rw [batchedShape_spaceOf] at isZero ⊢
    rcases pos_of_hasZeroShape_blocksOf isZero with ⟨⟨hasBatch, hasChannel⟩, -, -⟩
    have fits := fits.resolve_right hasChannel.ne'
    rw [onCompute, movesOf_eq_places_or_empty realTensor hasBatch fits]
    exact places_perm_askedToBatch

theorem not_perm_places (isSpaced :
      spacedShape param (blocksOf param batch channel outHeight outWidth) =
        spaceOf batch channel height width)
    (notFusible : ¬Fusible dimensionFormat batch height width outHeight outWidth)
    (hasChannel : 0 < channel) (hasHeight : 0 < height) (hasWidth : 0 < width) :
    ¬((indices param batch channel height width outHeight outWidth).map
          (moveAt dimensionFormat param batch channel height width outHeight outWidth)).Perm
        ((indices param batch channel height width outHeight outWidth).map
          (placeAt dimensionFormat param batch channel height width outHeight outWidth)) := by
  intro same
  rw [Fusible, not_or, not_or, not_not] at notFusible
  rcases notFusible with ⟨isInside, several, notOne⟩
  have several : 2 ≤ batch := by omega
  rcases exists_index isSpaced (Nat.sub_lt (by omega) one_pos : batch - 1 < batch)
      (Nat.sub_lt hasChannel one_pos) (Nat.sub_lt hasHeight one_pos)
      (Nat.sub_lt hasWidth one_pos) with
    ⟨r, i, j, isIndex, isRow, isColumn⟩
  have isPlace := mem_map_of_mem
    (f := placeAt dimensionFormat param batch channel height width outHeight outWidth)
    isIndex
  rw [placeAt, isRow, isColumn] at isPlace
  have isLastRow : rowOf param r i = (height : Int) - 1 := by omega
  have isLastColumn : columnOf param r j = (width : Int) - 1 := by omega
  exact last_not_copied (mem_indices.mp isIndex).1 isInside several hasChannel hasHeight
    hasWidth isLastRow isLastColumn notOne (same.mem_iff.mpr isPlace)

theorem exists_position (dimensionFormat : DimensionFormat) {place : Nat}
    (inside : place < batch * channel * height * width) :
    ∃ n c y x, (n < batch ∧ c < channel ∧ y < height ∧ x < width) ∧
        position dimensionFormat (spaceOf batch channel height width) n c y x = place := by
  have outside :
      ∃ n c y x, (n < batch ∧ c < channel ∧ y < height ∧ x < width) ∧
        ((n * channel + c) * height + y) * width + x = place := by
    rcases exists_digits inside with ⟨first, x, firstLess, xLess, rfl⟩
    rcases exists_digits firstLess with ⟨second, y, secondLess, yLess, rfl⟩
    rcases exists_digits secondLess with ⟨n, c, nLess, cLess, rfl⟩
    exact ⟨n, c, y, x, ⟨nLess, cLess, yLess, xLess⟩, rfl⟩
  cases dimensionFormat with
  | NHWC =>
    have isProduct : batch * channel * height * width = batch * height * width * channel := by
      ring
    rw [isProduct] at inside
    rcases exists_digits inside with ⟨first, c, firstLess, cLess, rfl⟩
    rcases exists_digits firstLess with ⟨second, x, secondLess, xLess, rfl⟩
    rcases exists_digits secondLess with ⟨n, y, nLess, yLess, rfl⟩
    refine ⟨n, c, y, x, ⟨nLess, cLess, yLess, xLess⟩, ?_⟩
    simp only [position, spaceOf]
    push_cast
    rfl
  | NCHW =>
    rcases outside with ⟨n, c, y, x, isIn, isPlace⟩
    refine ⟨n, c, y, x, isIn, ?_⟩
    rw [← isPlace]
    simp only [position, spaceOf]
    push_cast
    rfl
  | NC4HW4 =>
    rcases outside with ⟨n, c, y, x, isIn, isPlace⟩
    refine ⟨n, c, y, x, isIn, ?_⟩
    rw [← isPlace]
    simp only [position, spaceOf]
    push_cast
    rfl

theorem copied_back {Value : Type} {outHeight outWidth : Nat} (realTensor output : TensorPtr)
    (isSpaced :
      spacedShape param (blocksOf param batch channel outHeight outWidth) =
        spaceOf batch channel height width)
    (fusible : Fusible dimensionFormat batch height width outHeight outWidth)
    (source target target' : Int → Value) {place : Nat}
    (inside : place < batch * channel * height * width) :
    copyAll (movesOf (onCompute .BatchToSpaceND dimensionFormat param output
            (blocksOf param batch channel outHeight outWidth) (spaceOf batch channel height width)))
        (copyAll (movesOf (onCompute .SpaceToBatchND dimensionFormat param realTensor
              (spaceOf batch channel height width)
              (blocksOf param batch channel outHeight outWidth)))
          source target)
        target' place =
      source place := by
  rcases exists_position dimensionFormat inside with
    ⟨n, c, y, x, ⟨nLess, cLess, yLess, xLess⟩, isPlace⟩
  rcases exists_index isSpaced nLess cLess yLess xLess with
    ⟨r, i, j, isIndex, isRow, isColumn⟩
  rw [onCompute, onCompute, movesOf_exchanged,
    movesOf_eq_places output (Nat.zero_lt_of_lt nLess) fusible,
    movesOf_eq_places realTensor (Nat.zero_lt_of_lt nLess) fusible]
  have isMove := mem_map_of_mem
    (f := placeAt dimensionFormat param batch channel height width outHeight outWidth)
    isIndex
  rw [placeAt, isRow, isColumn, isPlace] at isMove
  refine copyAll_back (fun other cell isThere isOther => ?_) isMove
  rcases mem_map.mp isThere with ⟨index, inIndices, isFirst⟩
  rcases mem_map.mp isOther with ⟨index', inIndices', isSecond⟩
  have sameBlock := (congrArg Prod.snd isSecond).trans (congrArg Prod.snd isFirst).symm
  rw [placeAt_inj inIndices' inIndices sameBlock] at isSecond
  exact (congrArg Prod.fst isSecond).symm.trans (congrArg Prod.fst isFirst)

/-- Space to batch is right, and batch to space takes it back. -/
structure ToBatchRight (dimensionFormat : DimensionFormat) (param : SpaceBatch)
    (realTensor middle : TensorPtr) (last last' : Int) (input : Shape) : Prop where
  shape : spaceToBatchSize dimensionFormat param last input = batchedShape param input
  exact : Exact (compute .SpaceToBatchND dimensionFormat param realTensor input
        (spaceToBatchSize dimensionFormat param last input))
      realTensor (askedToBatch dimensionFormat param input)
  backShape : batchToSpaceSize dimensionFormat param last'
        (spaceToBatchSize dimensionFormat param last input) =
      input
  back :
    ∀ (Value : Type) (source target target' : Int → Value) (place : Nat),
      (place : Int) < input.batch * input.channel * input.height * input.width → copyAll (movesOf
              (compute .BatchToSpaceND dimensionFormat param middle
                (spaceToBatchSize dimensionFormat param last input)
                (batchToSpaceSize dimensionFormat param last'
                  (spaceToBatchSize dimensionFormat param last input))))
            (copyAll (movesOf (compute .SpaceToBatchND dimensionFormat param realTensor input
                  (spaceToBatchSize dimensionFormat param last input)))
              source target)
            target' place =
          source place

/-- Batch to space is right. -/
structure ToSpaceRight (dimensionFormat : DimensionFormat) (param : SpaceBatch)
    (realTensor : TensorPtr) (last : Int) (input : Shape) : Prop where
  shape : batchToSpaceSize dimensionFormat param last input = spacedShape param input
  exact : Exact (compute .BatchToSpaceND dimensionFormat param realTensor input
        (batchToSpaceSize dimensionFormat param last input))
      realTensor (askedToSpace dimensionFormat param input)

theorem spacedShape_batchedShape (divisible : Divisible param height width) : spacedShape param
        (blocksOf param batch channel (param.batchedHeight height) (param.batchedWidth width)) =
      spaceOf batch channel height width := by
  have isBatch := (batch_blocksOf param batch channel (param.batchedHeight height)
      (param.batchedWidth width)).2
  have isHeight := (spaced_batched_iff param.height height).mpr divisible.1
  rw [← batchedShape_spaceOf] at isBatch ⊢
  rw [spacedShape, isBatch]
  show Shape.mk _ _ _ _ = Shape.mk _ _ _ _
  rw [Shape.mk.injEq]
  refine ⟨rfl, rfl, isHeight, ?_⟩
  have isWidth :
      (batchedShape param (spaceOf batch channel height width)).width =
        param.width.elim (width : Int) (·.batched width) :=
    rfl
  rw [isWidth]
  cases isParam : param.width with
  | none => rfl
  | some spatial =>
    exact (spaced_batched_iff spatial width).mpr (divisible.2 spatial isParam)

theorem hasZeroShape_batchedShape (divisible : Divisible param height width)
    (several : 0 < batch) (hasChannel : 0 < channel) (hasHeight : 0 < height)
    (hasWidth : 0 < width) :
    hasZeroShape (batchedShape param (spaceOf batch channel height width)) = false := by
  rcases spaced_bounds (@spacedShape_batchedShape param batch channel _ _ divisible) with ⟨heightFits, widthFits⟩
  have hasOutHeight : 0 < param.batchedHeight height :=
    Nat.pos_of_mul_pos_right (show 0 < _ * param.blockShapeHeight by omega)
  have hasOutWidth : 0 < param.batchedWidth width :=
    Nat.pos_of_mul_pos_right (show 0 < _ * param.blockShapeWidth by omega)
  have hasBatch : 0 < (batch : Int) * param.blockShapeHeight * param.blockShapeWidth := by
    exact_mod_cast mul_pos (mul_pos several param.blockShapeHeight_pos) param.blockShapeWidth_pos
  rw [batchedShape_spaceOf, hasZeroShape, decide_eq_false_iff_not]
  simp only [blocksOf]
  omega

theorem toBatchRight_iff (realTensor middle : TensorPtr) (last last' : Int) :
    ToBatchRight dimensionFormat param realTensor middle last last'
        (spaceOf batch channel height width) ↔
      (LastKept dimensionFormat param (spaceOf batch channel height width) last ∧
          LastKept dimensionFormat param (spaceOf batch channel height width) last') ∧
        Divisible param height width ∧
          ((Fusible dimensionFormat batch height width (param.batchedHeight height)
                (param.batchedWidth width) ∨
              height * width = 0) ∨ channel = 0) := by
  constructor
  · intro right
    have isShape := right.shape
    have backShape := right.backShape
    have exact := right.exact
    rw [isShape] at backShape exact
    have kept := (spaceToBatchSize_eq_iff ..).mp isShape
    rcases (back_eq_iff ..).mp backShape with ⟨kept', divisible⟩
    refine ⟨⟨kept, kept'⟩, divisible, ?_⟩
    by_contra notFits
    rw [not_or, not_or] at notFits
    rcases notFits with ⟨⟨notFusible, notEmpty⟩, hasChannel⟩
    have hasChannel : 0 < channel := pos_of_ne_zero hasChannel
    have hasHeight : 0 < height := by
      refine pos_of_ne_zero fun isZero => notEmpty ?_
      rw [isZero, zero_mul]
    have hasWidth : 0 < width := by
      refine pos_of_ne_zero fun isZero => notEmpty ?_
      rw [isZero, mul_zero]
    have several : 0 < batch := by
      by_contra isZero
      exact notFusible (Or.inr (Or.inl (by omega)))
    have notZero :
        hasZeroShape (batchedShape param (spaceOf batch channel height width)) =
          false :=
      hasZeroShape_batchedShape divisible several hasChannel hasHeight hasWidth
    have isPerm := exact.moves
    rw [compute, notZero, if_neg (by decide), batchedShape_spaceOf, onCompute,
      movesOf_regionsOf _ _ _ _ _ _ _ _ _ several] at isPerm
    exact not_perm_places (spacedShape_batchedShape divisible) notFusible hasChannel
      hasHeight hasWidth (isPerm.trans places_perm_askedToBatch.symm)
  · rintro ⟨⟨kept, kept'⟩, divisible, fits⟩
    have isShape := (spaceToBatchSize_eq_iff ..).mpr kept
    have backShape := (back_eq_iff ..).mpr ⟨kept', divisible⟩
    refine ⟨isShape, ?_, ?_, ?_⟩
    · rw [isShape]
      exact exact_toBatch realTensor fits
    · rw [isShape]
      exact backShape
    · intro Value source target target' place inside
      have inside : place < batch * channel * height * width := by
        simp only [spaceOf] at inside
        exact_mod_cast inside
      have notEmpty : batch * channel * height * width ≠ 0 := by omega
      have hasWidth := pos_of_ne_zero (Nat.mul_ne_zero_iff.mp notEmpty).2
      have notEmpty := (Nat.mul_ne_zero_iff.mp notEmpty).1
      have hasHeight := pos_of_ne_zero (Nat.mul_ne_zero_iff.mp notEmpty).2
      have notEmpty := (Nat.mul_ne_zero_iff.mp notEmpty).1
      have hasChannel := pos_of_ne_zero (Nat.mul_ne_zero_iff.mp notEmpty).2
      have several := pos_of_ne_zero (Nat.mul_ne_zero_iff.mp notEmpty).1
      have notZero := hasZeroShape_batchedShape divisible several hasChannel hasHeight hasWidth
      have notZero' : hasZeroShape (spaceOf batch channel height width) = false := by
        rw [hasZeroShape, decide_eq_false_iff_not]
        simp only [spaceOf]
        omega
      have fusible := (fits.resolve_right hasChannel.ne').resolve_right
          (mul_pos hasHeight hasWidth).ne'
      rw [isShape, backShape, compute, compute, notZero, notZero', if_neg (by decide),
        if_neg (by decide), batchedShape_spaceOf]
      exact copied_back realTensor middle (spacedShape_batchedShape divisible) fusible
        source target target' inside

/-! ## To space -/

theorem spacedShape_eq_spaceOf (notZero :
      hasZeroShape (spacedShape param (blocksOf param batch channel height width)) = false) :
    spacedShape param (blocksOf param batch channel height width) = spaceOf batch channel
        (spacedShape param (blocksOf param batch channel height width)).height.toNat
        (spacedShape param (blocksOf param batch channel height width)).width.toNat := by
  rw [hasZeroShape, decide_eq_false_iff_not] at notZero
  have isBatch : (spacedShape param (blocksOf param batch channel height width)).batch = batch :=
    (batch_blocksOf param batch channel height width).2
  have isChannel :
      (spacedShape param (blocksOf param batch channel height width)).channel = channel :=
    rfl
  generalize spacedShape param (blocksOf param batch channel height width) = shape at *
  rcases shape with ⟨n, c, h, w⟩
  simp only at isBatch isChannel notZero
  rw [spaceOf, Shape.mk.injEq]
  simp only
  omega

theorem toSpaceRight_iff (last : Int) :
    ToSpaceRight dimensionFormat param realTensor last (blocksOf param batch channel height width) ↔
      LastKept dimensionFormat param (blocksOf param batch channel height width) last ∧
        (hasZeroShape (spacedShape param (blocksOf param batch channel height width)) = true ∨
          Fusible dimensionFormat batch
            (spacedShape param (blocksOf param batch channel height width)).height.toNat
            (spacedShape param (blocksOf param batch channel height width)).width.toNat
            height width) := by
  have areEmpty (isZero :
        hasZeroShape (spacedShape param (blocksOf param batch channel height width)) = true) :
      askedToSpace dimensionFormat param (blocksOf param batch channel height width) =
        [] := by
    rw [askedToSpace, cells_of_hasZeroShape isZero]
    rfl
  constructor
  · intro right
    have isShape := right.shape
    have isPerm := right.exact.moves
    refine ⟨(batchToSpaceSize_eq_iff ..).mp isShape, ?_⟩
    by_contra notFits
    rw [not_or, Bool.not_eq_true] at notFits
    rcases notFits with ⟨notZero, notFusible⟩
    have isSpaced := spacedShape_eq_spaceOf notZero
    rw [isShape, compute, notZero, if_neg (by decide)] at isPerm
    rw [isSpaced] at notZero
    rcases pos_of_hasZeroShape notZero with ⟨⟨several, hasChannel⟩, hasHeight, hasWidth⟩
    have isAsked := @places_perm_askedToSpace dimensionFormat _ _ _ _ _ _ _ isSpaced
    rw [isSpaced, onCompute, movesOf_exchanged,
      movesOf_regionsOf _ _ _ _ _ _ _ _ _ several] at isPerm
    exact not_perm_places isSpaced notFusible hasChannel hasHeight hasWidth
      ((map_perm_map_iff Prod.swap_injective).mp (isPerm.trans isAsked.symm))
  · rintro ⟨kept, fits⟩
    have isShape := (batchToSpaceSize_eq_iff ..).mpr kept
    refine ⟨isShape, origin_compute _ _ _ _ _ _, ?_⟩
    rw [isShape, compute]
    cases isZero : hasZeroShape (spacedShape param (blocksOf param batch channel height width)) with
    | true =>
      rw [if_pos rfl, areEmpty isZero]
      exact .refl _
    | false =>
      have isSpaced := spacedShape_eq_spaceOf isZero
      have isAsked := @places_perm_askedToSpace dimensionFormat _ _ _ _ _ _ _ isSpaced
      have fusible := fits.resolve_left (by rw [isZero]; decide)
      rw [isSpaced] at isZero
      rw [if_neg (by decide)]
      rw [isSpaced, onCompute, movesOf_exchanged,
        movesOf_eq_places realTensor (pos_of_hasZeroShape isZero).1.1 fusible]
      exact isAsked

end Copies

end Mnn.Geometry.SpaceToBatch
