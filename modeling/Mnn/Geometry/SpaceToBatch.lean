import Mnn.Core.Macro
import Mnn.Foundation.Windows
import Mnn.Geometry.Regions

/-!
# Space to batch, and batch to space

Blocks of the height and the width become images of a batch.  One routine computes the
regions of both directions; for the way back, source and destination are exchanged.
-/

namespace Mnn.Geometry.SpaceToBatch

open Mnn.Core.Raster
open List

/-- `MNN_DATA_FORMAT_…` -/
inductive DimensionFormat
  | NCHW
  | NC4HW4
  | NHWC
  deriving DecidableEq

inductive OpType
  | SpaceToBatchND
  | BatchToSpaceND
  deriving DecidableEq

/-- The lengths of a tensor with four axes. -/
structure Shape where
  batch : Int
  channel : Int
  height : Int
  width : Int
  deriving DecidableEq

/-- The entries of `blockData` and `paddingData` for one axis. -/
structure Spatial where
  block : Nat
  before : Nat
  after : Nat
  positive : 0 < block

/-- The blocks of the height, and of the width if `blockSize > 1`. -/
structure SpaceBatch where
  height : Spatial
  width : Option Spatial

def SpaceBatch.blockShapeHeight (param : SpaceBatch) : Nat := param.height.block

def SpaceBatch.blockShapeWidth (param : SpaceBatch) : Nat :=
  match param.width with
  | none => 1
  | some width => width.block

def SpaceBatch.padTop (param : SpaceBatch) : Nat := param.height.before

def SpaceBatch.padLeft (param : SpaceBatch) : Nat :=
  match param.width with
  | none => 0
  | some width => width.before

/-! ## Shapes -/

/-- `SpaceToBatchNDSizeComputer`, for one axis. -/
def Spatial.batched (spatial : Spatial) (length : Int) : Int :=
  (length + spatial.before + spatial.after).tdiv spatial.block

/-- `BatchToSpaceNDSizeComputer`, for one axis. -/
def Spatial.spaced (spatial : Spatial) (length : Int) : Int :=
  length * spatial.block - spatial.before - spatial.after

/--
The lengths that are set, where `length` computes those of the blocked axes.  Without a
block of the width, the last length stays what it was.
-/
def setLengths (dimensionFormat : DimensionFormat) (param : SpaceBatch)
    (length : Spatial → Int → Int) (batch last : Int) (input : Shape) : Shape :=
  match param.width with
  | some width =>
    ⟨batch, input.channel, length param.height input.height, length width input.width⟩
  | none =>
    match dimensionFormat with
    | .NHWC => ⟨batch, last, length param.height input.height, input.width⟩
    | _ => ⟨batch, input.channel, length param.height input.height, last⟩

def spaceToBatchSize (dimensionFormat : DimensionFormat) (param : SpaceBatch)
    (last : Int) (input : Shape) : Shape :=
  setLengths dimensionFormat param Spatial.batched
    (input.batch * param.blockShapeHeight * param.blockShapeWidth) last input

def batchToSpaceSize (dimensionFormat : DimensionFormat) (param : SpaceBatch)
    (last : Int) (input : Shape) : Shape :=
  setLengths dimensionFormat param Spatial.spaced
    ((input.batch.tdiv param.blockShapeHeight).tdiv param.blockShapeWidth) last input

/-! ## Regions -/

/-- The strides of the channel, the height and the width, and that of the batch. -/
structure Strides where
  batch : Int
  channel : Int
  height : Int
  width : Int

def stridesOf (dimensionFormat : DimensionFormat) (channel : Int) (shape : Shape) :
    Strides :=
  match dimensionFormat with
  | .NHWC =>
    ⟨shape.width * shape.height * channel, 1, shape.width * channel, channel⟩
  | _ =>
    ⟨shape.width * shape.height * channel, shape.width * shape.height, shape.width, 1⟩

def validStart (pad stride block : Nat) : Int :=
  max 0 (((pad : Int) - stride + block - 1).tdiv block)

def validEnd (outLength inLength : Int) (pad stride block : Nat) : Int :=
  min outLength ((inLength + pad - stride + block - 1).tdiv block)

/-- The region of one position in the block, from the input to the output. -/
def regionAt (dimensionFormat : DimensionFormat) (param : SpaceBatch)
    (realTensor : TensorPtr) (input output : Shape) (r : Nat) : Region :=
  let channel := output.channel
  let inputStride := stridesOf dimensionFormat channel input
  let outputStride := stridesOf dimensionFormat channel output
  let strideW := r % param.blockShapeWidth
  let strideH := r / param.blockShapeWidth
  let validHStart := validStart param.padTop strideH param.blockShapeHeight
  let validHEnd :=
    validEnd output.height input.height param.padTop strideH param.blockShapeHeight
  let validWStart := validStart param.padLeft strideW param.blockShapeWidth
  let validWEnd :=
    validEnd output.width input.width param.padLeft strideW param.blockShapeWidth
  let inHeightStart := validHStart * param.blockShapeHeight + strideH - param.padTop
  let inWidthStart := validWStart * param.blockShapeWidth + strideW - param.padLeft
  { src :=
      { offset := inHeightStart * inputStride.height + inWidthStart * inputStride.width
        stride :=
          ![1 * inputStride.channel, param.blockShapeHeight * inputStride.height,
            param.blockShapeWidth * inputStride.width] }
    dst :=
      { offset :=
          outputStride.height * validHStart + outputStride.width * validWStart +
            r * input.batch * outputStride.batch
        stride := ![outputStride.channel, outputStride.height, outputStride.width] }
    size := ![input.batch * channel, validHEnd - validHStart, validWEnd - validWStart]
    origin := some realTensor }

def regionsOf (dimensionFormat : DimensionFormat) (param : SpaceBatch)
    (realTensor : TensorPtr) (input output : Shape) : List Region :=
  (List.range (output.batch.tdiv input.batch).toNat).map
    (regionAt dimensionFormat param realTensor input output)

def exchanged (reg : Region) : Region := { reg with src := reg.dst, dst := reg.src }

def onCompute (type : OpType) (dimensionFormat : DimensionFormat) (param : SpaceBatch)
    (realTensor : TensorPtr) (input output : Shape) : List Region :=
  match type with
  | .SpaceToBatchND => regionsOf dimensionFormat param realTensor input output
  | .BatchToSpaceND =>
    (regionsOf dimensionFormat param realTensor output input).map exchanged

/-- `_hasZeroShapeOutput` -/
def hasZeroShape (shape : Shape) : Bool :=
  decide (shape.batch ≤ 0 ∨ shape.channel ≤ 0 ∨ shape.height ≤ 0 ∨ shape.width ≤ 0)

/-- Nothing is computed for an output that is empty. -/
def compute (type : OpType) (dimensionFormat : DimensionFormat) (param : SpaceBatch)
    (realTensor : TensorPtr) (input output : Shape) : List Region :=
  if hasZeroShape output then []
  else onCompute type dimensionFormat param realTensor input output

/-! ## What the operators mean -/

/-- The place of an element. -/
def position (dimensionFormat : DimensionFormat) (shape : Shape) (n c y x : Int) : Int :=
  match dimensionFormat with
  | .NHWC => ((n * shape.height + y) * shape.width + x) * shape.channel + c
  | _ => ((n * shape.channel + c) * shape.height + y) * shape.width + x

/-- The image, channel, row and column of each element. -/
def cells (shape : Shape) : List ((Nat × Nat) × (Nat × Nat)) :=
  (List.range shape.batch.toNat ×ˢ List.range shape.channel.toNat) ×ˢ
    (List.range shape.height.toNat ×ˢ List.range shape.width.toNat)

/-- The lengths of a tensor of blocks. -/
def batchedShape (param : SpaceBatch) (input : Shape) : Shape where
  batch := input.batch * param.blockShapeHeight * param.blockShapeWidth
  channel := input.channel
  height := param.height.batched input.height
  width := param.width.elim input.width (·.batched input.width)

/-- The lengths of a tensor of which the blocks are put together. -/
def spacedShape (param : SpaceBatch) (input : Shape) : Shape where
  batch := input.batch / (param.blockShapeHeight * param.blockShapeWidth : Nat)
  channel := input.channel
  height := param.height.spaced input.height
  width := param.width.elim input.width (·.spaced input.width)

/-- The row and the column in a tensor of space for a position in the block. -/
def rowOf (param : SpaceBatch) (r i : Nat) : Int :=
  i * param.blockShapeHeight + (r / param.blockShapeWidth : Nat) - param.padTop

def columnOf (param : SpaceBatch) (r j : Nat) : Int :=
  j * param.blockShapeWidth + (r % param.blockShapeWidth : Nat) - param.padLeft

/--
Each element of the output is that of the padded input at its place in the block.  What
is padding is not copied.
-/
def askedToBatch (dimensionFormat : DimensionFormat) (param : SpaceBatch)
    (input : Shape) : List (Int × Int) :=
  let output := batchedShape param input
  let row (cell : (Nat × Nat) × (Nat × Nat)) : Int :=
    rowOf param (cell.1.1 / input.batch.toNat) cell.2.1
  let column (cell : (Nat × Nat) × (Nat × Nat)) : Int :=
    columnOf param (cell.1.1 / input.batch.toNat) cell.2.2
  ((cells output).filter fun cell =>
      (0 ≤ row cell ∧ row cell < input.height) ∧ (0 ≤ column cell ∧ column cell < input.width)).map
    fun cell =>
      (position dimensionFormat input (cell.1.1 % input.batch.toNat : Nat) cell.1.2
          (row cell) (column cell),
        position dimensionFormat output cell.1.1 cell.1.2 cell.2.1 cell.2.2)

/-- Each element of the output, behind what is cropped, is that of its block. -/
def askedToSpace (dimensionFormat : DimensionFormat) (param : SpaceBatch)
    (input : Shape) : List (Int × Int) :=
  let output := spacedShape param input
  (cells output).map fun cell =>
    let y := cell.2.1 + param.padTop
    let x := cell.2.2 + param.padLeft
    let r :=
      y % param.blockShapeHeight * param.blockShapeWidth + x % param.blockShapeWidth
    (position dimensionFormat input (r * output.batch + cell.1.1) cell.1.2
        (y / param.blockShapeHeight : Nat) (x / param.blockShapeWidth : Nat),
      position dimensionFormat output cell.1.1 cell.1.2 cell.2.1 cell.2.2)

/-- The copies of an operator are those that are asked for. -/
structure Exact (regions : List Region) (realTensor : TensorPtr)
    (asked : List (Int × Int)) : Prop where
  origin : ∀ reg ∈ regions, reg.origin = some realTensor
  moves : (movesOf regions).Perm asked

/-!
# The copies between space and batch

Both directions make the same copies, between a tensor of space and one of blocks.
-/

open Mnn.Foundation.LoopNests
open Mnn.Foundation.Windows

section Moves

variable (dimensionFormat : DimensionFormat) (param : SpaceBatch)
  (batch channel height width outHeight outWidth : Nat)

theorem SpaceBatch.blockShapeHeight_pos : 0 < param.blockShapeHeight := param.height.positive

theorem SpaceBatch.blockShapeWidth_pos : 0 < param.blockShapeWidth := by
  rw [SpaceBatch.blockShapeWidth]
  cases param.width with
  | none => exact Nat.one_pos
  | some width => exact width.positive

/-- The tensor of space, and that of blocks. -/
def spaceOf : Shape := ⟨batch, channel, height, width⟩

def blocksOf : Shape :=
  ⟨(batch : Int) * param.blockShapeHeight * param.blockShapeWidth, channel, outHeight, outWidth⟩

def rows (r : Nat) : List Nat := (List.range outHeight).filter fun i =>
    0 ≤ rowOf param r i ∧ rowOf param r i < height

def columns (r : Nat) : List Nat := (List.range outWidth).filter fun j =>
    0 ≤ columnOf param r j ∧ columnOf param r j < width

/-- The positions in the block, and for each the images, channels, rows and columns. -/
def indices : List ((_ : Nat) × ((Nat × Nat) × (Nat × Nat))) :=
  (List.range (param.blockShapeHeight * param.blockShapeWidth)).sigma fun r =>
    (List.range batch ×ˢ List.range channel) ×ˢ
      (rows param height outHeight r ×ˢ columns param width outWidth r)

/-- The copy for an index. -/
def moveAt (index : (_ : Nat) × ((Nat × Nat) × (Nat × Nat))) : Int × Int :=
  let inputStride :=
    stridesOf dimensionFormat channel (spaceOf batch channel height width)
  let outputStride :=
    stridesOf dimensionFormat channel (blocksOf param batch channel outHeight outWidth)
  let fused : Int := index.2.1.1 * channel + index.2.1.2
  (rowOf param index.1 index.2.2.1 * inputStride.height +
      columnOf param index.1 index.2.2.2 * inputStride.width + fused * inputStride.channel,
    index.2.2.1 * outputStride.height + index.2.2.2 * outputStride.width +
      fused * outputStride.channel + index.1 * batch * outputStride.batch)

theorem filter_valid {block : Nat} (positive : 0 < block) {stride : Nat}
    (inBlock : stride < block) (outLength inLength pad : Nat) :
    ((List.range outLength).filter fun (i : Nat) =>
        0 ≤ (i : Int) * block + stride - pad ∧ (i : Int) * block + stride - pad < inLength) =
      (List.range (validEnd outLength inLength pad stride block -
            validStart pad stride block).toNat).map
        ((validStart pad stride block).toNat + ·) := by
  have isPositive : (0 : Int) ≤ block := Int.natCast_nonneg _
  have isStart : validStart pad stride block = ((pad : Int) - stride + block - 1) / block := by
    have isNonneg : 0 ≤ (pad : Int) - stride + block - 1 := by omega
    rw [validStart, Int.tdiv_eq_ediv_of_nonneg isNonneg]
    exact max_eq_right (Int.ediv_nonneg isNonneg isPositive)
  have isEnd :
      validEnd outLength inLength pad stride block =
        min (outLength : Int) (((inLength : Int) + pad - stride + block - 1) / block) := by
    rw [validEnd, Int.tdiv_eq_ediv_of_nonneg (by omega)]
  have startNonneg : 0 ≤ ((pad : Int) - stride + block - 1) / block :=
    Int.ediv_nonneg (by omega) isPositive
  have endNonneg : 0 ≤ ((inLength : Int) + pad - stride + block - 1) / block :=
    Int.ediv_nonneg (by omega) isPositive
  have fromStart (i : Nat) := ceil_le positive ((pad : Int) - stride) i
  have toEnd (i : Nat) := lt_ceil positive ((inLength : Int) + pad - stride) i
  rw [isStart, isEnd]
  generalize ((pad : Int) - stride + block - 1) / block = first at *
  generalize ((inLength : Int) + pad - stride + block - 1) / block = last at *
  have isFiltered := filter_range outLength first.toNat last.toNat
  have sameLength :
      min outLength last.toNat - first.toNat = (min (outLength : Int) last - first).toNat := by
    omega
  rw [sameLength] at isFiltered
  rw [← isFiltered]
  refine filter_congr fun i _ => ?_
  have fromFirst := fromStart i
  have toLast := toEnd i
  generalize (i : Int) * block = steps at *
  rw [decide_eq_decide]
  omega

theorem map_product {Result : Type} (images channels rows columns : List Nat)
    (result : (Nat × Nat) × (Nat × Nat) → Result) :
    ((images ×ˢ channels) ×ˢ (rows ×ˢ columns)).map result =
      images.flatMap fun n =>
        channels.flatMap fun c =>
          rows.flatMap fun i => columns.map fun j => result ((n, c), (i, j)) := by
  simp only [SProd.sprod, List.product, map_flatMap, map_map,
    flatMap_assoc, flatMap_map, Function.comp_def]

theorem moves_regionAt (realTensor : TensorPtr) {r : Nat}
    (inBlock : r < param.blockShapeHeight * param.blockShapeWidth) :
    (regionAt dimensionFormat param realTensor (spaceOf batch channel height width)
        (blocksOf param batch channel outHeight outWidth) r).moves =
      ((List.range batch ×ˢ List.range channel) ×ˢ
          (rows param height outHeight r ×ˢ columns param width outWidth r)).map
        fun index =>
          moveAt dimensionFormat param batch channel height width outHeight outWidth
            ⟨r, index⟩ := by
  have inHeight : r / param.blockShapeWidth < param.blockShapeHeight :=
    (Nat.div_lt_iff_lt_mul param.blockShapeWidth_pos).mpr inBlock
  have inWidth : r % param.blockShapeWidth < param.blockShapeWidth :=
    Nat.mod_lt _ param.blockShapeWidth_pos
  have areRows : rows param height outHeight r = (List.range
            (validEnd outHeight height param.padTop (r / param.blockShapeWidth)
                param.blockShapeHeight -
              validStart param.padTop (r / param.blockShapeWidth) param.blockShapeHeight).toNat).map
          ((validStart param.padTop (r / param.blockShapeWidth)
            param.blockShapeHeight).toNat + ·) :=
    filter_valid param.blockShapeHeight_pos inHeight outHeight height param.padTop
  have areColumns : columns param width outWidth r = (List.range
            (validEnd outWidth width param.padLeft (r % param.blockShapeWidth)
                param.blockShapeWidth -
              validStart param.padLeft (r % param.blockShapeWidth) param.blockShapeWidth).toNat).map
          ((validStart param.padLeft (r % param.blockShapeWidth)
            param.blockShapeWidth).toNat + ·) :=
    filter_valid param.blockShapeWidth_pos inWidth outWidth width param.padLeft
  have areFused : ((batch : Int) * channel).toNat = batch * channel := by
    rw [← Nat.cast_mul, Int.toNat_natCast]
  have startNonneg (pad stride block : Nat) : 0 ≤ validStart pad stride block := le_max_left ..
  rw [moves_eq_flatMap, map_product, areRows, areColumns]
  show List.flatMap _ (List.range ((batch : Int) * channel).toNat) = _
  rw [areFused, range_mul, flatMap_assoc]
  refine flatMap_congr fun n _ => ?_
  rw [flatMap_map]
  refine flatMap_congr fun c _ => ?_
  rw [flatMap_map]
  refine flatMap_congr fun a _ => ?_
  rw [map_map]
  refine map_congr_left fun b _ => ?_
  simp only [regionAt, moveAt, rowOf, columnOf, Function.comp_apply,
    Matrix.cons_val_zero, Matrix.cons_val_one, Matrix.cons_val]
  have isHStart := Int.toNat_of_nonneg (startNonneg param.padTop (r / param.blockShapeWidth)
      param.blockShapeHeight)
  have isWStart := Int.toNat_of_nonneg (startNonneg param.padLeft (r % param.blockShapeWidth)
      param.blockShapeWidth)
  refine Prod.ext ?_ ?_
  · push_cast [isHStart, isWStart, spaceOf, blocksOf]
    ring
  · push_cast [isHStart, isWStart, spaceOf, blocksOf]
    ring

theorem count_regionsOf (some : 0 < batch) :
    ((blocksOf param batch channel outHeight outWidth).batch.tdiv
        (spaceOf batch channel height width).batch).toNat =
      param.blockShapeHeight * param.blockShapeWidth := by
  show (((batch : Int) * param.blockShapeHeight * param.blockShapeWidth).tdiv
    (batch : Int)).toNat = _
  have notZero : (batch : Int) ≠ 0 := by exact_mod_cast some.ne'
  rw [mul_assoc, Int.mul_tdiv_cancel_left _ notZero, ← Nat.cast_mul, Int.toNat_natCast]

theorem movesOf_regionsOf (realTensor : TensorPtr) (some : 0 < batch) : movesOf
        (regionsOf dimensionFormat param realTensor (spaceOf batch channel height width)
          (blocksOf param batch channel outHeight outWidth)) =
      (indices param batch channel height width outHeight outWidth).map
        (moveAt dimensionFormat param batch channel height width outHeight outWidth) := by
  rw [movesOf, regionsOf, count_regionsOf param batch channel height width outHeight
    outWidth some, flatMap_map, indices, List.sigma, map_flatMap]
  refine flatMap_congr fun r isIn => ?_
  rw [moves_regionAt dimensionFormat param batch channel height width outHeight outWidth
    realTensor (mem_range.mp isIn), map_map]
  rfl

end Moves

end Mnn.Geometry.SpaceToBatch
