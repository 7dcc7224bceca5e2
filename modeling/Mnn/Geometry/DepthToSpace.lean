import Mnn.Geometry.SpaceToBatchInverse

/-!
# Depth to space, and space to depth

The channels of a block become its rows and columns.  One routine computes the regions
of both directions; for the way back, source and destination are exchanged.
-/

variable {cell : (Nat × Nat) × (Nat × Nat)}

namespace Mnn.Geometry.DepthToSpace

open Mnn.Core
open Mnn.Core.Raster
open Mnn.Foundation.StridedLoops
open Mnn.Geometry.SpaceToBatch
open List
open Function (comp_apply)

inductive OpType
  | DepthToSpace
  | SpaceToDepth
  deriving DecidableEq

/-- `DepthToSpaceMode` -/
inductive Mode
  | DCR
  | CRD
  deriving DecidableEq

/-! ## Shapes -/

/-- `DepthToSpaceSizeComputer`; there is no size where it asserts something false. -/
def depthToSpaceSize (blockSize : Nat) (input : Shape) : Option Shape :=
  if 1 ≤ blockSize ∧ input.channel.tmod (blockSize * blockSize) = 0 then
    some ⟨input.batch, input.channel.tdiv (blockSize * blockSize), input.height * blockSize,
      input.width * blockSize⟩
  else
    none

/-- `SpaceToDepthSizeComputer` -/
def spaceToDepthSize (blockSize : Nat) (input : Shape) : Option Shape :=
  if blockSize = 0 then none
  else if input.height.tmod blockSize ≠ 0 ∨ input.width.tmod blockSize ≠ 0 then none
  else
    some ⟨input.batch, input.channel * (blockSize * blockSize), input.height.tdiv blockSize,
      input.width.tdiv blockSize⟩

def computeSize (type : OpType) (blockSize : Nat) (input : Shape) : Option Shape :=
  match type with
  | .DepthToSpace => depthToSpaceSize blockSize input
  | .SpaceToDepth => spaceToDepthSize blockSize input

/-! ## Regions -/

/-- The region of one image and one position in the block. -/
def regionAt (dimensionFormat : DimensionFormat) (mode : Mode) (blockSize : Nat)
    (realTensor : TensorPtr) (input output : Shape) (b hb wb : Nat) : Region :=
  let inputStride := stridesOf dimensionFormat input.channel input
  let outputStride := stridesOf dimensionFormat output.channel output
  let offsetC : Int := hb * blockSize + wb
  let offsetC := if mode = .DCR then offsetC * output.channel else offsetC
  { src :=
      { offset := b * inputStride.batch + offsetC * inputStride.channel
        stride :=
          ![inputStride.height, inputStride.width,
            if mode = .CRD then inputStride.channel * (blockSize * blockSize)
            else inputStride.channel] }
    dst :=
      { offset := b * outputStride.batch + hb * outputStride.height + wb * outputStride.width
        stride :=
          ![outputStride.height * blockSize, outputStride.width * blockSize,
            outputStride.channel] }
    size := ![input.height, input.width, output.channel]
    origin := some realTensor }

def regionsOf (dimensionFormat : DimensionFormat) (mode : Mode) (blockSize : Nat)
    (realTensor : TensorPtr) (input output : Shape) : List Region :=
  (List.range input.batch.toNat).flatMap fun b =>
    (List.range blockSize).flatMap fun hb =>
      (List.range blockSize).map fun wb =>
        regionAt dimensionFormat mode blockSize realTensor input output b hb wb

def onCompute (type : OpType) (dimensionFormat : DimensionFormat) (mode : Mode)
    (blockSize : Nat) (realTensor : TensorPtr) (input output : Shape) : List Region :=
  match type with
  | .DepthToSpace => regionsOf dimensionFormat mode blockSize realTensor input output
  | .SpaceToDepth =>
    (regionsOf dimensionFormat mode blockSize realTensor output input).map exchanged

/-! ## What the operators mean -/

/-- The channel of depth for a channel of space at a row and a column of the block. -/
def depthChannel (mode : Mode) (blockSize channel c hb wb : Nat) : Nat :=
  match mode with
  | .DCR => (hb * blockSize + wb) * channel + c
  | .CRD => c * (blockSize * blockSize) + (hb * blockSize + wb)

/-- The channel of space, and the number of the position in the block. -/
def spaceChannel (mode : Mode) (blockSize channel c : Nat) : Nat × Nat :=
  match mode with
  | .DCR => (c % channel, c / channel)
  | .CRD => (c / (blockSize * blockSize), c % (blockSize * blockSize))

def positionOf (dimensionFormat : DimensionFormat) (shape : Shape)
    (cell : (Nat × Nat) × (Nat × Nat)) : Int :=
  position dimensionFormat shape cell.1.1 cell.1.2 cell.2.1 cell.2.2

/-- The element of the input that is asked for. -/
def pick (type : OpType) (mode : Mode) (blockSize : Nat) (input output : Shape)
    (cell : (Nat × Nat) × (Nat × Nat)) : (Nat × Nat) × (Nat × Nat) :=
  let ((n, c), (y, x)) := cell
  match type with
  | .DepthToSpace =>
    ((n, depthChannel mode blockSize output.channel.toNat c (y % blockSize) (x % blockSize)),
      (y / blockSize, x / blockSize))
  | .SpaceToDepth =>
    let (c, r) := spaceChannel mode blockSize input.channel.toNat c
    ((n, c), (y * blockSize + r / blockSize, x * blockSize + r % blockSize))

/-- The copies that an operator asks for, one for each element of its output. -/
def asked (type : OpType) (dimensionFormat : DimensionFormat) (mode : Mode) (blockSize : Nat)
    (input output : Shape) : List (Int × Int) :=
  (cells output).map fun cell =>
    (positionOf dimensionFormat input (pick type mode blockSize input output cell),
      positionOf dimensionFormat output cell)

/-! ## Copies -/

/-- The image, the place in the block, the row, the column and the channel of space. -/
abbrev Index : Type := (Nat × (Nat × Nat)) × ((Nat × Nat) × Nat)

/-- The block, the images, the channels of space, and the rows and columns of depth. -/
structure Blocks where
  blockSize : Nat
  batch : Nat
  channel : Nat
  height : Nat
  width : Nat

namespace Blocks

variable (dimensionFormat : DimensionFormat) (mode : Mode) (blocks : Blocks)

def indices : List Index :=
  (List.range blocks.batch ×ˢ (List.range blocks.blockSize ×ˢ List.range blocks.blockSize)) ×ˢ
    ((List.range blocks.height ×ˢ List.range blocks.width) ×ˢ List.range blocks.channel)

def depthCell (index : Index) : (Nat × Nat) × (Nat × Nat) :=
  ((index.1.1, depthChannel mode blocks.blockSize blocks.channel index.2.2 index.1.2.1
    index.1.2.2), index.2.1)

def spaceCell (index : Index) : (Nat × Nat) × (Nat × Nat) :=
  ((index.1.1, index.2.2), (index.2.1.1 * blocks.blockSize + index.1.2.1,
    index.2.1.2 * blocks.blockSize + index.1.2.2))

def depth : Shape :=
  spaceOf blocks.batch (blocks.channel * (blocks.blockSize * blocks.blockSize)) blocks.height
    blocks.width

def space : Shape :=
  spaceOf blocks.batch blocks.channel (blocks.height * blocks.blockSize)
    (blocks.width * blocks.blockSize)

/-- The places between which an element is copied. -/
def placeAt (index : Index) : Int × Int :=
  (positionOf dimensionFormat blocks.depth (blocks.depthCell mode index),
    positionOf dimensionFormat blocks.space (blocks.spaceCell index))

theorem movesOf_regionsOf (realTensor : TensorPtr) :
    movesOf (regionsOf dimensionFormat mode blocks.blockSize realTensor blocks.depth blocks.space) =
      blocks.indices.map (blocks.placeAt dimensionFormat mode) := by
  simp only [movesOf, regionsOf, indices, SProd.sprod, List.product, map_flatMap, map_map,
    flatMap_assoc, flatMap_map, moves_eq_flatMap, Function.comp_def]
  refine flatMap_congr fun b _ => flatMap_congr fun hb _ => flatMap_congr fun wb _ =>
    flatMap_congr fun y _ => flatMap_congr fun x _ => map_congr_left fun c _ => ?_
  cases dimensionFormat <;> cases mode <;>
  · simp only [regionAt, placeAt, positionOf, position, depthCell, spaceCell, depthChannel,
      depth, space, stridesOf, spaceOf, Matrix.cons_val_zero, Matrix.cons_val_one,
      Matrix.cons_val, if_true, if_false, reduceCtorEq, Prod.mk.injEq]
    push_cast
    constructor <;> ring

variable {dimensionFormat mode blocks} {batch channel height width : Nat} {n y x c blockSize : Nat}

theorem mem_indices {hb wb : Nat} :
    ((n, (hb, wb)), ((y, x), c)) ∈ blocks.indices ↔
      (n < blocks.batch ∧ hb < blocks.blockSize ∧ wb < blocks.blockSize) ∧
        (y < blocks.height ∧ x < blocks.width) ∧ c < blocks.channel := by
  simp only [indices, List.mem_product, mem_range]

theorem nodup_indices : blocks.indices.Nodup :=
  (nodup_range.product (nodup_range.product nodup_range)).product
    ((nodup_range.product nodup_range).product nodup_range)

theorem mem_cells :
    ((n, c), (y, x)) ∈ cells (spaceOf batch channel height width) ↔
      (n < batch ∧ c < channel) ∧ y < height ∧ x < width := by
  simp only [cells, spaceOf, List.mem_product, mem_range, Int.toNat_natCast]

theorem nodup_cells (shape : Shape) : (cells shape).Nodup :=
  (nodup_range.product nodup_range).product (nodup_range.product nodup_range)

/-! ## The cells of an index -/

section Index

variable {index : Index} (isIndex : index ∈ blocks.indices)

include isIndex

theorem spaceCell_mem : blocks.spaceCell index ∈
    cells blocks.space := by
  obtain ⟨⟨nLess, hLess, wLess⟩, ⟨yLess, xLess⟩, cLess⟩ := mem_indices.mp isIndex
  exact mem_cells.mpr ⟨⟨nLess, cLess⟩, digits_lt yLess hLess, digits_lt xLess wLess⟩

theorem depthCell_mem : blocks.depthCell mode index ∈
    cells blocks.depth := by
  obtain ⟨⟨nLess, hLess, wLess⟩, inside, cLess⟩ := mem_indices.mp isIndex
  refine mem_cells.mpr ⟨⟨nLess, ?_⟩, inside⟩
  have inBlock := digits_lt hLess wLess
  cases mode with
  | DCR => exact (digits_lt inBlock cLess).trans_eq (Nat.mul_comm ..)
  | CRD => exact digits_lt cLess inBlock

theorem pick_spaceCell : pick .DepthToSpace mode blocks.blockSize blocks.depth
    blocks.space (blocks.spaceCell index) =
      blocks.depthCell mode index := by
  obtain ⟨⟨_, hLess, wLess⟩, -, -⟩ := mem_indices.mp isIndex
  simp only [pick, spaceCell, depthCell, space, spaceOf, Int.toNat_natCast,
    divMod_digits _ hLess, divMod_digits _ wLess]

theorem pick_depthCell : pick .SpaceToDepth mode blocks.blockSize blocks.space
    blocks.depth (blocks.depthCell mode index) =
      blocks.spaceCell index := by
  obtain ⟨⟨_, hLess, wLess⟩, -, cLess⟩ := mem_indices.mp isIndex
  cases mode with
  | DCR =>
    simp only [pick, spaceChannel, depthChannel, spaceCell, depthCell, space, spaceOf,
      Int.toNat_natCast, divMod_digits _ cLess, divMod_digits _ wLess]
  | CRD =>
    simp only [pick, spaceChannel, depthChannel, spaceCell, depthCell,
      divMod_digits _ (digits_lt hLess wLess), divMod_digits _ wLess]

theorem spaceCell_inj {index' : Index} (isIndex' : index' ∈ blocks.indices)
    (same : blocks.spaceCell index = blocks.spaceCell index') : index = index' := by
  obtain ⟨⟨n, hb, wb⟩, ⟨y, x⟩, c⟩ := index
  obtain ⟨⟨n', hb', wb'⟩, ⟨y', x'⟩, c'⟩ := index'
  obtain ⟨⟨_, hLess, wLess⟩, -, -⟩ := mem_indices.mp isIndex
  obtain ⟨⟨_, hLess', wLess'⟩, -, -⟩ := mem_indices.mp isIndex'
  simp only [spaceCell, Prod.mk.injEq] at same
  obtain ⟨⟨rfl, rfl⟩, sameY, sameX⟩ := same
  obtain ⟨rfl, rfl⟩ := digits_inj hLess hLess' sameY
  obtain ⟨rfl, rfl⟩ := digits_inj wLess wLess' sameX
  rfl

end Index

theorem exists_spaceCell (isCell : cell ∈ cells blocks.space) :
    ∃ index ∈ blocks.indices, blocks.spaceCell index = cell := by
  obtain ⟨⟨n, c⟩, y, x⟩ := cell
  obtain ⟨⟨nLess, cLess⟩, yLess, xLess⟩ := mem_cells.mp isCell
  obtain ⟨y, hb, yLess', hLess, rfl⟩ := exists_digits yLess
  obtain ⟨x, wb, xLess', wLess, rfl⟩ := exists_digits xLess
  exact ⟨((n, (hb, wb)), ((y, x), c)),
    mem_indices.mpr ⟨⟨nLess, hLess, wLess⟩, ⟨yLess', xLess'⟩, cLess⟩, rfl⟩

theorem exists_depthCell (mode : Mode) (isCell : cell ∈ cells blocks.depth) :
    ∃ index ∈ blocks.indices,
      blocks.depthCell mode index = cell := by
  obtain ⟨⟨n, c⟩, y, x⟩ := cell
  obtain ⟨⟨nLess, cLess⟩, inside⟩ := mem_cells.mp isCell
  obtain ⟨c, r, cLess, rLess, isChannel⟩ : ∃ c' r, c' < blocks.channel ∧
      r < blocks.blockSize * blocks.blockSize ∧ c = depthChannel mode blocks.blockSize
        blocks.channel c' (r / blocks.blockSize) (r % blocks.blockSize) := by
    cases mode with
    | DCR =>
      rw [Nat.mul_comm] at cLess
      obtain ⟨r, c, rLess, cLess', rfl⟩ := exists_digits cLess
      exact ⟨c, r, cLess', rLess, by rw [depthChannel, Nat.div_add_mod']⟩
    | CRD =>
      obtain ⟨c, r, cLess', rLess, rfl⟩ := exists_digits cLess
      exact ⟨c, r, cLess', rLess, by rw [depthChannel, Nat.div_add_mod']⟩
  obtain ⟨hb, wb, hLess, wLess, rfl⟩ := exists_digits rLess
  rw [(divMod_digits _ wLess).1, (divMod_digits _ wLess).2] at isChannel
  exact ⟨((n, (hb, wb)), ((y, x), c)), mem_indices.mpr ⟨⟨nLess, hLess, wLess⟩, inside, cLess⟩,
    Prod.ext (Prod.ext rfl isChannel.symm) rfl⟩

/-- Each element of space has one index. -/
theorem spaceCells_perm : (blocks.indices.map blocks.spaceCell).Perm (cells blocks.space) := by
  refine (perm_ext_iff_of_nodup ?_ (nodup_cells _)).mpr fun cell => ?_
  · exact nodup_indices.map_on fun _ isIndex _ isIndex' same => spaceCell_inj isIndex isIndex' same
  · rw [mem_map]
    constructor
    · rintro ⟨index, isIndex, rfl⟩
      exact spaceCell_mem isIndex
    · exact exists_spaceCell

/-- Each element of depth has one index. -/
theorem depthCells_perm : (blocks.indices.map (blocks.depthCell mode)).Perm
      (cells blocks.depth) := by
  refine (perm_ext_iff_of_nodup ?_ (nodup_cells _)).mpr fun cell => ?_
  · refine nodup_indices.map_on fun index isIndex index' isIndex' same => ?_
    refine spaceCell_inj isIndex isIndex' ?_
    rw [← pick_depthCell isIndex, same, pick_depthCell isIndex']
  · rw [mem_map]
    constructor
    · rintro ⟨index, isIndex, rfl⟩
      exact depthCell_mem isIndex
    · exact exists_depthCell mode

/-! ## Both directions -/

/-- The output is written once everywhere, with the elements that are asked for. -/
structure Right (type : OpType) (dimensionFormat : DimensionFormat) (mode : Mode)
    (blockSize : Nat) (realTensor : TensorPtr) (input output : Shape) : Prop where
  exact : SpaceToBatch.Exact (onCompute type dimensionFormat mode blockSize realTensor input output) realTensor
    (asked type dimensionFormat mode blockSize input output)
  once : ((movesOf (onCompute type dimensionFormat mode blockSize realTensor input output)).map
    Prod.snd).Perm ((List.range (output.batch * output.channel * output.height *
      output.width).toNat).map fun (place : Nat) => (place : Int))

theorem positions_perm : ((cells (spaceOf batch channel height width)).map
    (positionOf dimensionFormat (spaceOf batch channel height width))).Perm
      ((List.range (batch * channel * height * width)).map fun (place : Nat) => (place : Int)) := by
  have isNodup := (nodup_range (n := batch * channel * height * width)).map Nat.cast_injective
    (β := Int)
  refine ((subperm_of_subset isNodup fun place isPlace => ?_).perm_of_length_le ?_).symm
  · obtain ⟨place, inside, rfl⟩ := mem_map.mp isPlace
    obtain ⟨n, c, y, x, ⟨nLess, cLess, yLess, xLess⟩, isPlace⟩ :=
      exists_position dimensionFormat (mem_range.mp inside)
    exact mem_map.mpr ⟨((n, c), (y, x)), mem_cells.mpr ⟨⟨nLess, cLess⟩, yLess, xLess⟩, isPlace⟩
  · simp [cells, spaceOf, List.length_product, Nat.mul_assoc]

theorem Right.of_exact {type : OpType} {realTensor : TensorPtr} {input : Shape}
    (exact : SpaceToBatch.Exact (onCompute type dimensionFormat mode blockSize realTensor input
      (spaceOf batch channel height width)) realTensor
        (asked type dimensionFormat mode blockSize input (spaceOf batch channel height width))) :
    Right type dimensionFormat mode blockSize realTensor input
      (spaceOf batch channel height width) := by
  refine ⟨exact, (exact.moves.map Prod.snd).trans ?_⟩
  rw [asked, map_map]
  refine Perm.trans positions_perm (.of_eq ?_)
  simp only [spaceOf, ← Nat.cast_mul, Int.toNat_natCast]

theorem origin_regionsOf {realTensor : TensorPtr} {input output : Shape} : ∀ reg ∈
    regionsOf dimensionFormat mode blockSize realTensor input output,
      reg.origin = some realTensor := by
  intro reg isIn
  simp only [regionsOf, mem_flatMap, mem_map] at isIn
  obtain ⟨b, -, hb, -, wb, -, rfl⟩ := isIn
  rfl

theorem movesOf_spaceToDepth (realTensor : TensorPtr) :
    movesOf (onCompute .SpaceToDepth dimensionFormat mode blocks.blockSize realTensor blocks.space
        blocks.depth) =
      (blocks.indices.map (blocks.placeAt dimensionFormat mode)).map Prod.swap :=
  (movesOf_exchanged _).trans (congrArg _ (movesOf_regionsOf ..))

theorem right_depthToSpace (blocks : Blocks) (realTensor : TensorPtr) :
    Right .DepthToSpace dimensionFormat mode blocks.blockSize realTensor blocks.depth
      blocks.space := by
  refine Right.of_exact ⟨origin_regionsOf, ?_⟩
  refine Perm.trans (.of_eq ((movesOf_regionsOf ..).trans ?_)) (spaceCells_perm.map _)
  rw [map_map]
  refine map_congr_left fun index isIndex => ?_
  rw [comp_apply, placeAt, ← pick_spaceCell isIndex]
  rfl

theorem right_spaceToDepth (blocks : Blocks) (realTensor : TensorPtr) :
    Right .SpaceToDepth dimensionFormat mode blocks.blockSize realTensor blocks.space
      blocks.depth := by
  refine Right.of_exact ⟨?_, ?_⟩
  · intro reg isIn
    obtain ⟨other, isOther, rfl⟩ := mem_map.mp isIn
    exact origin_regionsOf other isOther
  refine Perm.trans (.of_eq ((movesOf_spaceToDepth realTensor).trans ?_))
    ((@depthCells_perm mode blocks).map _)
  rw [map_map, map_map]
  refine map_congr_left fun index isIndex => ?_
  rw [comp_apply, comp_apply, placeAt, ← pick_depthCell isIndex]
  rfl

theorem copied_back {Value : Type} (blocks : Blocks) (realTensor middle : TensorPtr)
    (source target target' : Int → Value) {place : Nat}
    (inside : place < blocks.batch *
      (blocks.channel * (blocks.blockSize * blocks.blockSize)) * blocks.height * blocks.width) :
    copyAll (movesOf (onCompute .SpaceToDepth dimensionFormat mode blocks.blockSize middle
          blocks.space blocks.depth))
        (copyAll (movesOf (onCompute .DepthToSpace dimensionFormat mode blocks.blockSize realTensor
              blocks.depth blocks.space))
          source target)
        target' place =
      source place := by
  obtain ⟨n, c, y, x, ⟨nLess, cLess, yLess, xLess⟩, isPlace⟩ :=
    exists_position dimensionFormat inside
  obtain ⟨index, isIndex, isCell⟩ := exists_depthCell mode
    (mem_cells.mpr ⟨⟨nLess, cLess⟩, yLess, xLess⟩)
  have isMove := mem_map_of_mem
    (f := blocks.placeAt dimensionFormat mode) isIndex
  have isFirst : positionOf dimensionFormat blocks.depth (blocks.depthCell mode index) = place := by
    rw [isCell]
    exact isPlace
  rw [placeAt, isFirst] at isMove
  have once := (@right_depthToSpace dimensionFormat mode blocks realTensor).once
  have areMoves := movesOf_regionsOf dimensionFormat mode blocks realTensor
  rw [onCompute, areMoves] at once
  have isNodup := once.nodup_iff.mpr (nodup_range.map Nat.cast_injective)
  rw [movesOf_spaceToDepth, onCompute, areMoves]
  exact copyAll_back (fun other cell isThere isOther =>
    congrArg Prod.fst (inj_on_of_nodup_map isNodup isOther isThere rfl)) isMove

end Blocks

/-! ## Computed sizes -/

variable {blockSize batch channel height width : Nat} {output : Shape}

theorem dvd_of_tmod {length block : Nat} (divides : (length : Int).tmod block = 0) :
    ∃ count, length = count * block := by
  obtain ⟨count, rfl⟩ := Int.natCast_dvd_natCast.mp (Int.dvd_of_tmod_eq_zero divides)
  exact ⟨count, Nat.mul_comm ..⟩

theorem tdiv_block {count block : Nat} (positive : 0 < block) :
    ((count * block : Nat) : Int).tdiv block = count := by
  rw [Nat.cast_mul]
  exact Int.mul_tdiv_cancel _ (by exact_mod_cast positive.ne')

theorem of_depthToSpaceSize (isSize : depthToSpaceSize blockSize
    (spaceOf batch channel height width) = some output) :
    ∃ channel', channel = channel' * (blockSize * blockSize) ∧ 0 < blockSize ∧
      output = Blocks.space ⟨blockSize, batch, channel', height, width⟩ := by
  unfold depthToSpaceSize at isSize
  split at isSize
  case isTrue fits =>
    obtain ⟨positive, divides⟩ := fits
    obtain ⟨channel', rfl⟩ := @dvd_of_tmod channel (blockSize * blockSize) divides
    have isChannel := @tdiv_block channel' _ (Nat.mul_pos positive positive)
    refine ⟨channel', rfl, positive, (Option.some.inj isSize).symm.trans ?_⟩
    simp only [Blocks.space, spaceOf, Shape.mk.injEq, true_and]
    exact ⟨isChannel, by push_cast; trivial⟩
  case isFalse => cases isSize

theorem of_spaceToDepthSize (isSize : spaceToDepthSize blockSize
    (spaceOf batch channel height width) = some output) :
    ∃ height' width', height = height' * blockSize ∧ width = width' * blockSize ∧
      output = Blocks.depth ⟨blockSize, batch, channel, height', width'⟩ := by
  unfold spaceToDepthSize at isSize
  split at isSize
  · cases isSize
  split at isSize
  · cases isSize
  rename_i notZero divisible
  rw [not_or, not_not, not_not] at divisible
  obtain ⟨height', rfl⟩ := dvd_of_tmod divisible.1
  obtain ⟨width', rfl⟩ := dvd_of_tmod divisible.2
  have positive := Nat.pos_of_ne_zero notZero
  refine ⟨height', width', rfl, rfl, (Option.some.inj isSize).symm.trans ?_⟩
  simp only [Blocks.depth, spaceOf, Shape.mk.injEq, true_and]
  exact ⟨by push_cast; rfl, tdiv_block positive, tdiv_block positive⟩

theorem spaceToDepthSize_space (positive : 0 < blockSize) :
    spaceToDepthSize blockSize (Blocks.space ⟨blockSize, batch, channel, height, width⟩) =
      some (Blocks.depth ⟨blockSize, batch, channel, height, width⟩) := by
  have divisible (count : Nat) : ((count * blockSize : Nat) : Int).tmod blockSize = 0 := by
    rw [Nat.cast_mul]
    exact Int.mul_tmod_left ..
  unfold spaceToDepthSize
  rw [if_neg positive.ne', if_neg]
  · simp only [Blocks.space, spaceOf, Blocks.depth, tdiv_block positive]
    push_cast
    rfl
  · rw [not_or, not_not, not_not]
    exact ⟨divisible height, divisible width⟩

end Mnn.Geometry.DepthToSpace
