import Mnn.Foundation.MarkedMoves
import Mnn.Geometry.Regions

/-!
# Padding

The input lies somewhere in the output: one region copies it there, others fill what is
around it on the last three axes.  Axes that keep their length are joined before.
-/

variable {mode : PadValueMode}

namespace Mnn.Geometry.Pad

open Mnn.Core.Raster
open Mnn.Foundation.LoopNests
open List

/-! ## Offsets -/

/-- One axis of two tensors, and where the second one lies in the first one. -/
structure OffsetAxis where
  inputDim : Nat
  outputDim : Nat
  offset : Int
  rightOffset : Int

/-- Axes of the same length are joined. -/
def seperate : Nat → Nat → List OffsetAxis → List OffsetAxis
  | currentInput, currentOutput, [] =>
    if currentOutput ≠ 1 ∨ currentInput ≠ 1 then [⟨currentInput, currentOutput, 0, 0⟩]
    else []
  | currentInput, currentOutput, axis :: axes =>
    if axis.outputDim ≠ axis.inputDim then
      (if 1 < currentInput then [⟨currentInput, currentOutput, 0, 0⟩] else []) ++
        axis :: seperate 1 1 axes
    else
      seperate (currentInput * axis.inputDim) (currentOutput * axis.outputDim) axes

/-- An axis with the strides of both tensors. -/
structure StridedAxis extends OffsetAxis where
  inputStride : Nat
  outputStride : Nat

def strided (axes : List OffsetAxis) : List StridedAxis := (axes.zip
      ((computeStride (axes.map OffsetAxis.inputDim)).1.zip
        (computeStride (axes.map OffsetAxis.outputDim)).1)).map
    fun axis => ⟨axis.1, axis.2.1, axis.2.2⟩

/-- A sum over axes and coordinates. -/
def sumOver {Axis : Type} (value : Axis → Nat → Int) (axes : List Axis) (cords : List Nat) : Int :=
  (List.zipWith value axes cords).sum

def isValid (outer : List StridedAxis) (cords : List Nat) : Bool :=
  (outer.zip cords).all fun axis =>
    !decide (axis.1.offset + axis.2 < 0) && !decide (axis.2 - axis.1.rightOffset ≥ axis.1.outputDim)

/-- How long the common part of an axis is. -/
def commonSize (axis : StridedAxis) : Int :=
  let size : Int :=
    if axis.offset ≥ 0 then axis.outputDim else axis.outputDim + axis.offset
  if axis.rightOffset < 0 then size + axis.rightOffset else size

def offsetRegion (real : TensorPtr) (outer inner : List StridedAxis) (cords : List Nat) :
    Region :=
  { src :=
      { offset :=
          sumOver (fun axis cord => (cord + axis.offset) * axis.inputStride) outer cords +
            (inner.map fun axis =>
              if axis.offset ≥ 0 then axis.offset * (axis.inputStride : Int) else 0).sum
        stride := lastThree inner.length (inner.map fun axis => (axis.inputStride : Int)) }
    dst :=
      { offset :=
          sumOver (fun axis cord => (cord : Int) * axis.outputStride) outer cords +
            (inner.map fun axis =>
              if axis.offset ≥ 0 then 0
              else -axis.offset * (axis.outputStride : Int)).sum
        stride := lastThree inner.length (inner.map fun axis => (axis.outputStride : Int)) }
    size := lastThree inner.length (inner.map commonSize)
    origin := some real }

/-- One region for all coordinates of the outer axes that are valid. -/
def offsetRegions (real : TensorPtr) (seperated : List StridedAxis) : List Region :=
  let remainDimSize := seperated.length - 3
  let outer := seperated.take remainDimSize
  let inner := seperated.drop remainDimSize
  let remain := computeStride (outer.map fun axis => axis.outputDim)
  let cords := (List.range remain.2).map (unravelIndexHelper remain.1)
  (cords.filter (isValid outer)).map (offsetRegion real outer inner)

/-- The regions, and the axes that they are made of. -/
def computeOffsetRegion (real : TensorPtr) (axes : List OffsetAxis) :
    List Region × List StridedAxis :=
  let seperated := strided (seperate 1 1 axes)
  (offsetRegions real seperated, seperated)

/-! ## Padding -/

inductive PadValueMode
  | CONSTANT
  | REFLECT
  | SYMMETRIC
  | EDGE
  deriving DecidableEq

inductive TypeCode
  | halide_type_int
  | halide_type_uint
  | halide_type_float
  | halide_type_handle
  | halide_type_bfloat
  deriving DecidableEq

/-- The tensor that holds the value; `host` is what its first four bytes are. -/
structure PadValue where
  tensor : TensorPtr
  isMutable : Bool
  deviceId : Nat
  code : TypeCode
  bits : Nat
  host : BitVec 32

/-- Whether the first element is zero, as far as this is looked at. -/
def PadValue.zero (value : PadValue) : Bool :=
  if value.isMutable = false ∧ value.deviceId = 0 then
    match value.code with
    | .halide_type_int | .halide_type_uint =>
      if value.bits = 8 then value.host.setWidth 8 = 0#8
      else if value.bits = 32 then value.host = 0#32
      else false
    | .halide_type_float => value.host = 0x00000000#32 ∨ value.host = 0x80000000#32
    | _ => false
  else
    false

/-- A length of the input, and what is put before and behind. -/
structure Axis where
  input : Nat
  pad : Nat
  padRight : Nat

def Axis.output (axis : Axis) : Nat := axis.input + axis.pad + axis.padRight

/-- `computeOffsetRegion` takes the output for its input. -/
def Axis.toOffset (axis : Axis) : OffsetAxis := ⟨axis.output, axis.input, axis.pad, axis.padRight⟩

/-- A separated axis, seen from the input. -/
structure PadAxis where
  inputDim : Nat
  outputDim : Nat
  offset : Int
  inputStride : Nat
  outputStride : Nat

def StridedAxis.revert (axis : StridedAxis) : PadAxis :=
  ⟨axis.outputDim, axis.inputDim, axis.offset, axis.outputStride, axis.inputStride⟩

/-- Revert region -/
def revertRegion (reg : Region) : Region := { reg with src := reg.dst, dst := reg.src }

def PadAxis.rightPad (axis : PadAxis) : Int := axis.outputDim - axis.inputDim - axis.offset

/-- How many parts an axis has. 0: center, 1: left, 2: right -/
def PadAxis.padRegion (axis : PadAxis) : Nat :=
  1 + (if axis.offset > 0 then 1 else 0) + (if axis.rightPad > 0 then 1 else 0)

/-- What a part of an axis adds to a region. -/
structure Part where
  srcOffset : Int
  dstOffset : Int
  size : Int
  srcStride : Int
  dstStride : Int

def setSize (mode : PadValueMode) (extraSub : Int) (axis : PadAxis) (size : Int) : Int :=
  if mode = .REFLECT ∨ mode = .SYMMETRIC then min size (axis.inputDim - extraSub) else size

/-- center part: dst: start(offset) -> src: 0 -/
def centerPart (axis : PadAxis) : Part :=
  { srcOffset := 0
    dstOffset := axis.offset * axis.outputStride
    size := axis.inputDim
    srcStride := axis.inputStride
    dstStride := axis.outputStride }

/-- left part: dst: 0 -> src: seperateOffsets + extra - 1 -/
def leftPart (mode : PadValueMode) (extraSub : Int) (axis : PadAxis) : Part :=
  let srcPos := if mode = .EDGE then 0 else axis.offset - 1 + extraSub
  { srcOffset := srcPos * axis.inputStride
    dstOffset := 0
    size := setSize mode extraSub axis axis.offset
    srcStride := -axis.inputStride
    dstStride := axis.outputStride }

/-- right part: dst: start + inputDim -> src: inputDim - 1 - extra -/
def rightPart (mode : PadValueMode) (extraSub : Int) (axis : PadAxis) : Part :=
  { srcOffset := (axis.inputDim - 1 - extraSub) * axis.inputStride
    dstOffset := (axis.offset + axis.inputDim) * axis.outputStride
    size := setSize mode extraSub axis axis.rightPad
    srcStride := -axis.inputStride
    dstStride := axis.outputStride }

def partAt (mode : PadValueMode) (extraSub : Int) (axis : PadAxis) (padCord : Nat) : Part :=
  let part :=
    match padCord with
    | 0 => centerPart axis
    | 2 => rightPart mode extraSub axis
    | 1 =>
      -- offset = 0 means right part, offset > 0 means left part
      if axis.offset > 0 then leftPart mode extraSub axis
      else rightPart mode extraSub axis
    | _ => ⟨0, 0, 1, 1, 1⟩
  if padCord ≠ 0 ∧ mode = .EDGE then { part with srcStride := 0 } else part

/-- compute cords for input -/
def inputPos (extraSub : Int) (axis : PadAxis) (cord : Nat) : Int :=
  let inputPos := cord - axis.offset
  -- last -> last - extraSub - 1
  let inputPos :=
    if inputPos ≥ axis.inputDim then
      (axis.inputDim - inputPos) + axis.inputDim - extraSub - 1
    else
      inputPos
  -- -1 -> 0 + extraSub
  if inputPos < 0 then -inputPos + 1 + extraSub else inputPos

def padRegionAt (mode : PadValueMode) (extraSub : Int) (padInput : TensorPtr)
    (sStrideDiff : Int) (outer inner : List PadAxis) (cords padCord : List Nat) : Region :=
  let dstBasicOffset :=
    sumOver (fun axis cord => (cord : Int) * axis.outputStride) outer cords
  let srcBasicOffset :=
    sumOver (fun axis cord => inputPos extraSub axis cord * axis.inputStride) outer cords
  let parts := List.zipWith (partAt mode extraSub) inner padCord
  { src :=
      if sStrideDiff = 0 then
        { offset := 0, stride := ![0, 0, 0] }
      else
        { offset := srcBasicOffset + (parts.map Part.srcOffset).sum
          stride := lastThree parts.length (parts.map Part.srcStride) }
    dst :=
      { offset := dstBasicOffset + (parts.map Part.dstOffset).sum
        stride := lastThree parts.length (parts.map Part.dstStride) }
    size := lastThree parts.length (parts.map Part.size)
    origin := some padInput }

/-- All parts of the last three axes, but not the center of all of them. -/
def padRegions (mode : PadValueMode) (padInput : TensorPtr) (sStrideDiff : Int)
    (axes : List PadAxis) : List Region :=
  let extraSub := if mode = .REFLECT then 1 else 0
  let remainDimSize := axes.length - 3
  let outer := axes.take remainDimSize
  let inner := axes.drop remainDimSize
  let remain := computeStride (outer.map PadAxis.outputDim)
  let padRegionMod := computeStride (inner.map PadAxis.padRegion)
  (List.range remain.2).flatMap fun pos =>
    (List.range (padRegionMod.2 - 1)).map fun index =>
      padRegionAt mode extraSub padInput sStrideDiff outer inner
        (unravelIndexHelper remain.1 pos) (unravelIndexHelper padRegionMod.1 (index + 1))

/-- What is put around the input, and whether its places differ; zeros are left out. -/
def padInputOf (mode : PadValueMode) (input : TensorPtr) (value : Option PadValue) :
    Option (TensorPtr × Int) :=
  if mode = .CONSTANT then
    value.bind fun value => if value.zero then none else some (value.tensor, 0)
  else
    some (input, 1)

/-- `inputRegions` are those of an input that is virtual itself. -/
def onCompute (input : TensorPtr) (inputRegions : Option (List Region))
    (param : Option PadValueMode) (value : Option PadValue) (axes : List Axis) :
    List Region :=
  if axes.any fun axis => axis.input = 0 then
    []
  else if axes.all fun axis => !(decide (axis.pad > 0) || decide (axis.padRight > 0)) then
    inputRegions.getD [makeFullSlice input (axes.map Axis.input)]
  else
    let computed := computeOffsetRegion input (axes.map Axis.toOffset)
    let regions := computed.1.map revertRegion
    let seperated := computed.2.map StridedAxis.revert
    let mode := param.getD .CONSTANT
    regions ++ (padInputOf mode input value).elim [] fun padInput =>
        padRegions mode padInput.1 padInput.2 seperated

/-! ## What padding means -/

/-- The element of the input at a place of the output. -/
def Axis.position (mode : PadValueMode) (axis : Axis) (place : Nat) : Int :=
  let position : Int := place - axis.pad
  if position < 0 then
    match mode with
    | .REFLECT => -position
    | .EDGE => 0
    -- of a constant only what is inside is used
    | .SYMMETRIC | .CONSTANT => -position - 1
  else if position ≥ axis.input then
    match mode with
    | .REFLECT => 2 * (axis.input - 1) - position
    | .EDGE => axis.input - 1
    | .SYMMETRIC | .CONSTANT => 2 * axis.input - 1 - position
  else
    position

def Axis.inside (axis : Axis) (place : Nat) : Bool :=
  decide (axis.pad ≤ place ∧ place < axis.pad + axis.input)

/-- The place of the element in the input. -/
def sourceOf (mode : PadValueMode) : List Axis → List Nat → Int
  | axis :: axes, place :: index =>
    axis.position mode place * ((axes.map Axis.input).prod : Nat) + sourceOf mode axes index
  | _, _ => 0

def isInside (axes : List Axis) (index : List Nat) : Bool :=
  (List.zipWith Axis.inside axes index).all id

/-- How much the mode permits. -/
def Axis.Permitted (mode : PadValueMode) (axis : Axis) : Prop :=
  match mode with
  | .CONSTANT | .EDGE => True
  | .REFLECT => axis.pad + 1 ≤ axis.input ∧ axis.padRight + 1 ≤ axis.input
  | .SYMMETRIC => axis.pad ≤ axis.input ∧ axis.padRight ≤ axis.input

/-- No value is given, or one that is a zero. -/
def isZeroFilled (mode : PadValueMode) (value : Option PadValue) : Prop :=
  mode = .CONSTANT ∧ ∀ given ∈ value, given.zero = true

instance (mode : PadValueMode) (value : Option PadValue) :
    Decidable (isZeroFilled mode value) :=
  inferInstanceAs (Decidable (_ ∧ _))

/-- What is asked for: the element, or the value.  What is not written is zero, so that
a value of zero may be left out if `filled`. -/
def asked (filled : Bool) (input : TensorPtr) (mode : PadValueMode)
    (value : Option PadValue) (axes : List Axis) (index : List Nat) : List Source :=
  if mode ≠ .CONSTANT ∨ isInside axes index = true then
    [(some input, sourceOf mode axes index)]
  else if filled = true ∧ isZeroFilled mode value then
    []
  else
    [(value.map PadValue.tensor, 0)]

/-- Each element of the output is written once, from what is asked for; or the output is
the same as an input that is virtual. -/
def Exact (filled : Bool) (regions : List Region) (input : TensorPtr)
    (inputRegions : Option (List Region)) (mode : PadValueMode) (value : Option PadValue)
    (axes : List Axis) : Prop :=
  (inputRegions = some regions ∧ ∀ axis ∈ axes, axis.output = axis.input) ∨ (writesOf regions).Perm
      ((boxIndices (axes.map Axis.output)).flatMap fun index =>
        (asked filled input mode value axes index).map fun source =>
          (source, address (axes.map Axis.output) index))

/-!
# The parts of a padded axis

Each axis lists the places of the output by its parts: what the input has, what is put
before it, and what is put behind it.  A region takes one part of each axis.
-/

open Mnn.Foundation.MarkedMoves

/-! ## Axes with strides -/

/-- An axis in its place, with the strides of the input and the output. -/
structure Placed where
  axis : Axis
  inputStride : Nat
  outputStride : Nat

def placed : List Axis → List Placed
  | [] => []
  | axis :: axes =>
    ⟨axis, (axes.map Axis.input).prod, (axes.map Axis.output).prod⟩ :: placed axes

def Placed.strided (axis : Placed) : StridedAxis :=
  ⟨axis.axis.toOffset, axis.outputStride, axis.inputStride⟩

def Placed.padAxis (axis : Placed) : PadAxis := axis.strided.revert

theorem strided_toOffset (axes : List Axis) :
    strided (axes.map Axis.toOffset) = (placed axes).map Placed.strided := by
  induction axes with
  | nil => rfl
  | cons axis axes ih =>
    rw [strided, computeStride_eq, computeStride_eq, map_map, map_map] at ih ⊢
    simp only [map_cons, strides, zip_cons_cons]
    rw [ih]
    rfl

theorem axis_placed (axes : List Axis) : (placed axes).map Placed.axis = axes := by
  induction axes with
  | nil => rfl
  | cons axis axes ih => exact congrArg (axis :: ·) ih

/-- Where the places of an axis lie, marked inside of the input. -/
def Placed.move (mode : PadValueMode) (axis : Placed) (place : Nat) : Move :=
  ⟨axis.axis.position mode place * axis.inputStride, place * axis.outputStride,
    axis.axis.inside place⟩

def Placed.moves (mode : PadValueMode) (axis : Placed) : List Move :=
  (List.range axis.axis.output).map (axis.move mode)

/-! ## Parts -/

/-- The run of a part. -/
def Part.run (part : Part) (marked : Bool) : Run :=
  ⟨⟨part.size.toNat, part.srcStride, part.dstStride⟩, part.srcOffset, part.dstOffset, marked⟩

def extraSub (mode : PadValueMode) : Int :=
  if mode = .REFLECT then 1 else 0

/-- The parts of an axis. -/
def Placed.alternatives (mode : PadValueMode) (axis : Placed) : Alternatives :=
  { count := axis.padAxis.padRegion
    moves := fun padCord =>
      ((partAt mode (extraSub mode) axis.padAxis padCord).run (padCord == 0)).moves }

theorem map_range_add (count first : Nat) (move : Nat → Move) :
    (List.range count).map (fun i => move (first + i)) = (List.range' first count).map move := by
  rw [range'_eq_map_range, map_map]
  rfl

theorem range_output (axis : Axis) :
    List.range axis.output = List.range' 0 axis.pad ++ (List.range' axis.pad axis.input ++
          List.range' (axis.pad + axis.input) axis.padRight) := by
  have isOutput : axis.output = axis.pad + (axis.input + axis.padRight) := by
    rw [Axis.output]
    omega
  have inside := @List.range'_append_1 axis.pad axis.input axis.padRight
  have whole := @List.range'_append_1 0 axis.pad (axis.input + axis.padRight)
  rw [Nat.zero_add] at whole
  rw [inside, whole, range_eq_range', isOutput]

theorem moves_center (mode : PadValueMode) (axis : Placed) :
    ((centerPart axis.padAxis).run true).moves =
      (List.range' axis.axis.pad axis.axis.input).map (axis.move mode) := by
  rw [← map_range_add]
  refine map_congr_left fun i isIn => ?_
  have less : i < axis.axis.input := mem_range.mp isIn
  have isPlace : ((axis.axis.pad + i : Nat) : Int) - axis.axis.pad = i := by
    push_cast
    ring
  have isPosition : axis.axis.position mode (axis.axis.pad + i) = i := by
    simp only [Axis.position, isPlace]
    rw [if_neg (by omega), if_neg (by omega)]
  have isInside : axis.axis.inside (axis.axis.pad + i) = true :=
    decide_eq_true ⟨Nat.le_add_right .., Nat.add_lt_add_left less _⟩
  rw [Placed.move, isPosition, isInside, Move.mk.injEq]
  refine ⟨Int.zero_add _, ?_, rfl⟩
  show (axis.axis.pad : Int) * axis.outputStride + i * axis.outputStride = _
  push_cast
  ring

/-- A part at a side; all of an edge has one source. -/
def sidePart (mode : PadValueMode) (part : Part) : Part :=
  if mode = .EDGE then { part with srcStride := 0 } else part

section

variable {mode : PadValueMode} {axis : Placed}

theorem moves_side {part : Part} {first count : Nat}
    (isSize : part.size = count) (isStride : part.dstStride = axis.outputStride)
    (isStart : part.dstOffset = first * axis.outputStride)
    (isSource :
      ∀ i < count, part.srcOffset + i * (sidePart mode part).srcStride =
          axis.axis.position mode (first + i) * axis.inputStride)
    (outside : ∀ i < count, axis.axis.inside (first + i) = false) :
    ((sidePart mode part).run false).moves = (List.range' first count).map (axis.move mode) := by
  have isCount : (sidePart mode part).size = count := by
    rw [sidePart]
    split
    · exact isSize
    · exact isSize
  have sameStart : (sidePart mode part).srcOffset = part.srcOffset := by
    rw [sidePart]
    split
    · rfl
    · rfl
  have isTarget (i : Nat) :
      (sidePart mode part).dstOffset + i * (sidePart mode part).dstStride =
        ((first + i : Nat) : Int) * axis.outputStride := by
    rw [sidePart]
    split
    · show part.dstOffset + i * part.dstStride = _
      rw [isStart, isStride]
      push_cast
      ring
    · rw [isStart, isStride]
      push_cast
      ring
  rw [← map_range_add]
  show (List.range (sidePart mode part).size.toNat).map _ = _
  rw [isCount, Int.toNat_natCast]
  refine map_congr_left fun i isIn => ?_
  have less := mem_range.mp isIn
  rw [Placed.move, ← isSource i less, outside i less, ← isTarget i, ← sameStart]
  rfl

theorem setSize_eq {size : Nat} (fits :
      mode = .REFLECT → size + 1 ≤ axis.axis.input)
    (fits' : mode = .SYMMETRIC → size ≤ axis.axis.input) :
    setSize mode (extraSub mode) axis.padAxis size = size := by
  have isDim : (axis.padAxis.inputDim : Int) = axis.axis.input := rfl
  rw [setSize, extraSub, isDim]
  cases mode with
  | CONSTANT => rfl
  | REFLECT =>
    have less := fits rfl
    rw [if_pos (Or.inl rfl), if_pos rfl]
    omega
  | SYMMETRIC =>
    have less := fits' rfl
    rw [if_pos (Or.inr rfl), if_neg (by decide)]
    omega
  | EDGE => rfl

theorem moves_left (permitted : axis.axis.Permitted mode) :
    ((sidePart mode (leftPart mode (extraSub mode) axis.padAxis)).run false).moves =
      (List.range' 0 axis.axis.pad).map (axis.move mode) := by
  refine moves_side ?_ rfl (Int.zero_mul _).symm (fun i less => ?_) fun i less => ?_
  · refine setSize_eq (fun isMode => ?_) fun isMode => ?_
    · subst isMode
      exact permitted.1
    · subst isMode
      exact permitted.1
  · have isPad : axis.padAxis.offset = axis.axis.pad := rfl
    have isStride : axis.padAxis.inputStride = axis.inputStride := rfl
    have isLess : ((0 + i : Nat) : Int) - axis.axis.pad < 0 := by omega
    simp only [Axis.position]
    rw [if_pos isLess]
    cases mode with
    | CONSTANT =>
      simp only [sidePart, leftPart, extraSub, isPad, isStride, reduceCtorEq, if_false]
      push_cast
      ring
    | REFLECT =>
      simp only [sidePart, leftPart, extraSub, isPad, isStride, reduceCtorEq, if_false, if_true]
      push_cast
      ring
    | SYMMETRIC =>
      simp only [sidePart, leftPart, extraSub, isPad, isStride, reduceCtorEq, if_false]
      push_cast
      ring
    | EDGE =>
      simp only [sidePart, leftPart, if_true]
      ring
  · exact decide_eq_false (by omega)

end

theorem rightPad_padAxis (axis : Placed) : axis.padAxis.rightPad = axis.axis.padRight := by
  show ((axis.axis.output : Nat) : Int) - axis.axis.input - axis.axis.pad = _
  rw [Axis.output]
  omega

theorem moves_right {axis : Placed} (permitted : axis.axis.Permitted mode) :
    ((sidePart mode (rightPart mode (extraSub mode) axis.padAxis)).run false).moves =
      (List.range' (axis.axis.pad + axis.axis.input) axis.axis.padRight).map (axis.move mode) := by
  have isPad : axis.padAxis.offset = axis.axis.pad := rfl
  have isStride : axis.padAxis.inputStride = axis.inputStride := rfl
  have isDim : axis.padAxis.inputDim = axis.axis.input := rfl
  refine moves_side ?_ rfl ?_ (fun i less => ?_) fun i less => ?_
  · show setSize mode (extraSub mode) axis.padAxis axis.padAxis.rightPad = _
    rw [rightPad_padAxis]
    refine setSize_eq (fun isMode => ?_) fun isMode => ?_
    · subst isMode
      exact permitted.2
    · subst isMode
      exact permitted.2
  · show ((axis.axis.pad : Int) + axis.axis.input) * axis.outputStride = _
    push_cast
    ring
  · have notLess : ¬((axis.axis.pad + axis.axis.input + i : Nat) : Int) - axis.axis.pad < 0 := by
      omega
    have isBehind : ((axis.axis.pad + axis.axis.input + i : Nat) : Int) - axis.axis.pad ≥
          axis.axis.input := by
      omega
    simp only [Axis.position]
    rw [if_neg notLess, if_pos isBehind]
    cases mode with
    | CONSTANT =>
      simp only [sidePart, rightPart, extraSub, isDim, isStride, reduceCtorEq, if_false]
      push_cast
      ring
    | REFLECT =>
      simp only [sidePart, rightPart, extraSub, isDim, isStride, reduceCtorEq, if_false, if_true]
      push_cast
      ring
    | SYMMETRIC =>
      simp only [sidePart, rightPart, extraSub, isDim, isStride, reduceCtorEq, if_false]
      push_cast
      ring
    | EDGE =>
      simp only [sidePart, rightPart, extraSub, isDim, isStride, reduceCtorEq, if_false, if_true]
      ring
  · exact decide_eq_false (by omega)

theorem partAt_center (mode : PadValueMode) (extraSub : Int) (axis : PadAxis) :
    partAt mode extraSub axis 0 = centerPart axis := by
  rw [partAt, if_neg fun side => side.1 rfl]

theorem partAt_first {extraSub : Int} {axis : PadAxis} (hasLeft : axis.offset > 0) :
    partAt mode extraSub axis 1 = sidePart mode (leftPart mode extraSub axis) := by
  simp only [partAt, if_pos hasLeft]
  simp [sidePart]

theorem partAt_onlyRight {extraSub : Int} {axis : PadAxis} (noLeft : ¬axis.offset > 0) :
    partAt mode extraSub axis 1 = sidePart mode (rightPart mode extraSub axis) := by
  simp only [partAt, if_neg noLeft]
  simp [sidePart]

theorem partAt_second (mode : PadValueMode) (extraSub : Int) (axis : PadAxis) :
    partAt mode extraSub axis 2 = sidePart mode (rightPart mode extraSub axis) := by
  simp [partAt, sidePart]

theorem all_alternatives {axis : Placed} (permitted : axis.axis.Permitted mode) :
    ((axis.alternatives mode).all).Perm (axis.moves mode) := by
  have isOffset : axis.padAxis.offset = axis.axis.pad := rfl
  have center := moves_center mode axis
  have left := moves_left permitted
  have right := moves_right permitted
  have isWhole :
      axis.moves mode = (List.range' 0 axis.axis.pad).map (axis.move mode) ++
          ((List.range' axis.axis.pad axis.axis.input).map (axis.move mode) ++
            (List.range' (axis.axis.pad + axis.axis.input) axis.axis.padRight).map
              (axis.move mode)) := by
    rw [Placed.moves, range_output, map_append, map_append]
  rw [← center, ← left, ← right] at isWhole
  have atCenter :
      (axis.alternatives mode).moves 0 = ((centerPart axis.padAxis).run true).moves := by
    show ((partAt _ _ _ 0).run _).moves = _
    rw [partAt_center]
    rfl
  have atSecond :
      (axis.alternatives mode).moves 2 =
        ((sidePart mode (rightPart mode (extraSub mode) axis.padAxis)).run false).moves := by
    show ((partAt _ _ _ 2).run _).moves = _
    rw [partAt_second]
    rfl
  have isCount :
      (axis.alternatives mode).count = 1 + (if axis.padAxis.offset > 0 then 1 else 0) +
          if axis.padAxis.rightPad > 0 then 1 else 0 :=
    rfl
  have noRight (isZero : ¬axis.padAxis.rightPad > 0) :
      ((sidePart mode (rightPart mode (extraSub mode) axis.padAxis)).run false).moves = [] := by
    have isNone : axis.axis.padRight = 0 := by
      rw [rightPad_padAxis] at isZero
      omega
    rw [right, isNone]
    rfl
  by_cases hasLeft : axis.padAxis.offset > 0
  · have atFirst :
        (axis.alternatives mode).moves 1 =
          ((sidePart mode (leftPart mode (extraSub mode) axis.padAxis)).run false).moves := by
      show ((partAt _ _ _ 1).run _).moves = _
      rw [partAt_first hasLeft]
      rfl
    rw [if_pos hasLeft] at isCount
    by_cases hasRight : axis.padAxis.rightPad > 0
    · rw [if_pos hasRight] at isCount
      have isAll :
          (axis.alternatives mode).all = (axis.alternatives mode).moves 0 ++
              ((axis.alternatives mode).moves 1 ++ (axis.alternatives mode).moves 2) := by
        rw [Alternatives.all, isCount]
        simp [range_succ]
      rw [isAll, isWhole, atCenter, atFirst, atSecond, ← append_assoc, ← append_assoc]
      exact perm_append_comm.append_right _
    · rw [if_neg hasRight] at isCount
      have isAll :
          (axis.alternatives mode).all =
            (axis.alternatives mode).moves 0 ++ (axis.alternatives mode).moves 1 := by
        rw [Alternatives.all, isCount]
        simp [range_succ]
      rw [isAll, isWhole, atCenter, atFirst, noRight hasRight, append_nil]
      exact perm_append_comm
  · have isNone : axis.axis.pad = 0 := by
      rw [isOffset] at hasLeft
      omega
    have noLeft :
        ((sidePart mode (leftPart mode (extraSub mode) axis.padAxis)).run false).moves =
          [] := by
      rw [left, isNone]
      rfl
    have atFirst :
        (axis.alternatives mode).moves 1 =
          ((sidePart mode (rightPart mode (extraSub mode) axis.padAxis)).run false).moves := by
      show ((partAt _ _ _ 1).run _).moves = _
      rw [partAt_onlyRight hasLeft]
      rfl
    rw [if_neg hasLeft] at isCount
    by_cases hasRight : axis.padAxis.rightPad > 0
    · rw [if_pos hasRight] at isCount
      have isAll :
          (axis.alternatives mode).all =
            (axis.alternatives mode).moves 0 ++ (axis.alternatives mode).moves 1 := by
        rw [Alternatives.all, isCount]
        simp [range_succ]
      rw [isAll, isWhole, atCenter, atFirst, noLeft]
      exact .refl _
    · rw [if_neg hasRight] at isCount
      have isAll : (axis.alternatives mode).all = (axis.alternatives mode).moves 0 := by
        rw [Alternatives.all, isCount]
        simp [range_succ]
      rw [isAll, isWhole, atCenter, noLeft, noRight hasRight, append_nil]
      exact .refl _

theorem filter_moves (mode : PadValueMode) (axis : Placed) :
    (axis.moves mode).filter Move.marked = ((centerPart axis.padAxis).run true).moves := by
  have isSide {first count : Nat} (outside : ∀ i < count, axis.axis.inside (first + i) = false) :
      ((List.range' first count).map (axis.move mode)).filter Move.marked = [] := by
    rw [← map_range_add]
    refine filter_eq_nil_iff.mpr fun move isIn => ?_
    rcases mem_map.mp isIn with ⟨i, isPlace, rfl⟩
    rw [Placed.move, outside i (mem_range.mp isPlace)]
    exact Bool.false_ne_true
  have isCenter :
      ((List.range' axis.axis.pad axis.axis.input).map (axis.move mode)).filter Move.marked =
        (List.range' axis.axis.pad axis.axis.input).map (axis.move mode) := by
    rw [← map_range_add]
    refine filter_eq_self.mpr fun move isIn => ?_
    rcases mem_map.mp isIn with ⟨i, isPlace, rfl⟩
    exact decide_eq_true ⟨Nat.le_add_right .., Nat.add_lt_add_left (mem_range.mp isPlace) _⟩
  have isBefore := @isSide 0 axis.axis.pad fun i less => decide_eq_false (by omega)
  have isBehind := @isSide (axis.axis.pad + axis.axis.input) axis.axis.padRight fun i less =>
      decide_eq_false (by omega)
  rw [Placed.moves, range_output, map_append, map_append, filter_append,
    filter_append, isBefore, isCenter, isBehind, moves_center mode, append_nil]
  rfl

end Mnn.Geometry.Pad
