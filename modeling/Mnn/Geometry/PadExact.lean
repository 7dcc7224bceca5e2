import Mnn.Geometry.PadRegions

/-!
# What padding writes

Joined axes have the same places as the axes that they are made of.  So what is not inside
is written as long as no outer axis is padded.
-/

variable {mode : PadValueMode} {axes : List Axis} {value : Option PadValue}

namespace Mnn.Geometry.Pad

open Mnn.Core.Raster
open Mnn.Foundation.LoopNests
open Mnn.Foundation.MarkedMoves
open List
open Function
open Nat

/-! ## Joined axes -/

/-- An axis that keeps its length. -/
def keptAxis (length : Nat) : Axis := ⟨length, 0, 0⟩

theorem eq_keptAxis {axis : Axis} (kept : axis.output = axis.input) :
    axis = keptAxis axis.input := by
  rw [Axis.output] at kept
  obtain ⟨input, pad, padRight⟩ := axis
  obtain rfl : pad = 0 := by
    have isSame : input + pad + padRight = input := kept
    omega
  obtain rfl : padRight = 0 := by
    have isSame : input + 0 + padRight = input := kept
    omega
  rfl

/-- `seperate`, on padded axes. -/
def seperateAxes : Nat → List Axis → List Axis
  | current, [] => if current ≠ 1 then [keptAxis current] else []
  | current, axis :: axes =>
    if axis.input ≠ axis.output then
      (if 1 < current then [keptAxis current] else []) ++ axis :: seperateAxes 1 axes
    else
      seperateAxes (current * axis.input) axes

theorem seperate_toOffset (current : Nat) (axes : List Axis) :
    seperate current current (axes.map Axis.toOffset) =
      (seperateAxes current axes).map Axis.toOffset := by
  induction axes generalizing current with
  | nil =>
    show (if current ≠ 1 ∨ current ≠ 1 then _ else _) = _
    simp only [or_self, seperateAxes]
    split
    · rfl
    · rfl
  | cons axis axes ih =>
    rw [map_cons, seperate, seperateAxes]
    by_cases isPadded : axis.input ≠ axis.output
    · rw [if_pos isPadded, if_pos (show axis.toOffset.outputDim ≠ axis.toOffset.inputDim from
        isPadded), ih, map_append, map_cons]
      congr 1
      split
      · rfl
      · rfl
    · have isSame : axis.toOffset.inputDim = axis.input := (not_not.mp isPadded).symm
      rw [if_neg isPadded, if_neg (show ¬axis.toOffset.outputDim ≠ axis.toOffset.inputDim from
        isPadded), isSame]
      exact ih _

/-- All places of the output. -/
def whole (mode : PadValueMode) (axes : List Axis) : List Move :=
  cross ((placed axes).map (Placed.moves mode))

section

variable (mode : PadValueMode)

theorem whole_cons (axis : Axis) (axes : List Axis) :
    whole mode (axis :: axes) = (Placed.moves mode
            ⟨axis, (axes.map Axis.input).prod, (axes.map Axis.output).prod⟩).flatMap
        fun move => (whole mode axes).map move.join :=
  rfl

theorem moves_keptAxis (length inputStride outputStride : Nat) :
    Placed.moves mode ⟨keptAxis length, inputStride, outputStride⟩ =
      (List.range length).map fun (i : Nat) =>
        ⟨i * inputStride, i * outputStride, true⟩ := by
  refine map_congr_left fun i isIn => ?_
  have less : i < length := mem_range.mp isIn
  have isPosition : (keptAxis length).position mode i = i := by
    have isPlace : (i : Int) - (keptAxis length).pad = i := Int.sub_zero _
    have isLength : (keptAxis length).input = length := rfl
    simp only [Axis.position, isPlace, isLength]
    rw [if_neg (by omega), if_neg (by omega)]
  have isInside : (keptAxis length).inside i = true :=
    decide_eq_true ⟨zero_le _, (zero_add length).symm ▸ less⟩
  rw [Placed.move, isPosition, isInside]

theorem whole_unit (axes : List Axis) :
    whole mode (keptAxis 1 :: axes) = whole mode axes := by
  have isSame : neutral.join = id := funext neutral_join
  rw [whole_cons, moves_keptAxis]
  show ([⟨(0 : Nat) * _, (0 : Nat) * _, true⟩] : List Move).flatMap _ = _
  rw [flatMap_singleton, Int.natCast_zero, Int.zero_mul, Int.zero_mul]
  show (whole mode axes).map neutral.join = _
  rw [isSame, map_id]

theorem whole_join (outer inner : Nat) (axes : List Axis) :
    whole mode (keptAxis outer :: keptAxis inner :: axes) =
      whole mode (keptAxis (outer * inner) :: axes) := by
  rw [whole_cons, whole_cons, whole_cons, moves_keptAxis, moves_keptAxis, moves_keptAxis,
    range_mul, map_flatMap, flatMap_assoc, flatMap_map]
  congr 1
  funext i
  rw [map_flatMap, flatMap_map, flatMap_map, flatMap_map]
  congr 1
  funext j
  rw [map_map]
  refine map_congr_left fun move _ => ?_
  rw [comp_apply, ← join_assoc]
  refine congrArg (fun first : Move => first.join move) ?_
  simp only [Move.join, Bool.and_self, map_cons, prod_cons, keptAxis, Axis.output,
    Move.mk.injEq, and_true]
  push_cast
  constructor
  · ring
  · ring

theorem whole_congr (axis : Axis) {first second : List Axis}
    (sameInput : (first.map Axis.input).prod = (second.map Axis.input).prod)
    (sameOutput : (first.map Axis.output).prod = (second.map Axis.output).prod)
    (same : whole mode first = whole mode second) :
    whole mode (axis :: first) = whole mode (axis :: second) := by
  rw [whole_cons, whole_cons, sameInput, sameOutput, same]

/-- Joined axes have the places of the axes that they are made of. -/
theorem whole_seperateAxes {current : Nat} (positive : 0 < current)
    (areLong : ∀ axis ∈ axes, axis.input ≠ 0) :
    ((seperateAxes current axes).map Axis.input).prod = current * (axes.map Axis.input).prod ∧
      ((seperateAxes current axes).map Axis.output).prod = current * (axes.map Axis.output).prod ∧
        whole mode (seperateAxes current axes) = whole mode (keptAxis current :: axes) := by
  induction axes generalizing current with
  | nil =>
    rw [seperateAxes]
    split
    · exact ⟨rfl, rfl, rfl⟩
    · rename_i isOne
      obtain rfl := not_not.mp isOne
      exact ⟨rfl, rfl, (whole_unit mode []).symm⟩
  | cons axis axes ih =>
    rw [forall_mem_cons] at areLong
    rw [seperateAxes]
    by_cases isPadded : axis.input ≠ axis.output
    · rcases ih one_pos areLong.2 with ⟨inputs, outputs, isWhole⟩
      rw [one_mul] at inputs outputs
      rw [whole_unit] at isWhole
      have behind := whole_congr mode axis inputs outputs isWhole
      rw [if_pos isPadded]
      split
      · refine ⟨?_, ?_, whole_congr mode (keptAxis current) ?_ ?_ behind⟩
        · simp only [singleton_append, map_cons, prod_cons, inputs]
          rfl
        · simp only [singleton_append, map_cons, prod_cons, outputs]
          rfl
        · show (List.map Axis.input (axis :: seperateAxes 1 axes)).prod = _
          rw [map_cons, map_cons, prod_cons, prod_cons, inputs]
        · show (List.map Axis.output (axis :: seperateAxes 1 axes)).prod = _
          rw [map_cons, map_cons, prod_cons, prod_cons, outputs]
      · rename_i notMore
        obtain rfl : current = 1 := by omega
        rw [nil_append, whole_unit, one_mul, one_mul]
        refine ⟨?_, ?_, behind⟩
        · rw [map_cons, map_cons, prod_cons, prod_cons, inputs]
        · rw [map_cons, map_cons, prod_cons, prod_cons, outputs]
    · have isKept : axis.output = axis.input := (not_not.mp isPadded).symm
      have positive' : 0 < current * axis.input :=
        mul_pos positive (pos_of_ne_zero areLong.1)
      rcases ih positive' areLong.2 with ⟨inputs, outputs, isWhole⟩
      rw [if_neg isPadded]
      refine ⟨?_, ?_, ?_⟩
      · rw [inputs, map_cons, prod_cons, mul_assoc]
      · rw [outputs, map_cons, prod_cons, isKept, mul_assoc]
      · rw [isWhole, ← whole_join, ← eq_keptAxis isKept]

end

theorem whole_kept (mode : PadValueMode)
    (kept : ∀ axis ∈ axes, axis.output = axis.input) (current : Nat) :
    whole mode (keptAxis current :: axes) =
      whole mode [keptAxis (current * (axes.map Axis.input).prod)] := by
  induction axes generalizing current with
  | nil => rw [map_nil, prod_nil, mul_one]
  | cons axis axes ih =>
    rw [forall_mem_cons] at kept
    have isKept := eq_keptAxis kept.1
    rw [isKept, whole_join, ih kept.2, map_cons, prod_cons, mul_assoc]
    rfl

/-! ## What is asked for -/

/-- What is asked for at a place of the output. -/
def askedMove (filled : Bool) (input : TensorPtr) (mode : PadValueMode)
    (value : Option PadValue) (move : Move) : List (Source × Int) :=
  if mode ≠ .CONSTANT ∨ move.marked = true then [((some input, move.left), move.right)]
  else if filled = true ∧ isZeroFilled mode value then []
  else [((value.map PadValue.tensor, 0), move.right)]

theorem joined_placed (mode : PadValueMode) {index : List Nat}
    (sameLength : index.length = axes.length) :
    joined (Placed.move mode) (placed axes) index =
      ⟨sourceOf mode axes index, address (axes.map Axis.output) index, isInside axes index⟩ := by
  induction axes generalizing index with
  | nil =>
    obtain rfl := eq_nil_of_length_eq_zero sameLength
    rfl
  | cons axis axes ih =>
    cases index with
    | nil => cases sameLength
    | cons place index =>
      rw [placed, joined, ih (succ.inj sameLength)]
      rfl

theorem asked_eq (filled : Bool) (input : TensorPtr) (mode : PadValueMode)
    (value : Option PadValue) (axes : List Axis) :
    ((boxIndices (axes.map Axis.output)).flatMap fun index =>
        (asked filled input mode value axes index).map fun source =>
          (source, address (axes.map Axis.output) index)) =
      (whole mode axes).flatMap (askedMove filled input mode value) := by
  have areOutputs : (placed axes).map (fun axis => axis.axis.output) = axes.map Axis.output := by
    calc
      _ = ((placed axes).map Placed.axis).map Axis.output := map_map.symm
      _ = _ := by rw [axis_placed]
  rw [whole, moves_eq_cross, areOutputs, flatMap_map]
  refine flatMap_congr fun index isIn => ?_
  have sameLength : index.length = axes.length := by
    rw [length_of_mem_boxIndices isIn, length_map]
  rw [joined_placed mode sameLength, asked, askedMove]
  split
  · rfl
  · split
    · rfl
    · rfl

/-- What is marked is asked for as it is, and what is not as it is filled. -/
theorem asked_perm (filled : Bool) (input : TensorPtr) (mode : PadValueMode)
    (value : Option PadValue) (moves : List Move) :
    (moves.flatMap (askedMove filled input mode value)).Perm
      ((moves.filter Move.marked).map (fun move => ((some input, move.left), move.right)) ++
        (moves.filter fun move => !move.marked).flatMap (askedMove filled input mode value)) := by
  have areMarked :
      (moves.filter Move.marked).flatMap (askedMove filled input mode value) =
        (moves.filter Move.marked).map
          fun move => (((some input, move.left), move.right) : Source × Int) := by
    rw [map_eq_flatMap]
    refine flatMap_congr fun move isIn => ?_
    exact if_pos (Or.inr (mem_filter.mp isIn).2)
  rw [← areMarked, ← flatMap_append]
  exact ((filter_append_perm Move.marked moves).symm).flatMap_right _

theorem length_asked {filled : Bool} {input : TensorPtr}
    (notFilled : ¬(filled = true ∧ isZeroFilled mode value)) (moves : List Move) :
    (moves.flatMap (askedMove filled input mode value)).length = moves.length := by
  induction moves with
  | nil => rfl
  | cons move moves ih =>
    have isOne : (askedMove filled input mode value move).length = 1 := by
      rw [askedMove, if_neg notFilled]
      split
      · rfl
      · rfl
    rw [flatMap_cons, length_append, ih, isOne, length_cons, add_comm]

/-! ## Unpadded outer axes -/

theorem padInputOf_eq_none (input : TensorPtr) (zeros : isZeroFilled mode value) :
    padInputOf mode input value = none := by
  rw [padInputOf, if_pos zeros.1]
  cases value with
  | none => rfl
  | some value =>
    rw [Option.bind_some, if_pos (zeros.2 value rfl)]

theorem exists_padInputOf
    (filled : Bool) (input : TensorPtr) (notZeros : ¬isZeroFilled mode value) :
    ∃ padInput, padInputOf mode input value = some padInput ∧ ∀ move : Move, move.marked = false →
            askedMove filled input mode value move =
              [((some padInput.1, if padInput.2 = 0 then 0 else move.left), move.right)] := by
  by_cases isConstant : mode = .CONSTANT
  · subst isConstant
    cases value with
    | none => exact absurd ⟨rfl, fun given isIn => absurd isIn (by simp)⟩ notZeros
    | some value =>
      have notZero : value.zero ≠ true := fun isZero =>
        notZeros ⟨rfl, fun given isIn => Option.some.inj isIn ▸ isZero⟩
      refine ⟨(value.tensor, 0), ?_, fun move notMarked => ?_⟩
      · rw [padInputOf, if_pos rfl, Option.bind_some, if_neg notZero]
      · rw [askedMove, notMarked, if_neg (by simp), if_neg fun zeros => notZeros zeros.2]
        rfl
  · refine ⟨(input, 1), if_neg isConstant, fun move notMarked => ?_⟩
    rw [askedMove, if_pos (Or.inl isConstant)]
    rfl

theorem triedMove_kept (mode : PadValueMode) {axis : Placed}
    (kept : axis.axis.output = axis.axis.input) :
    (List.range axis.axis.output).map (triedMove mode axis) = axis.moves mode := by
  refine map_congr_left fun cord isIn => ?_
  have less : cord < axis.axis.output := mem_range.mp isIn
  obtain ⟨axis, inputStride, outputStride⟩ := axis
  have isKept : axis = keptAxis axis.input := eq_keptAxis kept
  rw [isKept] at less ⊢
  have less : cord < axis.input := less
  have isOffset : (Placed.padAxis ⟨keptAxis axis.input, inputStride, outputStride⟩).offset = 0 :=
    rfl
  have isDim :
      (Placed.padAxis ⟨keptAxis axis.input, inputStride, outputStride⟩).inputDim =
        axis.input :=
    rfl
  have isPad : (keptAxis axis.input).pad = 0 := rfl
  have isInput : (keptAxis axis.input).input = axis.input := rfl
  rw [triedMove, Placed.move, Move.mk.injEq]
  refine ⟨?_, rfl, rfl⟩
  simp only [inputPos, Axis.position, isOffset, isDim, isPad, isInput, Int.sub_zero, cast_zero]
  rw [if_neg (by omega), if_neg (by omega), if_neg (by omega), if_neg (by omega)]

theorem marked_kept {axes : List Placed}
    (kept : ∀ axis ∈ axes, axis.axis.output = axis.axis.input) {move : Move}
    (isIn : move ∈ cross (axes.map (Placed.moves mode))) : move.marked = true := by
  refine marked_of_mem_cross (fun moves isAxis move isMove => ?_) isIn
  rcases mem_map.mp isAxis with ⟨axis, isIn, rfl⟩
  have isKept := eq_keptAxis (kept axis isIn)
  obtain ⟨axis, inputStride, outputStride⟩ := axis
  have isKept : axis = keptAxis axis.input := isKept
  rw [isKept, moves_keptAxis] at isMove
  rcases mem_map.mp isMove with ⟨i, -, rfl⟩
  rfl

theorem writesOf_center_eq (mode : PadValueMode) (input : TensorPtr) (axes : List Placed) :
    writesOf ((offsetRegions input (axes.map Placed.strided)).map revertRegion) =
      ((cross (axes.map (Placed.moves mode))).filter Move.marked).map fun move =>
        ((some input, move.left), move.right) := by
  rw [writesOf_center, filter_cross, map_map]
  refine congrArg (fun axes => (cross axes).map _) (map_congr_left fun axis _ => ?_)
  exact (filter_moves mode axis).symm

/-- Where no outer axis is padded, all that is not inside is written. -/
theorem sides_kept (padInput : TensorPtr) (sStrideDiff : Int)
    {axes : List Placed} (permitted : ∀ axis ∈ axes, axis.axis.Permitted mode)
    (kept : ∀ axis ∈ axes.take (axes.length - 3), axis.axis.output = axis.axis.input) :
    (writesOf (padRegions mode padInput sStrideDiff (axes.map Placed.padAxis))).Perm
      (((cross (axes.map (Placed.moves mode))).filter fun move => !move.marked).map
        fun move =>
          ((some padInput, if sStrideDiff = 0 then 0 else move.left), move.right)) := by
  refine (writesOf_padRegions padInput sStrideDiff permitted).trans (List.Perm.of_eq ?_)
  have isWhole := take_append_drop (axes.length - 3) axes
  generalize axes.take (axes.length - 3) = outer at isWhole kept
  generalize axes.drop (axes.length - 3) = inner at isWhole
  subst isWhole
  have areOuter :
      (outer.map fun axis => (List.range axis.axis.output).map (triedMove mode axis)) =
        outer.map (Placed.moves mode) :=
    map_congr_left fun axis isIn => triedMove_kept mode (kept axis isIn)
  rw [areOuter, map_append, cross_append, filter_flatMap, map_flatMap]
  refine flatMap_congr fun outside isIn => ?_
  have isMarked := marked_kept kept isIn
  rw [filter_map, map_map]
  have sameFilter :
      (fun move : Move => !move.marked) ∘ outside.join = fun move => !move.marked := by
    funext move
    simp [Move.join, isMarked]
  rw [sameFilter]
  rfl

/-! ## Exactness -/

/-- The axes that are enumerated. -/
def outerAxes (axes : List Axis) : List OffsetAxis :=
  let seperated := seperate 1 1 (axes.map Axis.toOffset)
  seperated.take (seperated.length - 3)

/--
Zeros may be left out, or there is no output; or there is an input, and nothing is put
around it, or a value that is not a zero, and none of it on an axis that is enumerated.
-/
def Covered (filled : Bool) (mode : PadValueMode) (value : Option PadValue)
    (axes : List Axis) : Prop :=
  (filled = true ∧ isZeroFilled mode value) ∨ (∃ axis ∈ axes, axis.output = 0) ∨
    (∀ axis ∈ axes, axis.input ≠ 0) ∧ ((∀ axis ∈ axes, axis.output = axis.input) ∨
        ¬isZeroFilled mode value ∧ ∀ axis ∈ outerAxes axes, axis.outputDim = axis.inputDim)

theorem length_whole (mode : PadValueMode) (axes : List Axis) :
    (whole mode axes).length = (axes.map Axis.output).prod := by
  have areLengths :
      ((placed axes).map (Placed.moves mode)).map List.length =
        axes.map Axis.output := by
    calc
      _ = ((placed axes).map Placed.axis).map Axis.output := by
        rw [map_map, map_map]
        refine map_congr_left fun axis _ => ?_
        rw [comp_apply, Placed.moves, length_map, length_range]
        rfl
      _ = _ := by rw [axis_placed]
  rw [whole, length_cross, areLengths]

theorem not_marked_of_empty (hasEmpty : ∃ axis ∈ axes, axis.input = 0) {move : Move}
    (isIn : move ∈ whole mode axes) : move.marked = false := by
  rcases hasEmpty with ⟨axis, isAxis, isEmpty⟩
  rw [← axis_placed axes] at isAxis
  rcases mem_map.mp isAxis with ⟨axis, isPlaced, rfl⟩
  refine not_marked_of_mem_cross ⟨_, mem_map_of_mem isPlaced, fun move isMove => ?_⟩ isIn
  rcases mem_map.mp isMove with ⟨place, -, rfl⟩
  exact decide_eq_false (by omega)

section

variable {filled : Bool} {input : TensorPtr} {inputRegions : Option (List Region)}
  {mode : PadValueMode} {value : Option PadValue} {axes : List Axis}

theorem exact_empty_iff (hasEmpty : ∃ axis ∈ axes, axis.input = 0) :
    Exact filled [] input inputRegions mode value axes ↔ Covered filled mode value axes := by
  have notLong : ¬∀ axis ∈ axes, axis.input ≠ 0 := by
    rcases hasEmpty with ⟨axis, isIn, isEmpty⟩
    exact fun areLong => areLong axis isIn isEmpty
  rw [Exact, asked_eq, Covered]
  constructor
  · rintro (⟨-, kept⟩ | isPerm)
    · rcases hasEmpty with ⟨axis, isIn, isEmpty⟩
      exact Or.inr (Or.inl ⟨axis, isIn, (kept axis isIn).trans isEmpty⟩)
    · by_cases zeros : filled = true ∧ isZeroFilled mode value
      · exact Or.inl zeros
      · have isNone := isPerm.length_eq
        rw [length_asked zeros, length_whole] at isNone
        rcases mem_map.mp (prod_eq_zero_iff.mp isNone.symm) with
          ⟨axis, isIn, isEmpty⟩
        exact Or.inr (Or.inl ⟨axis, isIn, isEmpty⟩)
  · rintro (zeros | ⟨axis, isIn, isEmpty⟩ | ⟨areLong, -⟩)
    · have noneAsked : (whole mode axes).flatMap (askedMove filled input mode value) = [] := by
        refine flatMap_eq_nil_iff.mpr fun move isIn => ?_
        rw [askedMove, not_marked_of_empty hasEmpty isIn, if_neg (by simp [zeros.2.1]),
          if_pos zeros]
      rw [noneAsked]
      exact Or.inr (.refl _)
    · have noPlace : whole mode axes = [] := by
        refine eq_nil_of_length_eq_zero ?_
        rw [length_whole]
        exact prod_eq_zero_iff.mpr (mem_map.mpr ⟨axis, isIn, isEmpty⟩)
      rw [noPlace]
      exact Or.inr (.refl _)
    · exact absurd areLong notLong

theorem exact_kept (kept : ∀ axis ∈ axes, axis.output = axis.input) :
    Exact filled (inputRegions.getD [makeFullSlice input (axes.map Axis.input)]) input
      inputRegions mode value axes := by
  cases inputRegions with
  | some regions => exact Or.inl ⟨rfl, kept⟩
  | none =>
    refine Or.inr (List.Perm.of_eq ?_)
    have isWhole : whole mode axes = whole mode [keptAxis (axes.map Axis.input).prod] := by
      rw [← whole_unit, whole_kept mode kept, one_mul]
    rw [asked_eq, isWhole, whole_cons, moves_keptAxis, Option.getD_none, writesOf,
      flatMap_singleton, moves_makeFullSlice, nest, map_flatMap,
      flatMap_map, flatMap_assoc]
    refine flatMap_congr fun i _ => ?_
    show [((_, _), _)] = List.flatMap _ [Move.join _ neutral]
    rw [flatMap_singleton, join_neutral, askedMove, if_pos (Or.inr rfl)]
    rfl

end

section Padded

variable {filled : Bool} {input : TensorPtr} {inputRegions : Option (List Region)}
  {mode : PadValueMode} {value : Option PadValue} {axes : List Axis}

theorem mem_of_mem_placed {axis : Placed} (isIn : axis ∈ placed axes) :
    axis.axis ∈ axes := by
  rw [← axis_placed axes]
  exact mem_map_of_mem isIn

theorem permitted_seperateAxes {current : Nat} (positive : 0 < current)
    (areLong : ∀ axis ∈ axes, axis.input ≠ 0) (permitted : ∀ axis ∈ axes, axis.Permitted mode) :
    ∀ axis ∈ seperateAxes current axes, axis.Permitted mode := by
  have isKept {length : Nat} (positive : 0 < length) : (keptAxis length).Permitted mode := by
    cases mode with
    | CONSTANT => trivial
    | REFLECT => exact ⟨positive, positive⟩
    | SYMMETRIC => exact ⟨zero_le _, zero_le _⟩
    | EDGE => trivial
  induction axes generalizing current with
  | nil =>
    intro axis isIn
    rw [seperateAxes] at isIn
    split at isIn
    · obtain rfl := mem_singleton.mp isIn
      exact isKept positive
    · cases isIn
  | cons axis axes ih =>
    rw [forall_mem_cons] at areLong permitted
    intro axis' isIn
    rw [seperateAxes] at isIn
    split at isIn
    · rcases mem_append.mp isIn with isIn | isIn
      · split at isIn
        · obtain rfl := mem_singleton.mp isIn
          exact isKept positive
        · cases isIn
      · rcases mem_cons.mp isIn with rfl | isIn
        · exact permitted.1
        · exact ih one_pos areLong.2 permitted.2 axis' isIn
    · exact ih (mul_pos positive (pos_of_ne_zero areLong.1)) areLong.2
        permitted.2 axis' isIn

/-- What is enumerated is padded where one of the first axes is. -/
theorem outer_kept_iff (axes : List Axis) :
    (∀ axis ∈ outerAxes axes, axis.outputDim = axis.inputDim) ↔
      ∀ axis ∈ (placed (seperateAxes 1 axes)).take ((placed (seperateAxes 1 axes)).length - 3),
        axis.axis.output = axis.axis.input := by
  have isOuter : outerAxes axes = ((placed (seperateAxes 1 axes)).take
            ((placed (seperateAxes 1 axes)).length - 3)).map
          fun axis => axis.axis.toOffset := by
    have isPlaced := axis_placed (seperateAxes 1 axes)
    have isLength : (placed (seperateAxes 1 axes)).length = (seperateAxes 1 axes).length := by
      rw [← length_map Placed.axis, isPlaced]
    rw [outerAxes, seperate_toOffset, length_map, ← map_take, isLength]
    calc
      _ = (((placed (seperateAxes 1 axes)).map Placed.axis).take
              ((seperateAxes 1 axes).length - 3)).map
            Axis.toOffset := by
        rw [isPlaced]
      _ = _ := by
        rw [← map_take, map_map]
        rfl
  rw [isOuter, forall_mem_map]
  exact ⟨fun kept axis isIn => (kept axis isIn).symm, fun kept axis isIn => (kept axis isIn).symm⟩

theorem exists_unmarked_placed {axes : List Placed} (areLong : ∀ axis ∈ axes, axis.axis.input ≠ 0)
    (isPadded : ∃ axis ∈ axes, axis.axis.output ≠ axis.axis.input) :
    0 < ((cross (axes.map (Placed.moves mode))).filter fun move => !move.marked).length := by
  have noneEmpty : ∀ moves ∈ axes.map (Placed.moves mode), moves ≠ [] := by
    intro moves isIn isEmpty
    rcases mem_map.mp isIn with ⟨axis, isAxis, rfl⟩
    have isNone := congrArg List.length isEmpty
    rw [Placed.moves, length_map, length_range, Axis.output] at isNone
    exact areLong axis isAxis (by
      have isNone : axis.axis.input + axis.axis.pad + axis.axis.padRight = 0 := isNone
      omega)
  rcases isPadded with ⟨axis, isAxis, isPadded⟩
  have hasSide : ∃ move ∈ axis.moves mode, move.marked = false := by
    have isOutput : axis.axis.output = axis.axis.input + axis.axis.pad + axis.axis.padRight :=
      rfl
    by_cases hasLeft : axis.axis.pad = 0
    · refine ⟨axis.move mode axis.axis.input,
        mem_map_of_mem (mem_range.mpr (by omega)), decide_eq_false (by omega)⟩
    · refine ⟨axis.move mode 0,
        mem_map_of_mem (mem_range.mpr (by omega)), decide_eq_false (by omega)⟩
  rcases exists_unmarked noneEmpty ⟨_, mem_map_of_mem isAxis, hasSide⟩ with
    ⟨move, isIn, notMarked⟩
  refine length_pos_of_mem (mem_filter.mpr ⟨isIn, ?_⟩)
  rw [notMarked]
  rfl

theorem exists_marked_placed {axes : List Placed} (areLong : ∀ axis ∈ axes, axis.axis.input ≠ 0) :
    0 < ((cross (axes.map (Placed.moves mode))).filter Move.marked).length := by
  rw [filter_cross, length_cross]
  refine pos_of_ne_zero fun isZero => ?_
  rcases mem_map.mp (prod_eq_zero_iff.mp isZero) with ⟨moves, isIn, isEmpty⟩
  rcases mem_map.mp isIn with ⟨moves, isMoves, rfl⟩
  rcases mem_map.mp isMoves with ⟨axis, isAxis, rfl⟩
  rw [filter_moves] at isEmpty
  have isEmpty : (centerRun axis).moves.length = 0 := isEmpty
  rw [moves_centerRun, length_map, length_range] at isEmpty
  exact areLong axis isAxis isEmpty

/-- Where something is put around the input, zeros are left out, or no outer axis is
padded. -/
theorem exact_padded_iff (areLong : ∀ axis ∈ axes, axis.input ≠ 0)
    (isPadded : ∃ axis ∈ axes, axis.output ≠ axis.input)
    (permitted : ∀ axis ∈ axes, axis.Permitted mode) :
    Exact filled ((offsetRegions input ((placed (seperateAxes 1 axes)).map Placed.strided)).map
            revertRegion ++
          (padInputOf mode input value).elim [] fun padInput =>
            padRegions mode padInput.1 padInput.2
              ((placed (seperateAxes 1 axes)).map Placed.padAxis))
        input inputRegions mode value axes ↔
      Covered filled mode value axes := by
  have isWhole :
      cross ((placed (seperateAxes 1 axes)).map (Placed.moves mode)) = whole mode axes := by
    rw [← whole_unit mode axes]
    exact (whole_seperateAxes mode one_pos areLong).2.2
  have permitted' : ∀ axis ∈ placed (seperateAxes 1 axes), axis.axis.Permitted mode :=
    fun axis isIn =>
      permitted_seperateAxes one_pos areLong permitted _ (mem_of_mem_placed isIn)
  have hasUnmarked : 0 < ((whole mode axes).filter fun move => !move.marked).length := by
    refine exists_unmarked_placed (fun axis isIn => areLong _ (mem_of_mem_placed isIn)) ?_
    rcases isPadded with ⟨axis, isIn, isPadded⟩
    rw [← axis_placed axes] at isIn
    rcases mem_map.mp isIn with ⟨axis, isPlaced, rfl⟩
    exact ⟨axis, isPlaced, isPadded⟩
  have notKept : ¬∀ axis ∈ axes, axis.output = axis.input := by
    rcases isPadded with ⟨axis, isIn, isPadded⟩
    exact fun kept => isPadded (kept axis isIn)
  have hasOutput : ¬∃ axis ∈ axes, axis.output = 0 := by
    rintro ⟨axis, isIn, isEmpty⟩
    refine areLong axis isIn ?_
    have isNone : axis.input + axis.pad + axis.padRight = 0 := isEmpty
    omega
  have asked := asked_perm filled input mode value (whole mode axes)
  have center := writesOf_center_eq mode input (placed (seperateAxes 1 axes))
  rw [isWhole] at center
  rw [Exact, asked_eq, Covered, writesOf_append, center, or_iff_right fun same => notKept same.2,
    or_iff_right hasOutput, or_iff_right notKept, and_iff_right areLong]
  by_cases zeros : isZeroFilled mode value
  · rw [padInputOf_eq_none input zeros, Option.elim_none, or_iff_left fun other => other.1 zeros]
    show List.Perm (_ ++ []) _ ↔ _
    rw [append_nil]
    constructor
    · intro isPerm
      by_contra notFilled
      have sameLength := (isPerm.trans asked).length_eq
      rw [length_append, length_asked notFilled] at sameLength
      omega
    · intro isFilled
      have noneAsked : ((whole mode axes).filter fun move => !move.marked).flatMap
              (askedMove filled input mode value) = [] := by
        refine flatMap_eq_nil_iff.mpr fun move isIn => ?_
        have notMarked : move.marked = false := by
          simpa using (mem_filter.mp isIn).2
        rw [askedMove, notMarked, if_neg (by simp [zeros.1]), if_pos isFilled]
      rw [noneAsked, append_nil] at asked
      exact asked.symm
  · rcases exists_padInputOf filled input zeros with ⟨padInput, isInput, isAsked⟩
    rw [isInput, Option.elim_some, or_iff_right fun isFilled => zeros isFilled.2,
      and_iff_right zeros, outer_kept_iff]
    constructor
    · intro isPerm
      by_contra notOuter
      push Not at notOuter
      -- what is around on an outer axis, and inside on the last three, is not written
      have sameLength := ((((writesOf_padRegions padInput.1 padInput.2 permitted').symm.append_left
          _).trans isPerm).length_eq)
      rw [length_append, length_map, length_asked fun isFilled => zeros isFilled.2] at sameLength
      have isSplit : (whole mode axes).length = ((whole mode axes).filter Move.marked).length +
            ((whole mode axes).filter fun move => !move.marked).length := by
        rw [← length_append]
        exact (filter_append_perm Move.marked _).length_eq.symm
      have areLong' (axis : Placed) (isIn : axis ∈ placed (seperateAxes 1 axes)) :
          axis.axis.input ≠ 0 := by
        have isProduct := (whole_seperateAxes mode one_pos areLong).1
        rw [one_mul] at isProduct
        intro isEmpty
        have isZero : ((seperateAxes 1 axes).map Axis.input).prod = 0 := prod_eq_zero_iff.mpr
            (mem_map.mpr ⟨axis.axis, mem_of_mem_placed isIn, isEmpty⟩)
        rw [isProduct] at isZero
        rcases mem_map.mp (prod_eq_zero_iff.mp isZero) with
          ⟨axis, isAxis, isEmpty⟩
        exact areLong axis isAxis isEmpty
      have hasOuter := @exists_unmarked_placed mode _
          (fun axis isIn => areLong' axis (mem_of_mem_take isIn)) notOuter
      have hasInner := @exists_marked_placed mode ((placed (seperateAxes 1 axes)).drop
            ((placed (seperateAxes 1 axes)).length - 3))
          fun axis isIn => areLong' axis (mem_of_mem_drop isIn)
      have unmarked := length_unmarked (cross (((placed (seperateAxes 1 axes)).take
              ((placed (seperateAxes 1 axes)).length - 3)).map (Placed.moves mode)))
          (cross (((placed (seperateAxes 1 axes)).drop
              ((placed (seperateAxes 1 axes)).length - 3)).map (Placed.moves mode)))
      rw [← cross_append, ← map_append, take_append_drop, isWhole] at unmarked
      have sameCount : (cross (((placed (seperateAxes 1 axes)).take
                  ((placed (seperateAxes 1 axes)).length - 3)).map fun axis =>
                (List.range axis.axis.output).map (triedMove mode axis))).length =
            (cross (((placed (seperateAxes 1 axes)).take
                ((placed (seperateAxes 1 axes)).length - 3)).map (Placed.moves mode))).length := by
        rw [length_cross, length_cross, map_map, map_map]
        refine congrArg List.prod (map_congr_left fun axis _ => ?_)
        rw [comp_apply, comp_apply, Placed.moves, length_map, length_map]
      have hasMore := mul_pos hasOuter hasInner
      rw [length_flatMap] at sameLength
      simp only [length_map, map_const', sum_replicate, smul_eq_mul, sameCount] at sameLength
      omega
    · intro kept
      have sides := sides_kept padInput.1 padInput.2 permitted' kept
      rw [isWhole] at sides
      refine ((sides.append_left _).trans (List.Perm.of_eq ?_)).trans asked.symm
      refine congrArg _ ?_
      rw [map_eq_flatMap]
      refine flatMap_congr fun move isIn => ?_
      exact (isAsked move (by simpa using (mem_filter.mp isIn).2)).symm

end Padded

end Mnn.Geometry.Pad
