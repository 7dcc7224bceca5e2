import Mnn.Geometry.Regions

/-!
# Broadcasting

`computeBroadCastDims` computes the shape of what several tensors are broadcast to, and
`broadcastto` the regions for one of them.
-/

variable {inputShape outputShape index : List Nat}

namespace Mnn.Geometry.Broadcast

open Mnn.Core.Raster
open Mnn.Foundation.LoopNests
open List

/-! ## Shapes -/

/-- One axis: `outputDims[i]` and the length of an input there. -/
def mergeDim (outputDim dim1 : Nat) : Option Nat :=
  if dim1 ≠ outputDim ∧ dim1 ≠ 1 ∧ outputDim ≠ 1 then
    none
  else if dim1 = outputDim then
    some outputDim
  else if dim1 ≠ outputDim ∧ (dim1 = 1 ∨ outputDim = 1) then
    some (outputDim * dim1)
  else
    none

/-- The last axes of `outputDims`, as many as the input has. -/
def mergeDims (outputDims input1 : List Nat) : Option (List Nat) :=
  let diffDimension := outputDims.length - input1.length
  (((outputDims.drop diffDimension).zip input1).mapM fun dims =>
      mergeDim dims.1 dims.2).map
    (outputDims.take diffDimension ++ ·)

/-- The first input with the most dimensions. -/
def maxIndex (inputs : List (List Nat)) : Nat := ((List.range inputs.length).tail.foldl
    (fun (found : Nat × Nat) index =>
      let dimensions := (inputs.getD index []).length
      if dimensions > found.1 then (dimensions, index) else found)
    ((inputs.getD 0 []).length, 0)).2

def computeBroadCastDims (inputs : List (List Nat)) : Option (List Nat) :=
  (List.range inputs.length).foldlM (fun outputDims index =>
      if index = maxIndex inputs then
        some outputDims
      else
        mergeDims outputDims (inputs.getD index []))
    (inputs.getD (maxIndex inputs) [])

/-! ## Regions -/

/-- The lengths of input and output on one axis. -/
abbrev Lengths : Type := Nat × Nat

/-- The axes of the output, with ones in front of those of the input. -/
def lengthsOf (inputShape outputShape : List Nat) : List Lengths :=
  (List.replicate (outputShape.length - inputShape.length) 1 ++ inputShape).zip outputShape

/-- One pass of the squeezing loop: what is behind a squeezed axis moves up. -/
def squeezePass : List Lengths → List Lengths × Bool
  | axis :: next :: rest =>
    if axis.1 = 1 ∧ next.1 = 1 then
      ((squeezePass ((axis.1, axis.2 * next.2) :: rest)).1, true)
    else
      (axis :: (squeezePass (next :: rest)).1, (squeezePass (next :: rest)).2)
  | axes => (axes, false)
termination_by axes => axes.length

theorem squeezePass_short {axes : List Lengths}
    (notTwo : ∀ axis next rest, axes = axis :: next :: rest → False) :
    squeezePass axes = (axes, false) := by
  match axes, notTwo with
  | [], _ => simp [squeezePass]
  | [axis], _ => simp [squeezePass]
  | axis :: next :: rest, notTwo => exact (notTwo axis next rest rfl).elim

theorem length_squeezePass (axes : List Lengths) :
    (squeezePass axes).1.length ≤ axes.length ∧
      ((squeezePass axes).2 = true → (squeezePass axes).1.length < axes.length) := by
  induction axes using squeezePass.induct with
  | case1 axis next rest isOne ih =>
    rw [squeezePass, if_pos isOne]
    have shorter := ih.1
    simp only [length_cons] at shorter ⊢
    exact ⟨by omega, fun _ => by omega⟩
  | case2 axis next rest notOne ih =>
    rw [squeezePass, if_neg notOne]
    simp only [length_cons] at ih ⊢
    exact ⟨by omega, fun isFused => by have := ih.2 isFused; omega⟩
  | case3 axes notTwo =>
    rw [squeezePass_short notTwo]
    exact ⟨le_refl _, nofun⟩

def squeeze (axes : List Lengths) : List Lengths :=
  if _isLong : axes.length ≥ 2 then
    if _canFuse : (squeezePass axes).2 = true then
      squeeze (squeezePass axes).1
    else
      (squeezePass axes).1
  else
    axes
termination_by axes.length
decreasing_by exact (length_squeezePass axes).2 _canFuse

/-- Axes of equal lengths are multiplied; `current` holds those before. -/
def separate : Lengths → List Lengths → List Lengths
  | current, [] => if current.2 ≠ 1 ∨ current.1 ≠ 1 then [current] else []
  | current, axis :: rest =>
    if axis.1 ≠ axis.2 then
      (if 1 < current.2 then [current] else []) ++ axis :: separate (1, 1) rest
    else
      separate (current.1 * axis.1, current.2 * axis.2) rest

def broadcastto (input : TensorPtr) (inputShape outputShape : List Nat)
    (forward : Bool) : List Region :=
  if inputShape.prod = outputShape.prod then
    [makeFullSlice input inputShape]
  else if forward then
    let srcSize : Int := (inputShape.getD 0 0 : Nat)
    let multipler : Int := ((outputShape.drop 1).prod : Nat)
    [{ size := ![1, srcSize, multipler]
       src := { offset := 0, stride := ![srcSize, 1, 0] }
       dst := { offset := 0, stride := ![srcSize * multipler, multipler, 1] }
       origin := some input }]
  else
    let separated := separate (1, 1) (squeeze (lengthsOf inputShape outputShape))
    let sepInputShape := separated.map Prod.fst
    let sepOutputShape := separated.map Prod.snd
    let seperateOutputStrides := (computeStride sepOutputShape).1
    let seperateInputStrides :=
      (sepInputShape.zip (computeStride sepInputShape).1).map fun axis =>
        if 1 = axis.1 then 0 else axis.2
    let count := separated.length
    let remainDimSize := count - 3
    let (remainStride, remainSize) := computeStride (sepOutputShape.take remainDimSize)
    (List.range remainSize).map fun index =>
      let cords := unravelIndexHelper remainStride index
      { src :=
          { offset := weigh cords ((seperateInputStrides.take remainDimSize).map Nat.cast)
            stride := lastThree count (seperateInputStrides.map Nat.cast) }
        dst :=
          { offset := weigh cords ((seperateOutputStrides.take remainDimSize).map Nat.cast)
            stride := lastThree count (seperateOutputStrides.map Nat.cast) }
        size := lastThree count (sepOutputShape.map Nat.cast)
        origin := some input }

/-! ## What broadcasting means -/

/-- The length of an axis, counted from the last one; missing axes have length one. -/
def fromEnd (shape : List Nat) (axis : Nat) : Nat := shape.reverse.getD axis 1

/-- On each axis, all lengths but one are equal to one or to each other. -/
def Broadcastable (shapes : List (List Nat)) : Prop :=
  ∀ first ∈ shapes, ∀ second ∈ shapes, ∀ axis, fromEnd first axis = 1 ∨ fromEnd second axis = 1 ∨
      fromEnd first axis = fromEnd second axis

/-- As many axes as any shape has, and on each axis the length that is not one. -/
structure IsBroadcast (shapes : List (List Nat)) (result : List Nat) : Prop where
  longest : ∃ shape ∈ shapes, shape.length = result.length
  atMost : ∀ shape ∈ shapes, shape.length ≤ result.length
  fits : ∀ shape ∈ shapes, ∀ axis, fromEnd shape axis = 1 ∨ fromEnd shape axis = fromEnd result axis
  attained : ∀ axis, ∃ shape ∈ shapes, fromEnd shape axis = fromEnd result axis

/-- The element of the input for an element of the output. -/
def pick (inputShape outputShape : List Nat) (index : List Nat) : List Nat :=
  List.zipWith (fun i length => if length = 1 then 0 else i)
    (index.drop (outputShape.length - inputShape.length)) inputShape

/-!
# What is copied to a broadcast tensor

Squeezing and separating the axes joins loops, and so it changes no copy.
-/

/-! ## Loops of axes -/

/-- The loops over some axes; where the input has length one, it is not moved. -/
def loops : List Lengths → List Loop
  | [] => []
  | axis :: rest =>
    ⟨axis.2, if axis.1 = 1 then 0 else ((rest.map Prod.fst).prod : Nat),
      ((rest.map Prod.snd).prod : Nat)⟩ :: loops rest

/-- Lengths that can be broadcast, where the input has elements. -/
def Fits (axes : List Lengths) : Prop := ∀ axis ∈ axes, axis.1 ≠ 0 ∧ (axis.1 = 1 ∨ axis.1 = axis.2)

/-- Other axes with the same copies. -/
structure Joins (before after : List Lengths) : Prop where
  copies : nest (loops after) = nest (loops before)
  inputs : (after.map Prod.fst).prod = (before.map Prod.fst).prod
  outputs : (after.map Prod.snd).prod = (before.map Prod.snd).prod

variable (axes : List Lengths)

theorem Joins.refl : Joins axes axes := ⟨rfl, rfl, rfl⟩

theorem Joins.trans {first second third : List Lengths}
    (before : Joins first second) (after : Joins second third) :
    Joins first third :=
  ⟨after.copies.trans before.copies, after.inputs.trans before.inputs,
    after.outputs.trans before.outputs⟩

theorem Joins.symm {first second : List Lengths} (joins : Joins first second) :
    Joins second first :=
  ⟨joins.copies.symm, joins.inputs.symm, joins.outputs.symm⟩

theorem Joins.cons (axis : Lengths) {before after : List Lengths}
    (joins : Joins before after) : Joins (axis :: before) (axis :: after) where
  copies := by
    rw [loops, loops, joins.inputs, joins.outputs]
    exact nest_cons_congr _ joins.copies
  inputs := by
    rw [map_cons, map_cons, prod_cons, prod_cons, joins.inputs]
  outputs := by
    rw [map_cons, map_cons, prod_cons, prod_cons, joins.outputs]

theorem Joins.unit (rest : List Lengths) : Joins ((1, 1) :: rest) rest where
  copies := (nest_unit rfl _).symm
  inputs := by simp
  outputs := by simp

theorem Joins.squeeze (length length' : Nat) (rest : List Lengths) :
    Joins ((1, length) :: (1, length') :: rest) ((1, length * length') :: rest) where
  copies := by
    have isSplit := nest_split length length' 0 ((rest.map Prod.snd).prod : Nat) (loops rest)
    simp only [loops, if_true, map_cons, prod_cons]
    rw [isSplit, mul_zero, Nat.cast_mul]
  inputs := by simp
  outputs := by simp [mul_assoc]

theorem Joins.multiply (length length' : Nat) (rest : List Lengths) :
    Joins ((length, length) :: (length', length') :: rest)
      ((length * length', length * length') :: rest) where
  copies := by
    -- strides do not matter where the length is one
    have isMoved (length : Nat) (left right : Int) (rest : List Loop) :
        nest (⟨length, if length = 1 then 0 else left, right⟩ :: rest) =
          nest (⟨length, left, right⟩ :: rest) := by
      by_cases isOne : length = 1
      · exact nest_stride (le_of_eq isOne) ..
      · rw [if_neg isOne]
    simp only [loops, map_cons, prod_cons]
    rw [isMoved, isMoved, nest_split, Nat.cast_mul, Nat.cast_mul]
    exact nest_cons_congr _ (isMoved ..).symm
  inputs := by simp [mul_assoc]
  outputs := by simp [mul_assoc]

theorem Fits.cons {axis : Lengths} {rest : List Lengths} (fits : Fits (axis :: rest)) :
    (axis.1 ≠ 0 ∧ (axis.1 = 1 ∨ axis.1 = axis.2)) ∧ Fits rest :=
  forall_mem_cons.mp fits

theorem squeezePass_joins (fits : Fits axes) :
    Joins axes (squeezePass axes).1 ∧ Fits (squeezePass axes).1 := by
  induction axes using squeezePass.induct with
  | case1 axis next rest isOne ih =>
    rcases axis with ⟨input, output⟩
    rcases next with ⟨input', output'⟩
    have areOne : input = 1 ∧ input' = 1 := isOne
    rcases areOne with ⟨rfl, rfl⟩
    have fitsJoined : Fits ((1, output * output') :: rest) := forall_mem_cons.mpr
        ⟨⟨one_ne_zero, Or.inl rfl⟩, fits.cons.2.cons.2⟩
    rw [squeezePass, if_pos isOne]
    have later := ih fitsJoined
    exact ⟨(Joins.squeeze output output' rest).trans later.1, later.2⟩
  | case2 axis next rest notOne ih =>
    rw [squeezePass, if_neg notOne]
    have later := ih fits.cons.2
    exact ⟨later.1.cons axis, forall_mem_cons.mpr ⟨fits.cons.1, later.2⟩⟩
  | case3 axes notTwo =>
    rw [squeezePass_short notTwo]
    exact ⟨.refl _, fits⟩

theorem squeeze_joins (fits : Fits axes) :
    Joins axes (squeeze axes) ∧ Fits (squeeze axes) := by
  induction axes using squeeze.induct with
  | case1 axes isLong canFuse ih =>
    rw [squeeze, dif_pos isLong, dif_pos canFuse]
    have first := squeezePass_joins axes fits
    have later := ih first.2
    exact ⟨first.1.trans later.1, later.2⟩
  | case2 axes isLong canFuse =>
    rw [squeeze, dif_pos isLong, dif_neg canFuse]
    exact squeezePass_joins axes fits
  | case3 axes isLong =>
    rw [squeeze, dif_neg isLong]
    exact ⟨.refl _, fits⟩

theorem separate_joins (fits : Fits axes) (length : Nat) (notZero : length ≠ 0) :
    Joins ((length, length) :: axes) (separate (length, length) axes) := by
  induction axes generalizing length with
  | nil =>
    rw [separate]
    by_cases isOne : length = 1
    · subst isOne
      exact Joins.unit []
    · rw [if_pos (Or.inl isOne)]
      exact .refl _
  | cons axis rest ih =>
    rw [separate]
    by_cases sameLength : axis.1 = axis.2
    · rcases axis with ⟨input, output⟩
      obtain rfl : input = output := sameLength
      rw [if_neg (not_not.mpr rfl)]
      exact (Joins.multiply length input rest).trans
          (ih fits.cons.2 _ (Nat.mul_ne_zero notZero fits.cons.1.1))
    · rw [if_pos sameLength]
      have later : Joins rest (separate (1, 1) rest) :=
        (Joins.unit rest).symm.trans (ih fits.cons.2 1 one_ne_zero)
      by_cases isLong : 1 < length
      · rw [if_pos isLong]
        exact (later.cons axis).cons _
      · have isOne : length = 1 := by omega
        subst isOne
        rw [if_neg isLong]
        exact (Joins.unit _).trans (later.cons axis)

/-! ## The regions -/

theorem map_size_loops : (loops axes).map Loop.size = axes.map Prod.snd := by
  induction axes with
  | nil => rfl
  | cons axis rest ih => rw [loops, map_cons, ih, map_cons]

theorem length_loops : (loops axes).length = axes.length := by
  rw [← @List.length_map _ _ (loops axes) Loop.size, map_size_loops, length_map]

theorem map_right_loops :
    (loops axes).map Loop.right = (strides (axes.map Prod.snd)).map Nat.cast := by
  induction axes with
  | nil => rfl
  | cons axis rest ih => rw [loops, map_cons, ih]; rfl

theorem map_left_loops :
    (loops axes).map Loop.left =
      (((axes.map Prod.fst).zip (strides (axes.map Prod.fst))).map fun axis =>
        if 1 = axis.1 then 0 else axis.2).map Nat.cast := by
  induction axes with
  | nil => rfl
  | cons axis rest ih =>
    rw [loops, map_cons, ih]
    simp only [map_cons, strides, zip_cons_cons, eq_comm, Nat.cast_ite, Nat.cast_zero]

/-! ## The element that is copied -/

/-- Shapes that can be broadcast, axis by axis. -/
def FitsShape (inputShape outputShape : List Nat) : Prop :=
  inputShape.length ≤ outputShape.length ∧
    ∀ axis ∈ lengthsOf inputShape outputShape, axis.1 = 1 ∨ axis.1 = axis.2

variable {inputShape outputShape : List Nat}

theorem map_snd_lengthsOf (fits : FitsShape inputShape outputShape) :
    (lengthsOf inputShape outputShape).map Prod.snd = outputShape := by
  refine map_snd_zip ?_
  have atMost := fits.1
  rw [length_append, length_replicate]
  omega

theorem prod_lengthsOf (fits : FitsShape inputShape outputShape) :
    ((lengthsOf inputShape outputShape).map Prod.fst).prod = inputShape.prod := by
  have sameLength :
      (List.replicate (outputShape.length - inputShape.length) 1 ++
        inputShape).length = outputShape.length := by
    have atMost := fits.1
    rw [length_append, length_replicate]
    omega
  rw [lengthsOf, map_fst_zip sameLength.le]
  simp

theorem weigh_lefts (sameLength : inputShape.length = outputShape.length)
    (isIndex : index.length = outputShape.length) :
    weigh index ((loops (inputShape.zip outputShape)).map Loop.left) = address inputShape
        (List.zipWith (fun i length => if length = 1 then 0 else i) index inputShape) := by
  induction inputShape generalizing outputShape index with
  | nil =>
    cases index with
    | nil => rfl
    | cons i index => simp [loops, weigh, address]
  | cons length inputShape ih =>
    match outputShape, index, sameLength, isIndex with
    | output :: outputShape, i :: index, sameLength, isIndex =>
      have sameRest : inputShape.length = outputShape.length := Nat.succ.inj sameLength
      rw [zip_cons_cons, loops, map_cons, weigh,
        ih sameRest (Nat.succ.inj isIndex), map_fst_zip sameRest.le]
      show _ = ((if length = 1 then 0 else i : Nat) : Int) * (inputShape.prod : Nat) + _
      congr 1
      by_cases isOne : length = 1
      · simp [isOne]
      · simp [isOne]

theorem weigh_pick (fits : FitsShape inputShape outputShape)
    (isIndex : index.length = outputShape.length) :
    weigh index ((loops (lengthsOf inputShape outputShape)).map Loop.left) =
      address inputShape (pick inputShape outputShape index) := by
  rcases Nat.exists_eq_add_of_le fits.1 with ⟨more, isLength⟩
  have isMore : outputShape.length - inputShape.length = more := by omega
  rw [lengthsOf, pick, isMore]
  clear fits isMore
  induction more generalizing outputShape index with
  | zero => exact weigh_lefts isLength.symm isIndex
  | succ more ih =>
    match outputShape, index, isLength, isIndex with
    | output :: outputShape, i :: index, isLength, isIndex =>
      have isLength' : outputShape.length = inputShape.length + more := Nat.succ.inj isLength
      have isRest := ih (Nat.succ.inj isIndex) isLength'
      show weigh (i :: index) (List.map Loop.left (loops ((1, output) :: _))) = _
      rw [loops, map_cons, weigh, if_pos rfl, mul_zero, zero_add, drop_succ_cons]
      exact isRest

theorem asked_eq_nest (fits : FitsShape inputShape outputShape) :
    ((boxIndices outputShape).map fun index =>
        (address inputShape (pick inputShape outputShape index), address outputShape index)) =
      nest (loops (lengthsOf inputShape outputShape)) := by
  rw [nest_eq_map, map_size_loops, map_snd_lengthsOf fits]
  refine map_congr_left fun index isIn => ?_
  rw [weigh_pick fits (length_of_mem_boxIndices isIn), map_right_loops, map_snd_lengthsOf fits]
  rfl

theorem joins_equal {axes : List Lengths} (equal : ∀ axis ∈ axes, axis.1 = axis.2) :
    Joins axes [((axes.map Prod.fst).prod, (axes.map Prod.fst).prod)] := by
  induction axes with
  | nil => exact (Joins.unit []).symm
  | cons axis rest ih =>
    rw [forall_mem_cons] at equal
    rcases axis with ⟨input, output⟩
    obtain rfl : input = output := equal.1
    exact ((ih equal.2).cons _).trans (Joins.multiply ..)

theorem equal_of_prod_eq {axes : List Lengths} (fits : Fits axes)
    (notZero : (axes.map Prod.snd).prod ≠ 0) :
    (axes.map Prod.fst).prod ≤ (axes.map Prod.snd).prod ∧
      ((axes.map Prod.fst).prod = (axes.map Prod.snd).prod →
        ∀ axis ∈ axes, axis.1 = axis.2) := by
  induction axes with
  | nil => exact ⟨le_refl _, fun _ axis isIn => nomatch isIn⟩
  | cons axis rest ih =>
    simp only [map_cons, prod_cons] at notZero ⊢
    have notZero' := Nat.mul_ne_zero_iff.mp notZero
    have later := ih fits.cons.2 notZero'.2
    have atMost : axis.1 ≤ axis.2 := by
      rcases fits.cons.1.2 with isOne | isSame
      · rw [isOne]
        exact Nat.one_le_iff_ne_zero.mpr notZero'.1
      · exact le_of_eq isSame
    refine ⟨Nat.mul_le_mul atMost later.1, fun same => ?_⟩
    have isEqual : axis.1 = axis.2 := by
      rcases lt_or_eq_of_le atMost with less | isEqual
      · have smaller : axis.1 * (rest.map Prod.fst).prod < axis.2 * (rest.map Prod.snd).prod :=
          Nat.mul_lt_mul_of_lt_of_le less later.1 (pos_of_ne_zero notZero'.2)
        omega
      · exact isEqual
    rw [isEqual] at same
    rw [forall_mem_cons]
    exact ⟨isEqual, later.2 (Nat.eq_of_mul_eq_mul_left (pos_of_ne_zero notZero'.1) same)⟩

/-- The regions write every element once, with the one that broadcasting selects. -/
theorem broadcastto_exact_of_fits (input : TensorPtr) (fits : FitsShape inputShape outputShape) :
    Exact (broadcastto input inputShape outputShape false) input inputShape
      outputShape (pick inputShape outputShape) := by
  have areInputs := prod_lengthsOf fits
  have areOutputs : ((lengthsOf inputShape outputShape).map Prod.snd).prod = outputShape.prod := by
    rw [map_snd_lengthsOf fits]
  by_cases sameSize : inputShape.prod = outputShape.prod
  · have isSlice :
        broadcastto input inputShape outputShape false = [makeFullSlice input inputShape] :=
      if_pos sameSize
    rw [isSlice]
    refine ⟨fun reg isIn => by rw [mem_singleton.mp isIn]; rfl, .of_eq ?_⟩
    rw [movesOf, flatMap_singleton, moves_makeFullSlice, asked_eq_nest fits]
    by_cases isZero : outputShape.prod = 0
    · rw [sameSize, isZero]
      refine (nest_empty ?_).symm
      rw [← areOutputs, ← map_size_loops, prod_eq_zero_iff] at isZero
      exact mem_map.mp isZero
    · have notZero : Fits (lengthsOf inputShape outputShape) := by
        intro axis isIn
        refine ⟨fun isZero' => isZero ?_, fits.2 axis isIn⟩
        rw [← sameSize, ← areInputs, prod_eq_zero_iff]
        exact mem_map.mpr ⟨axis, isIn, isZero'⟩
      rw [← areOutputs] at isZero
      have equal := (equal_of_prod_eq notZero isZero).2
          (areInputs.trans (sameSize.trans areOutputs.symm))
      rw [← (joins_equal equal).copies, areInputs]
      show _ = nest [⟨_, if _ = 1 then (0 : Int) else _, _⟩]
      by_cases isOne : inputShape.prod = 1
      · rw [isOne]
        rfl
      · rw [if_neg isOne]
        rfl
  · have notZero : Fits (lengthsOf inputShape outputShape) := by
      intro axis isIn
      refine ⟨fun isZero => sameSize ?_, fits.2 axis isIn⟩
      have isZero' : axis.2 = 0 := by
        rcases fits.2 axis isIn with isOne | isSame
        · rw [isZero] at isOne
          cases isOne
        · exact isSame.symm.trans isZero
      have inputZero : inputShape.prod = 0 := by
        rw [← areInputs, prod_eq_zero_iff]
        exact mem_map.mpr ⟨axis, isIn, isZero⟩
      have outputZero : outputShape.prod = 0 := by
        rw [← areOutputs, prod_eq_zero_iff]
        exact mem_map.mpr ⟨axis, isIn, isZero'⟩
      rw [inputZero, outputZero]
    have squeezed := squeeze_joins _ notZero
    have separated := (squeezed.1.trans (Joins.unit _).symm).trans
        (separate_joins _ squeezed.2 1 one_ne_zero)
    rw [broadcastto, if_neg sameSize, if_neg Bool.false_ne_true]
    refine ⟨fun reg isIn => ?_, .of_eq ?_⟩
    · rcases mem_map.mp isIn with ⟨index, -, rfl⟩
      rfl
    · rw [asked_eq_nest fits, ← separated.copies, ← movesOf_lastThree _ input, length_loops]
      have areSizes (axes : List Lengths) :
          ((loops axes).map fun loop => (loop.size : Int)) =
            (axes.map Prod.snd).map Nat.cast := by
        rw [← map_size_loops, map_map]
        rfl
      simp only [computeStride_eq, unravelIndexHelper_strides, map_size_loops,
        map_left_loops, map_right_loops, areSizes, map_take]

end Mnn.Geometry.Broadcast
