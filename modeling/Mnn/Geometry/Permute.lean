import Mnn.Geometry.Regions

/-!
# Permutation of axes

Axes that stay neighbours are joined, those of length one are left out, and the longest
three are moved to the end, where they are the loops of a region.
-/

namespace Mnn.Geometry.Permute

open Mnn.Core.Raster
open Mnn.Foundation.LoopNests
open List

def lengthAt (inputShape : List Nat) (axis : Nat) : Nat := inputShape.getD axis 1

/-- The product of the lengths behind an axis. -/
def strideAt (inputShape : List Nat) (axis : Nat) : Nat := (inputShape.drop (axis + 1)).prod

/--
The sizes and input strides of joined axes.  `last` is the size that is not closed yet,
and `preAxis`; it is absent as long as `preAxis` is negative.
-/
def joinAxes (inputShape : List Nat) (last : Option (Nat × Nat)) : List Nat → List (Nat × Nat)
  | [] =>
    match last with
    | none => []
    | some (size, preAxis) => [(size, strideAt inputShape preAxis)]
  | axis :: axes =>
    let len := lengthAt inputShape axis
    if len = 1 then
      joinAxes inputShape last axes
    else
      match last with
      | none => joinAxes inputShape (some (len, axis)) axes
      | some (size, preAxis) =>
        if axis = preAxis + 1 then
          joinAxes inputShape (some (size * len, axis)) axes
        else
          (size, strideAt inputShape preAxis) :: joinAxes inputShape (some (len, axis)) axes

/-- The three arrays `inputShape`, `inputStrides` and `outputStrides`. -/
def withOutputStrides (joined : List (Nat × Nat)) : List Loop :=
  List.zipWith (fun axis (outputStride : Nat) => ⟨axis.1, axis.2, outputStride⟩) joined
    (computeStride (joined.map Prod.fst)).1

/-! ## The longest three -/

structure Maxima where
  max1 : Int
  max2 : Int
  max3 : Int

def Maxima.add (maxima : Maxima) (length : Int) : Maxima :=
  if length > maxima.max1 then
    ⟨length, maxima.max1, maxima.max2⟩
  else if length > maxima.max2 then
    ⟨maxima.max1, length, maxima.max2⟩
  else if length > maxima.max3 then
    { maxima with max3 := length }
  else
    maxima

def findMaxima : List Nat → Maxima
  | [] => ⟨-1, -1, -1⟩
  | first :: lengths =>
    lengths.foldl (fun maxima (length : Nat) => maxima.add length) ⟨first, -1, -1⟩

/-- The arrays, and what is still looked for. -/
structure Moving where
  arrays : Array Loop
  maxima : Maxima
  lastIndex : Nat

/-- The entries of all arrays are swapped, unless `i == lastIndex`. -/
def Moving.swap (moving : Moving) (i : Nat) (maxima : Maxima) : Moving where
  arrays :=
    if i = moving.lastIndex then moving.arrays
    else moving.arrays.swapIfInBounds i moving.lastIndex
  maxima := maxima
  lastIndex := moving.lastIndex - 1

def Moving.step (moving : Moving) (i : Nat) : Moving :=
  let length : Int := ((moving.arrays.map Loop.size).getD i 0 : Nat)
  let maxima := moving.maxima
  if length = maxima.max1 then
    moving.swap i { maxima with max1 := -1 }
  else if length = maxima.max2 then
    moving.swap i { maxima with max2 := -1 }
  else if length = maxima.max3 then
    moving.swap i { maxima with max3 := -1 }
  else
    moving

/-- The places below `i`, the last one first. -/
def Moving.loop (moving : Moving) : Nat → Moving
  | 0 => moving
  | i + 1 =>
    let moving := moving.step i
    if moving.lastIndex < moving.arrays.size - 3 then moving else moving.loop i

def moveMaxThree (arrays : List Loop) : List Loop :=
  let moving : Moving :=
    ⟨arrays.toArray, findMaxima (arrays.map Loop.size), arrays.length - 1⟩
  (moving.loop arrays.length).arrays.toList

def isReorderShape : List Nat → Bool
  | [first, second, third, fourth] => first > second + third + fourth
  | lengths => lengths.length > 4

/-! ## Regions -/

/-- The array entry at `inputShapeSize - back`, if there is one. -/
def fromEnd (arrays : List Loop) (back : Nat) : Loop :=
  if arrays.length ≥ back then arrays.getD (arrays.length - back) ⟨1, 0, 0⟩
  else ⟨1, 0, 0⟩

/-- `mod`: the product of the sizes behind each. -/
def modsOf (sizes : List Nat) : List Nat :=
  (List.range sizes.length).map fun i => (sizes.drop (i + 1)).prod

def regionsOf (input : TensorPtr) (arrays : List Loop) : List Region :=
  let inside := fromEnd arrays 1
  let axis := fromEnd arrays 2
  let outside := fromEnd arrays 3
  let remain := arrays.take (arrays.length - 3)
  let remainSize := (remain.map Loop.size).prod
  let mod := modsOf (remain.map Loop.size)
  (List.range remainSize).map fun indice =>
    let coordinates := unravelIndexHelper mod indice
    { src :=
        { offset := weigh coordinates (remain.map Loop.left)
          stride := ![outside.left, axis.left, inside.left] }
      dst :=
        { offset := weigh coordinates (remain.map Loop.right)
          stride := ![outside.right, axis.right, inside.right] }
      size := ![(outside.size : Int), axis.size, inside.size]
      origin := some input }

/-- The axes of the input in their order in the output, which is reversed by default. -/
def axesOf (rank : Nat) (newshape : Option (List Nat)) : List Nat :=
  newshape.getD ((List.range rank).map fun i => rank - i - 1)

def ComputePermuteRegion (input : TensorPtr) (inputShape : List Nat)
    (newshape : Option (List Nat)) : List Region :=
  let joined := joinAxes inputShape none (axesOf inputShape.length newshape)
  if joined = [] then
    [makeFullSlice input inputShape]
  else
    let arrays := withOutputStrides joined
    regionsOf input (if isReorderShape (arrays.map Loop.size) then moveMaxThree arrays else arrays)

def outputShape (inputShape axes : List Nat) : List Nat := axes.map (lengthAt inputShape)

/-- The element of the input for an element of the output. -/
def pick (axes : List Nat) (index : List Nat) : List Nat :=
  (List.range axes.length).map fun axis => index.getD (axes.idxOf axis) 0

/-!
# What is copied to a permuted tensor

Joining axes splits no loop, and moving the longest three only reorders the loops; so
each array has the loops over the axes of the output.
-/

/-! ## Loops of axes -/

def axisLoops (inputShape : List Nat) : List Nat → List Loop
  | [] => []
  | axis :: axes =>
    ⟨lengthAt inputShape axis, strideAt inputShape axis,
        ((outputShape inputShape axes).prod : Nat)⟩ ::
      axisLoops inputShape axes

variable (inputShape axes : List Nat)

theorem size_axisLoops :
    (axisLoops inputShape axes).map Loop.size = outputShape inputShape axes := by
  induction axes with
  | nil => rfl
  | cons axis axes ih => exact congrArg (_ :: ·) ih

theorem left_axisLoops :
    (axisLoops inputShape axes).map Loop.left =
      axes.map fun axis => (strideAt inputShape axis : Int) := by
  induction axes with
  | nil => rfl
  | cons axis axes ih => exact congrArg (_ :: ·) ih

theorem right_axisLoops :
    (axisLoops inputShape axes).map Loop.right =
      (strides (outputShape inputShape axes)).map fun (stride : Nat) => (stride : Int) := by
  induction axes with
  | nil => rfl
  | cons axis axes ih => exact congrArg (_ :: ·) ih

theorem strides_eq_map (shape : List Nat) :
    strides shape = (List.range shape.length).map (strideAt shape) := by
  induction shape with
  | nil => rfl
  | cons length shape ih =>
    rw [strides, ih, length_cons, range_succ_eq_map, map_cons, map_map]
    rfl

theorem weigh_map_map (items : List Nat) (index : Nat → Nat) (stride : Nat → Int) :
    weigh (items.map index) (items.map stride) =
      (items.map fun item => (index item : Int) * stride item).sum := by
  induction items with
  | nil => rfl
  | cons item items ih =>
    rw [map_cons, map_cons, weigh, ih, map_cons, sum_cons]

variable {axes index inputShape : List Nat}

theorem map_getD_idxOf (distinct : axes.Nodup) (sameLength : index.length = axes.length) :
    (axes.map fun axis => index.getD (axes.idxOf axis) 0) = index := by
  refine ext_getElem ?_ fun place isAxis isPlace => ?_
  · rw [length_map, sameLength]
  · rw [getElem_map, distinct.idxOf_getElem, getD_eq_getElem?_getD,
      getElem?_eq_getElem isPlace, Option.getD_some]

theorem address_pick (isPermutation : axes.Perm (List.range inputShape.length))
    (sameLength : index.length = axes.length) :
    address inputShape (pick axes index) =
      weigh index (axes.map fun axis => (strideAt inputShape axis : Int)) := by
  have isRank : axes.length = inputShape.length := by
    rw [isPermutation.length_eq, length_range]
  have distinct : axes.Nodup := isPermutation.nodup_iff.mpr nodup_range
  rw [address, pick, isRank, strides_eq_map, map_map, weigh_map_map]
  calc
    _ = (axes.map fun axis =>
          (index.getD (axes.idxOf axis) 0 : Int) * strideAt inputShape axis).sum :=
      (isPermutation.map _).sum_eq.symm
    _ = _ := by
      rw [← weigh_map_map, map_getD_idxOf distinct sameLength]

theorem asked_eq_nest (isPermutation : axes.Perm (List.range inputShape.length)) :
    ((boxIndices (outputShape inputShape axes)).map fun index =>
        (address inputShape (pick axes index), address (outputShape inputShape axes) index)) =
      nest (axisLoops inputShape axes) := by
  rw [nest_eq_map, size_axisLoops, left_axisLoops, right_axisLoops]
  refine map_congr_left fun index isIn => ?_
  have sameLength : index.length = axes.length := by
    rw [length_of_mem_boxIndices isIn, outputShape, length_map]
  rw [address_pick isPermutation sameLength]
  rfl

/-! ## Axes that stay neighbours -/

theorem strideAt_before {axis : Nat} (notUnit : lengthAt inputShape (axis + 1) ≠ 1) :
    strideAt inputShape axis = lengthAt inputShape (axis + 1) * strideAt inputShape (axis + 1) := by
  have isInside : axis + 1 < inputShape.length := by
    by_contra isBehind
    refine notUnit ?_
    rw [lengthAt, getD_eq_getElem?_getD,
      getElem?_eq_none (Nat.le_of_not_lt isBehind), Option.getD_none]
  rw [strideAt, drop_eq_getElem_cons isInside, prod_cons, lengthAt,
    getD_eq_getElem?_getD, getElem?_eq_getElem isInside, Option.getD_some]
  rfl

/-- The loop of what is not closed yet, if this much is behind it. -/
def lastLoops (inputShape : List Nat) (last : Option (Nat × Nat)) (behind : Nat) : List Loop :=
  match last with
  | none => []
  | some (size, preAxis) => [⟨size, strideAt inputShape preAxis, behind⟩]

def lastSize (last : Option (Nat × Nat)) : Nat :=
  match last with
  | none => 1
  | some (size, _) => size

theorem withOutputStrides_cons (axis : Nat × Nat) (joined : List (Nat × Nat)) :
    withOutputStrides (axis :: joined) = ⟨axis.1, axis.2, ((joined.map Prod.fst).prod : Nat)⟩ ::
        withOutputStrides joined := by
  simp only [withOutputStrides, computeStride_eq, map_cons, strides, zipWith_cons_cons]

theorem joinAxes_unit {axis : Nat}
    (isUnit : lengthAt inputShape axis = 1) (last : Option (Nat × Nat)) (axes : List Nat) :
    joinAxes inputShape last (axis :: axes) = joinAxes inputShape last axes := by
  cases last with
  | none => rw [joinAxes, if_pos isUnit]
  | some last => rw [joinAxes, if_pos isUnit]

theorem joinAxes_loops (inputShape : List Nat) (last : Option (Nat × Nat)) (axes : List Nat) :
    ((joinAxes inputShape last axes).map Prod.fst).prod =
        lastSize last * (outputShape inputShape axes).prod ∧
      nest (withOutputStrides (joinAxes inputShape last axes)) = nest
          (lastLoops inputShape last (outputShape inputShape axes).prod ++
            axisLoops inputShape axes) := by
  induction axes generalizing last with
  | nil =>
    cases last with
    | none => exact ⟨rfl, rfl⟩
    | some last => exact ⟨rfl, rfl⟩
  | cons axis axes ih =>
    have isProduct :
        (outputShape inputShape (axis :: axes)).prod =
          lengthAt inputShape axis * (outputShape inputShape axes).prod :=
      rfl
    rw [axisLoops, isProduct]
    by_cases isUnit : lengthAt inputShape axis = 1
    · rw [joinAxes_unit isUnit, (ih last).1, (ih last).2, isUnit, Nat.one_mul]
      exact ⟨rfl, nest_append_congr _ (nest_unit rfl _).symm⟩
    · cases last with
      | none =>
        rw [joinAxes, if_neg isUnit, (ih _).1, (ih _).2]
        refine ⟨?_, rfl⟩
        rw [lastSize, lastSize, Nat.one_mul]
      | some last =>
        rcases last with ⟨size, preAxis⟩
        rw [joinAxes, if_neg isUnit]
        by_cases isNext : axis = preAxis + 1
        · rw [if_pos isNext, (ih _).1, (ih _).2]
          refine ⟨Nat.mul_assoc .., ?_⟩
          subst isNext
          have isJoined := nest_split size (lengthAt inputShape (preAxis + 1))
              (strideAt inputShape (preAxis + 1))
              (outputShape inputShape axes).prod (axisLoops inputShape axes)
          rw [← Nat.cast_mul, ← Nat.cast_mul, ← strideAt_before isUnit] at isJoined
          exact isJoined
        · rw [if_neg isNext, withOutputStrides_cons, map_cons, prod_cons, (ih _).1]
          exact ⟨rfl, nest_cons_congr _ (ih _).2⟩

/-! ## The longest three -/

theorem swap_perm (moving : Moving) (i : Nat) (maxima : Maxima) :
    (moving.swap i maxima).arrays.Perm moving.arrays := by
  rw [Moving.swap]
  split
  · exact .refl _
  · rw [Array.swapIfInBounds_def]
    split
    · split
      · exact Array.swap_perm ..
      · exact .refl _
    · exact .refl _

theorem step_perm (moving : Moving) (i : Nat) : (moving.step i).arrays.Perm moving.arrays := by
  rw [Moving.step]
  split
  · exact swap_perm ..
  · split
    · exact swap_perm ..
    · split
      · exact swap_perm ..
      · exact .refl _

theorem loop_perm (moving : Moving) (i : Nat) : (moving.loop i).arrays.Perm moving.arrays := by
  induction i generalizing moving with
  | zero => exact .refl _
  | succ i ih =>
    rw [Moving.loop]
    split
    · exact step_perm moving i
    · exact (ih _).trans (step_perm moving i)

theorem moveMaxThree_perm (arrays : List Loop) : (moveMaxThree arrays).Perm arrays :=
  (loop_perm _ _).toList

/-! ## Regions -/

theorem modsOf_eq_strides (sizes : List Nat) : modsOf sizes = strides sizes :=
  (strides_eq_map sizes).symm

theorem fromEnd_append (outer last : List Loop) (back : Nat) (isInside : back ≤ last.length) :
    fromEnd (outer ++ last) back = fromEnd last back := by
  have isPlace : (outer ++ last).length - back = outer.length + (last.length - back) := by
    rw [length_append]
    omega
  have isLong : (outer ++ last).length ≥ back := by
    rw [length_append]
    omega
  rw [fromEnd, fromEnd, if_pos isLong, if_pos isInside, isPlace,
    getD_eq_getElem?_getD, getElem?_append_right (Nat.le_add_right ..),
    Nat.add_sub_cancel_left, getD_eq_getElem?_getD]

theorem nest_fromEnd (arrays : List Loop) :
    nest [fromEnd arrays 3, fromEnd arrays 2, fromEnd arrays 1] =
      nest (arrays.drop (arrays.length - 3)) := by
  by_cases isShort : arrays.length < 3
  · match arrays, isShort with
    | [], _ => rfl
    | [last], _ =>
      rw [nest_unit rfl, nest_unit rfl]
      rfl
    | [second, last], _ =>
      rw [nest_unit rfl]
      rfl
  · have isThree : (arrays.drop (arrays.length - 3)).length = 3 := by
      rw [length_drop]
      omega
    rcases length_eq_three.mp isThree with ⟨first, second, last, areLast⟩
    have isWhole := take_append_drop (arrays.length - 3) arrays
    rw [areLast] at isWhole
    have isAt (back : Nat) (isInside : back ≤ 3) :
        fromEnd arrays back = fromEnd [first, second, last] back := by
      rw [← isWhole]
      exact fromEnd_append _ _ back isInside
    rw [isAt 3 (by decide), isAt 2 (by decide), isAt 1 (by decide), areLast]
    rfl

theorem movesOf_regionsOf (input : TensorPtr) (arrays : List Loop) :
    movesOf (regionsOf input arrays) = nest arrays := by
  have isEnumerated :=
    moves_enumerated (arrays.take (arrays.length - 3)) (arrays.drop (arrays.length - 3))
  rw [take_append_drop] at isEnumerated
  rw [← isEnumerated, movesOf, regionsOf, flatMap_map]
  congr 1
  funext index
  rw [moves_eq_nest, ← nest_fromEnd, modsOf_eq_strides, unravelIndexHelper_strides]
  rfl

theorem origin_regionsOf (input : TensorPtr) (arrays : List Loop) :
    ∀ reg ∈ regionsOf input arrays, reg.origin = some input := by
  intro reg isIn
  rcases mem_map.mp isIn with ⟨indice, -, rfl⟩
  rfl

theorem prod_eq_one (isPermutation : axes.Perm (List.range inputShape.length))
    (isEmpty : joinAxes inputShape none axes = []) :
    inputShape.prod = 1 := by
  have isProduct := (joinAxes_loops inputShape none axes).1
  rw [isEmpty] at isProduct
  have isShape : (List.range inputShape.length).map (lengthAt inputShape) = inputShape := by
    refine ext_getElem ?_ fun place isAxis isPlace => ?_
    · rw [length_map, length_range]
    · rw [getElem_map, getElem_range, lengthAt, getD_eq_getElem?_getD,
        getElem?_eq_getElem isPlace, Option.getD_some]
  calc
    inputShape.prod = ((List.range inputShape.length).map (lengthAt inputShape)).prod := by
      rw [isShape]
    _ = (outputShape inputShape axes).prod := (isPermutation.map _).prod_eq.symm
    _ = 1 := by
      rw [← Nat.one_mul (outputShape inputShape axes).prod]
      exact isProduct.symm

theorem perm_axesOf {rank : Nat} {newshape : Option (List Nat)}
    (isPermutation : ∀ axes ∈ newshape, axes.Perm (List.range rank)) :
    (axesOf rank newshape).Perm (List.range rank) := by
  cases newshape with
  | some axes => exact isPermutation axes rfl
  | none =>
    have isReverse : axesOf rank none = (List.range rank).reverse := by
      refine ext_getElem ?_ fun i _ _ => ?_
      · rw [axesOf, Option.getD_none, length_map, length_reverse]
      · simp only [axesOf, Option.getD_none, getElem_map, getElem_range,
          getElem_reverse, length_range]
        omega
    rw [isReverse]
    exact reverse_perm _

end Mnn.Geometry.Permute
