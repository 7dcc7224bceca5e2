import Mnn.Geometry.Regions

/-!
# Tiling

The axes of the input are repeated.  Axes that are only repeated, or only copied, are
joined with those of the same kind before them; the arrays of what is joined have
`MNN_MAX_TENSOR_DIM` places.
-/

namespace Mnn.Geometry.Tile

open Mnn.Core.Raster
open Mnn.Foundation.LoopNests
open List
open Nat

def MNN_MAX_TENSOR_DIM : Nat := 9

/-- The length of the input on one axis, and its multiple. -/
abbrev Tiling : Type := Nat × Nat

/-- One axis: its lengths and its strides. -/
structure Axis where
  il : Nat
  ml : Nat
  inputStride : Nat
  outputStride : Nat

/-- Status 0: nothing is pending; 1: a multiple; 2: an input. -/
inductive Status
  | none
  | multi
  | input
  deriving DecidableEq

/-- `entries` are the arrays `size`, `srcStride` and `dstStride` up to `validLength`. -/
structure State where
  entries : List Loop
  status : Status
  prevInput : Nat
  prevMulti : Nat
  /-- The axis at `prevIndex`. -/
  prev : Axis

/-- An entry is written, unless it would lie behind the arrays. -/
def put (entries : List Loop) (entry : Loop) : Option (List Loop) :=
  if entries.length < MNN_MAX_TENSOR_DIM then some (entries ++ [entry]) else none

/-- What is written of pending multiples. -/
def State.multiEntry (state : State) : Loop :=
  ⟨state.prevMulti, 0, (state.prev.il * state.prev.outputStride : Nat)⟩

/-- What is written of pending inputs. -/
def State.inputEntry (state : State) : Loop :=
  ⟨state.prevInput, state.prev.inputStride, state.prev.outputStride⟩

/-- `il == 1 && ml > 1`. -/
def repeatAxis (axis : Axis) (state : State) : Option State :=
  match state.status with
  | .none => some { state with prevMulti := 1 * axis.ml, prev := axis, status := .multi }
  | .multi =>
    some { state with prevMulti := state.prevMulti * axis.ml, prev := axis, status := .multi }
  | .input =>
    (put state.entries state.inputEntry).map fun entries =>
      { state with entries, prev := axis, prevMulti := axis.ml, status := .multi }

/-- `il > 1 && ml == 1`. -/
def copyAxis (axis : Axis) (state : State) : Option State :=
  match state.status with
  | .none => some { state with prevInput := 1 * axis.il, prev := axis, status := .input }
  | .input =>
    some { state with prevInput := state.prevInput * axis.il, prev := axis, status := .input }
  | .multi =>
    (put state.entries state.multiEntry).map fun entries =>
      { state with entries, prev := axis, prevInput := axis.il, status := .input }

/-- `il > 1` and `ml > 1`. -/
def repeatCopyAxis (axis : Axis) (state : State) : Option State := do
  let ml := if state.status = .multi then axis.ml * state.prevMulti else axis.ml
  let entries ←
    if state.status = .input then put state.entries state.inputEntry
    else some state.entries
  let entries ← put entries ⟨ml, 0, (axis.il * axis.outputStride : Nat)⟩
  let entries ← put entries ⟨axis.il, axis.inputStride, axis.outputStride⟩
  return { state with entries, status := .none }

def tileAxis (axis : Axis) (state : State) : Option State :=
  if axis.il = 1 ∧ axis.ml = 1 then
    some state
  else if axis.il = 1 ∧ axis.ml > 1 then
    repeatAxis axis state
  else if axis.il > 1 ∧ axis.ml = 1 then
    copyAxis axis state
  else
    repeatCopyAxis axis state

/-- What is pending behind the last axis. -/
def finish (state : State) : Option (List Loop) :=
  match state.status with
  | .none => some state.entries
  | .multi => put state.entries state.multiEntry
  | .input => put state.entries state.inputEntry

/-- All axes; nothing is left to do if one of them is empty. -/
def tileAxes : List Axis → State → Option (Option (List Loop))
  | [], state => (finish state).map some
  | axis :: rest, state =>
    if axis.il = 0 ∨ axis.ml = 0 then
      some none
    else
      (tileAxis axis state).bind (tileAxes rest)

def inputShape (tiling : List Tiling) : List Nat := tiling.map Prod.fst

def outputShape (tiling : List Tiling) : List Nat := tiling.map fun axis => axis.2 * axis.1

/-- The axes with the strides of both tensors. -/
def axesOf (tiling : List Tiling) : List Axis := (tiling.zip
      ((computeStride (inputShape tiling)).1.zip
        (computeStride (outputShape tiling)).1)).map
    fun axis => ⟨axis.1.1, axis.1.2, axis.2.1, axis.2.2⟩

/-- The regions over entries, of which the last three are the loops of a region. -/
def regionsOf (input : TensorPtr) (entries : List Loop) : List Region :=
  let entries := entries ++ List.replicate (3 - entries.length) ⟨1, 0, 0⟩
  let remainDimSize := entries.length - 3
  let remainDims := (entries.map Loop.size).take remainDimSize
  let mod := (computeStride remainDims).1
  let remainSize := remainDims.prod
  (List.range remainSize).map fun u =>
    let coordinates := unravelIndexHelper mod u
    { src :=
        { offset := weigh coordinates ((entries.map Loop.left).take remainDimSize)
          stride := fun v => (entries.map Loop.left).getD (v.val + remainDimSize) 0 }
      dst :=
        { offset := weigh coordinates ((entries.map Loop.right).take remainDimSize)
          stride := fun v => (entries.map Loop.right).getD (v.val + remainDimSize) 0 }
      size := fun v => ((entries.map Loop.size).getD (v.val + remainDimSize) 0 : Nat)
      origin := some input }

/-- The regions, unless an array is written behind its end. -/
def onCompute (input : TensorPtr) (tiling : List Tiling) : Option (List Region) :=
  (tileAxes (axesOf tiling) ⟨[], .none, 1, 1, ⟨1, 1, 1, 1⟩⟩).map fun
    | none => []
    | some entries => regionsOf input entries

/-! ## What tiling means -/

/-- The element of the input for an element of the output. -/
def pick (tiling : List Tiling) (index : List Nat) : List Nat :=
  List.zipWith (fun i axis => i % axis.1) index tiling

/-- Axes that are only repeated, only copied, or both. -/
inductive Kind
  | repeated
  | copied
  | both
  deriving DecidableEq

/-- The axes before one that is empty, without those of length one that are not
repeated, and whether no axis is empty. -/
def kinds : List Tiling → List Kind × Bool
  | [] => ([], true)
  | (il, ml) :: rest =>
    if il = 0 ∨ ml = 0 then
      ([], false)
    else if il = 1 ∧ ml = 1 then
      kinds rest
    else
      let kind := if il = 1 then Kind.repeated else if ml = 1 then .copied else .both
      (kind :: (kinds rest).1, (kinds rest).2)

/--
How many places are needed: one for each run of axes that are copied, one for each run of
axes that are repeated, and two for each axis that is both, which a run of repeated axes
in front of it joins.  A run that an empty axis ends needs none.
-/
def places (ended : Bool) : List Kind → Nat
  | [] => 0
  | [.repeated] => if ended then 1 else 0
  | [.copied] => if ended then 1 else 0
  | .both :: rest => 2 + places ended rest
  | .repeated :: .copied :: rest => 1 + places ended (.copied :: rest)
  | .repeated :: rest => places ended rest
  | .copied :: .copied :: rest => places ended (.copied :: rest)
  | .copied :: rest => 1 + places ended rest

/-- The places that the axes of a tensor need. -/
def placesOf (tiling : List Tiling) : Nat := places (kinds tiling).2 (kinds tiling).1

/-!
# What is copied to a tiled tensor

Each step of the scan joins loops or moves them to the entries, so it changes no copy;
and it writes no place that the axes do not need.
-/

/-! ## Loops of axes -/

/-- The two loops over an axis: its repetitions, and its elements. -/
def loopsOfAxis (axis : Axis) : List Loop :=
  [⟨axis.ml, 0, (axis.il * axis.outputStride : Nat)⟩,
    ⟨axis.il, axis.inputStride, axis.outputStride⟩]

def loops (axes : List Axis) : List Loop := axes.flatMap loopsOfAxis

/-- How many elements of both tensors the given axes have. -/
def inputs (axes : List Axis) : Nat := (axes.map Axis.il).prod

def outputs (axes : List Axis) : Nat := (axes.map fun axis => axis.ml * axis.il).prod

/-- The strides of each axis are those behind it. -/
def Strided : List Axis → Prop
  | [] => True
  | axis :: rest =>
    (axis.inputStride = inputs rest ∧ axis.outputStride = outputs rest) ∧ Strided rest

theorem axesOf_cons (axis : Tiling) (rest : List Tiling) :
    axesOf (axis :: rest) = ⟨axis.1, axis.2, (inputShape rest).prod, (outputShape rest).prod⟩ ::
        axesOf rest := by
  simp only [axesOf, computeStride_eq, inputShape, outputShape, map_cons, strides, zip_cons_cons]

variable (tiling : List Tiling)

theorem strided_axesOf :
    Strided (axesOf tiling) ∧ inputs (axesOf tiling) = (inputShape tiling).prod ∧
      outputs (axesOf tiling) = (outputShape tiling).prod := by
  induction tiling with
  | nil => exact ⟨trivial, rfl, rfl⟩
  | cons axis rest ih =>
    rcases ih with ⟨strided, areInputs, areOutputs⟩
    rw [axesOf_cons]
    refine ⟨⟨⟨areInputs.symm, areOutputs.symm⟩, strided⟩, ?_, ?_⟩
    · show axis.1 * inputs (axesOf rest) = axis.1 * (inputShape rest).prod
      rw [areInputs]
    · show axis.2 * axis.1 * outputs (axesOf rest) = axis.2 * axis.1 * (outputShape rest).prod
      rw [areOutputs]

theorem asked_eq_nest : ((boxIndices (outputShape tiling)).map fun index =>
        (address (inputShape tiling) (pick tiling index), address (outputShape tiling) index)) =
      nest (loops (axesOf tiling)) := by
  induction tiling with
  | nil => rfl
  | cons axis rest ih =>
    rcases axis with ⟨il, ml⟩
    rw [axesOf_cons, outputShape, map_cons, boxIndices, range_mul, flatMap_assoc, map_flatMap]
    show _ = nest (⟨ml, 0, _⟩ :: ⟨il, _, _⟩ :: loops (axesOf rest))
    rw [nest]
    congr 1
    funext repetition
    rw [nest, shifted_flatMap, flatMap_map, map_flatMap]
    refine flatMap_congr fun i isIn => ?_
    have less : i < il := mem_range.mp isIn
    rw [shifted_shifted, ← ih, shifted, map_map, map_map]
    refine map_congr_left fun index _ => ?_
    have isPicked :
        pick ((il, ml) :: rest) ((repetition * il + i) :: index) =
          i :: pick rest index := by
      rw [pick, zipWith_cons_cons, mul_comm, mul_add_mod, mod_eq_of_lt less]
      rfl
    have isFirst :
        address (inputShape ((il, ml) :: rest)) (i :: pick rest index) =
          i * ((inputShape rest).prod : Nat) + address (inputShape rest) (pick rest index) :=
      rfl
    have isSecond :
        address (outputShape ((il, ml) :: rest)) ((repetition * il + i) :: index) =
          ((repetition * il + i : Nat) : Int) * ((outputShape rest).prod : Nat) +
            address (outputShape rest) index :=
      rfl
    rw [Function.comp_apply, Function.comp_apply]
    show (address (inputShape ((il, ml) :: rest)) (pick _ _), _) = _
    rw [isPicked, isFirst]
    show (_, address (outputShape ((il, ml) :: rest)) _) = _
    rw [isSecond]
    refine Prod.ext ?_ ?_
    · show _ = _ * (0 : Int) + _ + _
      ring
    · show _ = (repetition : Int) * ((il * (outputShape rest).prod : Nat) : Int) + _ + _
      push_cast
      ring

/-! ## Steps -/

/-- What is not written yet. -/
def State.pending (state : State) : List Loop :=
  match state.status with
  | .none => []
  | .multi => [state.multiEntry]
  | .input => [state.inputEntry]

/-- The strides of what is pending are those behind it. -/
def State.Follows (state : State) (rest : List Axis) : Prop :=
  match state.status with
  | .none => True
  | .multi => state.prev.il = 1 ∧ state.prev.outputStride = outputs rest
  | .input =>
    state.prev.inputStride = inputs rest ∧ state.prev.outputStride = outputs rest

def State.kinds (state : State) : List Kind :=
  match state.status with
  | .none => []
  | .multi => [.repeated]
  | .input => [.copied]

/-- A step that writes some entries and leaves the copies as they are. -/
structure Stepped (axis : Axis) (rest : List Axis) (kind : List Kind)
    (before after : State) : Prop where
  copies :
    ∀ tail, nest (after.entries ++ (after.pending ++ tail)) =
        nest (before.entries ++ (before.pending ++ (loopsOfAxis axis ++ tail)))
  follows : after.Follows rest
  within : before.entries.length ≤ MNN_MAX_TENSOR_DIM → after.entries.length ≤ MNN_MAX_TENSOR_DIM
  places :
    ∀ ended later, after.entries.length + Tile.places ended (after.kinds ++ later) =
        before.entries.length + Tile.places ended (before.kinds ++ (kind ++ later))

/-- Either there is place for what a step writes, or the axes need too many places. -/
def Steps (axis : Axis) (rest : List Axis) (kind : List Kind) (state : State)
    (result : Option State) : Prop :=
  match result with
  | some after => Stepped axis rest kind state after
  | none =>
    ∀ ended later, MNN_MAX_TENSOR_DIM <
        state.entries.length + Tile.places ended (state.kinds ++ (kind ++ later))

theorem put_cases (entries : List Loop) (entry : Loop) :
    put entries entry = some (entries ++ [entry]) ∧
        (entries ++ [entry]).length ≤ MNN_MAX_TENSOR_DIM ∨
      put entries entry = none ∧ MNN_MAX_TENSOR_DIM ≤ entries.length := by
  unfold put
  split
  · next hasPlace =>
      refine Or.inl ⟨rfl, ?_⟩
      rw [length_append]
      exact hasPlace
  · next isFull => exact Or.inr ⟨rfl, Nat.le_of_not_lt isFull⟩

variable {axis : Axis}

variable {rest : List Axis}

variable {state : State}

theorem steps_repeatAxis (isOne : axis.il = 1) (strided : Strided (axis :: rest))
    (follows : state.Follows (axis :: rest)) :
    Steps axis rest [.repeated] state (repeatAxis axis state) := by
  have isOutput : axis.outputStride = outputs rest := strided.1.2
  have dropped (entries tail : List Loop) (loop : Loop) :
      nest (entries ++ (loop :: ⟨axis.il, axis.inputStride, axis.outputStride⟩ :: tail)) =
        nest (entries ++ (loop :: tail)) :=
    nest_append_congr _ (nest_cons_congr _ (nest_unit isOne _))
  unfold repeatAxis
  obtain ⟨entries, status, prevInput, prevMulti, prev⟩ := state
  cases status with
  | none =>
    refine ⟨fun tail => ?_, ⟨isOne, isOutput⟩, id, fun ended later => ?_⟩
    · rw [one_mul]
      exact (dropped _ _ _).symm
    · rfl
  | multi =>
    refine ⟨fun tail => ?_, ⟨isOne, isOutput⟩, id, fun ended later => ?_⟩
    · have isPrev : prev.outputStride = axis.ml * axis.outputStride := by
        rw [follows.2, isOutput, outputs, map_cons, prod_cons, isOne, mul_one]
        rfl
      show nest (entries ++ (⟨_ * _, 0, _⟩ :: tail)) =
        nest (entries ++ (⟨_, 0, _⟩ :: ⟨_, 0, _⟩ :: ⟨_, _, _⟩ :: tail))
      refine nest_append_congr _ ?_
      rw [follows.1, isOne, isPrev, one_mul, one_mul]
      have isJoined := nest_split prevMulti axis.ml 0 (axis.outputStride : Nat) tail
      rw [isJoined, mul_zero, cast_mul]
      exact nest_cons_congr _ (nest_cons_congr _ (nest_unit rfl _).symm)
    · simp [State.kinds, places]
  | input =>
    rcases put_cases entries (State.inputEntry ⟨entries, .input, prevInput, prevMulti, prev⟩) with
      ⟨isPut, isWithin⟩ | ⟨isFull, isLong⟩
    · simp only [isPut, Option.map_some]
      refine ⟨fun tail => ?_, ⟨isOne, isOutput⟩, fun _ => isWithin, fun ended later => ?_⟩
      · rw [append_assoc]
        exact (nest_append_congr _ (dropped [_] tail _)).symm
      · simp [State.kinds, places, add_assoc]
    · simp only [isFull, Option.map_none]
      intro ended later
      simp [State.kinds, places]
      omega

theorem steps_copyAxis (isOne : axis.ml = 1) (strided : Strided (axis :: rest))
    (follows : state.Follows (axis :: rest)) :
    Steps axis rest [.copied] state (copyAxis axis state) := by
  have dropped (entries tail : List Loop) :
      nest (entries ++ (loopsOfAxis axis ++ tail)) =
        nest (entries ++ (⟨axis.il, axis.inputStride, axis.outputStride⟩ :: tail)) :=
    nest_append_congr _ (nest_unit isOne _)
  unfold copyAxis
  obtain ⟨entries, status, prevInput, prevMulti, prev⟩ := state
  cases status with
  | none =>
    refine ⟨fun tail => ?_, strided.1, id, fun ended later => ?_⟩
    · rw [one_mul]
      exact (dropped _ _).symm
    · rfl
  | input =>
    refine ⟨fun tail => ?_, strided.1, id, fun ended later => ?_⟩
    · have isSource : prev.inputStride = axis.il * axis.inputStride := by
        rw [follows.1, strided.1.1]
        rfl
      have isTarget : prev.outputStride = axis.il * axis.outputStride := by
        rw [follows.2, strided.1.2, outputs, map_cons, prod_cons, isOne, one_mul]
        rfl
      show nest (entries ++ (⟨_ * _, _, _⟩ :: tail)) =
        nest (entries ++ (⟨_, _, _⟩ :: ⟨_, 0, _⟩ :: ⟨_, _, _⟩ :: tail))
      refine nest_append_congr _ ?_
      have isJoined := nest_split prevInput axis.il axis.inputStride axis.outputStride tail
      rw [isJoined, isSource, isTarget, cast_mul, cast_mul]
      exact nest_cons_congr _ (nest_unit isOne _).symm
    · simp [State.kinds, places]
  | multi =>
    rcases put_cases entries (State.multiEntry ⟨entries, .multi, prevInput, prevMulti, prev⟩) with
      ⟨isPut, isWithin⟩ | ⟨isFull, isLong⟩
    · simp only [isPut, Option.map_some]
      refine ⟨fun tail => ?_, strided.1, fun _ => isWithin, fun ended later => ?_⟩
      · rw [append_assoc]
        exact (nest_append_congr _ (dropped [_] tail)).symm
      · simp [State.kinds, places, add_assoc]
    · simp only [isFull, Option.map_none]
      intro ended later
      simp [State.kinds, places]
      omega

/-- Two entries are written, unless there is place for at most one. -/
theorem put_put_cases (entries : List Loop) (first second : Loop) :
    (put entries first).bind (put · second) = some (entries ++ [first, second]) ∧
        (entries ++ [first, second]).length ≤ MNN_MAX_TENSOR_DIM ∨
      (put entries first).bind (put · second) = none ∧ MNN_MAX_TENSOR_DIM ≤ entries.length + 1 := by
  rcases put_cases entries first with ⟨isPut, -⟩ | ⟨isFull, isLong⟩
  · rw [isPut, Option.bind_some]
    rcases put_cases (entries ++ [first]) second with
      ⟨isNext, isWithin⟩ | ⟨isFull, isLong⟩
    · rw [append_assoc] at isNext isWithin
      exact Or.inl ⟨isNext, isWithin⟩
    · refine Or.inr ⟨isFull, ?_⟩
      rw [length_append] at isLong
      exact isLong
  · rw [isFull]
    exact Or.inr ⟨rfl, le_succ_of_le isLong⟩

theorem steps_repeatCopyAxis (strided : Strided (axis :: rest)) (follows : state.Follows (axis :: rest)) :
    Steps axis rest [.both] state (repeatCopyAxis axis state) := by
  have isTarget : outputs (axis :: rest) = axis.ml * (axis.il * axis.outputStride) := by
    rw [strided.1.2, ← mul_assoc]
    rfl
  unfold repeatCopyAxis
  obtain ⟨entries, status, prevInput, prevMulti, prev⟩ := state
  cases status with
  | none =>
    simp only [reduceCtorEq, if_false, Option.bind_eq_bind, Option.bind_some,
      Option.pure_def, ← Option.bind_assoc]
    rcases put_put_cases entries ⟨axis.ml, 0, (axis.il * axis.outputStride : Nat)⟩
        ⟨axis.il, axis.inputStride, axis.outputStride⟩ with
      ⟨isPut, isWithin⟩ | ⟨isFull, isLong⟩
    · rw [isPut]
      refine ⟨fun tail => ?_, trivial, fun _ => isWithin, fun ended later => ?_⟩
      · rw [append_assoc]
        rfl
      · simp [State.kinds, places, add_assoc]
    · rw [isFull]
      intro ended later
      simp [State.kinds, places]
      omega
  | multi =>
    rw [State.Follows, isTarget] at follows
    simp only [reduceCtorEq, if_true, if_false, Option.bind_eq_bind, Option.bind_some,
      Option.pure_def, ← Option.bind_assoc]
    rcases put_put_cases entries ⟨axis.ml * prevMulti, 0, (axis.il * axis.outputStride : Nat)⟩
        ⟨axis.il, axis.inputStride, axis.outputStride⟩ with
      ⟨isPut, isWithin⟩ | ⟨isFull, isLong⟩
    · rw [isPut]
      refine ⟨fun tail => ?_, trivial, fun _ => isWithin, fun ended later => ?_⟩
      · show nest (entries ++ [⟨_ * _, 0, _⟩, ⟨_, _, _⟩] ++ tail) =
          nest (entries ++ (⟨_, 0, _⟩ :: ⟨_, 0, _⟩ :: ⟨_, _, _⟩ :: tail))
        rw [append_assoc]
        refine nest_append_congr _ ?_
        have isJoined := nest_split prevMulti axis.ml 0 (axis.il * axis.outputStride : Nat)
            (⟨axis.il, axis.inputStride, axis.outputStride⟩ :: tail)
        rw [mul_zero, ← cast_mul] at isJoined
        rw [follows.1, follows.2, one_mul, mul_comm axis.ml prevMulti]
        exact isJoined
      · simp [State.kinds, places, add_assoc]
    · rw [isFull]
      intro ended later
      simp [State.kinds, places]
      omega
  | input =>
    simp only [reduceCtorEq, if_true, if_false, Option.bind_eq_bind, Option.bind_some,
      Option.pure_def, ← Option.bind_assoc]
    rcases put_cases entries (State.inputEntry ⟨entries, .input, prevInput, prevMulti, prev⟩) with ⟨isFirst, -⟩ | ⟨isFull, isLong⟩
    · rw [isFirst, Option.bind_some]
      rcases put_put_cases (entries ++ [_]) ⟨axis.ml, 0, (axis.il * axis.outputStride : Nat)⟩
          ⟨axis.il, axis.inputStride, axis.outputStride⟩ with
        ⟨isPut, isWithin⟩ | ⟨isFull, isLong⟩
      · rw [isPut]
        refine ⟨fun tail => ?_, trivial, fun _ => isWithin, fun ended later => ?_⟩
        · rw [append_assoc, append_assoc]
          rfl
        · simp [State.kinds, places]
          omega
      · rw [isFull]
        intro ended later
        rw [length_append] at isLong
        simp [State.kinds, places] at isLong ⊢
        omega
    · rw [isFull]
      intro ended later
      simp [State.kinds, places]
      omega

/-- What one axis that is not empty adds to the kinds. -/
def kindOf (axis : Axis) : List Kind :=
  if axis.il = 1 ∧ axis.ml = 1 then []
  else [if axis.il = 1 then .repeated else if axis.ml = 1 then .copied else .both]

theorem steps_tileAxis (notEmpty : ¬(axis.il = 0 ∨ axis.ml = 0)) (strided : Strided (axis :: rest))
    (follows : state.Follows (axis :: rest)) :
    Steps axis rest (kindOf axis) state (tileAxis axis state) := by
  rw [tileAxis, kindOf]
  by_cases isUnit : axis.il = 1 ∧ axis.ml = 1
  · rw [if_pos isUnit, if_pos isUnit]
    have isSource : inputs (axis :: rest) = inputs rest := by
      rw [inputs, map_cons, prod_cons, isUnit.1, one_mul]
      rfl
    have isTarget : outputs (axis :: rest) = outputs rest := by
      rw [outputs, map_cons, prod_cons, isUnit.1, isUnit.2, Nat.one_mul]
      rfl
    refine ⟨fun tail => ?_, ?_, id, fun ended later => rfl⟩
    · refine nest_append_congr _ (nest_append_congr _ ?_)
      exact ((nest_unit isUnit.2 _).trans (nest_unit isUnit.1 _)).symm
    · rw [State.Follows, isSource, isTarget] at follows
      exact follows
  · rw [if_neg isUnit, if_neg isUnit]
    by_cases isOne : axis.il = 1
    · have isRepeated : axis.il = 1 ∧ axis.ml > 1 := by omega
      rw [if_pos isOne, if_pos isRepeated]
      exact steps_repeatAxis isOne strided follows
    · have notRepeated : ¬(axis.il = 1 ∧ axis.ml > 1) := by omega
      rw [if_neg isOne, if_neg notRepeated]
      by_cases isOnce : axis.ml = 1
      · have isCopied : axis.il > 1 ∧ axis.ml = 1 := by omega
        rw [if_pos isOnce, if_pos isCopied]
        exact steps_copyAxis isOnce strided follows
      · have notCopied : ¬(axis.il > 1 ∧ axis.ml = 1) := by omega
        rw [if_neg isOnce, if_neg notCopied]
        exact steps_repeatCopyAxis strided follows

/-! ## All axes -/

/-- What the scan of some axes leaves. -/
def Scanned (tiling : List Tiling) (state : State) : Option (Option (List Loop)) → Prop
  | none =>
    MNN_MAX_TENSOR_DIM < state.entries.length +
        places (kinds tiling).2 (state.kinds ++ (kinds tiling).1)
  | some result =>
    state.entries.length + places (kinds tiling).2 (state.kinds ++ (kinds tiling).1) ≤
        MNN_MAX_TENSOR_DIM ∧
      (match result with | none => [] | some entries => nest entries) =
        nest (state.entries ++ (state.pending ++ loops (axesOf tiling)))

theorem scanned_finish (isWithin : state.entries.length ≤ MNN_MAX_TENSOR_DIM) :
    Scanned [] state ((finish state).map some) := by
  have isEnd (tail : List Loop) : tail ++ loops (axesOf []) = tail := append_nil _
  unfold finish
  cases isStatus : state.status with
  | none =>
    simp only [Option.map_some]
    refine ⟨?_, ?_⟩
    · rw [State.kinds, isStatus]
      exact isWithin
    · rw [isEnd, State.pending, isStatus, append_nil]
  | multi =>
    simp only
    rcases put_cases state.entries state.multiEntry with
      ⟨isPut, isNext⟩ | ⟨isFull, isLong⟩
    · rw [isPut, Option.map_some]
      refine ⟨?_, ?_⟩
      · rw [length_append] at isNext
        rw [State.kinds, isStatus]
        exact isNext
      · rw [isEnd, State.pending, isStatus]
    · rw [isFull, Option.map_none, Scanned, State.kinds, isStatus]
      exact lt_succ_of_le isLong
  | input =>
    simp only
    rcases put_cases state.entries state.inputEntry with
      ⟨isPut, isNext⟩ | ⟨isFull, isLong⟩
    · rw [isPut, Option.map_some]
      refine ⟨?_, ?_⟩
      · rw [length_append] at isNext
        rw [State.kinds, isStatus]
        exact isNext
      · rw [isEnd, State.pending, isStatus]
    · rw [isFull, Option.map_none, Scanned, State.kinds, isStatus]
      exact lt_succ_of_le isLong

theorem kinds_cons {tile : Tiling} (notEmpty : ¬(tile.1 = 0 ∨ tile.2 = 0))
    (inputStride outputStride : Nat) (rest : List Tiling) :
    kinds (tile :: rest) = (kindOf ⟨tile.1, tile.2, inputStride, outputStride⟩ ++ (kinds rest).1,
        (kinds rest).2) := by
  rw [kinds, if_neg notEmpty, kindOf]
  split
  · rfl
  · rfl

theorem places_ended (state : State) : places false (state.kinds ++ []) = 0 := by
  rw [append_nil, State.kinds]
  cases state.status with
  | none => rfl
  | multi => rfl
  | input => rfl

theorem scanned_tileAxes (state : State) (follows : state.Follows (axesOf tiling))
    (isWithin : state.entries.length ≤ MNN_MAX_TENSOR_DIM) :
    Scanned tiling state (tileAxes (axesOf tiling) state) := by
  induction tiling generalizing state with
  | nil => exact scanned_finish isWithin
  | cons tile rest ih =>
    have strided := (strided_axesOf (tile :: rest)).1
    have areAxes := axesOf_cons tile rest
    rw [areAxes] at follows strided ⊢
    rw [tileAxes]
    by_cases isEmpty : tile.1 = 0 ∨ tile.2 = 0
    · rw [if_pos isEmpty]
      refine ⟨?_, ?_⟩
      · rw [kinds, if_pos isEmpty, places_ended]
        exact isWithin
      · rw [areAxes]
        refine (nest_empty ?_).symm
        rcases isEmpty with isZero | isZero
        · exact ⟨_, mem_append_right _ (mem_append_right _
            (mem_cons_of_mem _ mem_cons_self)), isZero⟩
        · exact ⟨_, mem_append_right _ (mem_append_cons_self), isZero⟩
    · rw [if_neg isEmpty]
      have areKinds := kinds_cons isEmpty (inputShape rest).prod (outputShape rest).prod rest
      have steps := steps_tileAxis isEmpty strided follows
      cases isStep : tileAxis ⟨tile.1, tile.2, (inputShape rest).prod, (outputShape rest).prod⟩
            state with
      | none =>
        rw [isStep] at steps
        rw [Option.bind_none, Scanned, areKinds]
        exact steps _ _
      | some after =>
        rw [isStep] at steps
        have scanned := ih after steps.follows (steps.within isWithin)
        have isPlaces := steps.places (kinds rest).2 (kinds rest).1
        rw [Option.bind_some]
        cases isRun : tileAxes (axesOf rest) after with
        | none =>
          rw [isRun, Scanned, isPlaces] at scanned
          rw [Scanned, areKinds]
          exact scanned
        | some result =>
          rw [isRun] at scanned
          rcases scanned with ⟨fits, areMoves⟩
          rw [isPlaces] at fits
          rw [steps.copies] at areMoves
          refine ⟨?_, ?_⟩
          · rw [areKinds]
            exact fits
          · rw [areAxes]
            exact areMoves

/-! ## Regions -/

theorem getD_map_lastThree (loops : List Loop) (isLong : 3 ≤ loops.length)
    (value : Loop → Int) (default : Int) (v : Fin 3) :
    (loops.map value).getD (v.val + (loops.length - 3)) default =
      lastThree loops.length (loops.map value) v := by
  have isPlace : loops.length + v.val - 3 = v.val + (loops.length - 3) := by omega
  have isInside : v.val + (loops.length - 3) < (loops.map value).length := by
    rw [length_map]
    omega
  rw [lastThree, if_pos (by omega), isPlace, getD_eq_getElem?_getD,
    getD_eq_getElem?_getD, getElem?_eq_getElem isInside, Option.getD_some,
    Option.getD_some]

variable (input : TensorPtr)

theorem movesOf_regionsOf (entries : List Loop) :
    movesOf (regionsOf input entries) = nest entries := by
  have isUnit (count : Nat) : nest (List.replicate count ⟨1, 0, 0⟩) = nest [] := by
    induction count with
    | zero => rfl
    | succ count ih => rw [replicate_succ, nest_unit rfl, ih]
  have isPadded :
      nest (entries ++ List.replicate (3 - entries.length) ⟨1, 0, 0⟩) = nest entries := by
    rw [nest_append_congr _ (isUnit _), append_nil]
  have isLong : 3 ≤ (entries ++ List.replicate (3 - entries.length) (⟨1, 0, 0⟩ : Loop)).length := by
    rw [length_append, length_replicate]
    omega
  rw [← isPadded]
  unfold regionsOf
  generalize entries ++ List.replicate (3 - entries.length) ⟨1, 0, 0⟩ = padded at isLong ⊢
  have isSize (v : Fin 3) :
      (((padded.map Loop.size).getD (v.val + (padded.length - 3)) 0 : Nat) : Int) =
        lastThree padded.length (padded.map fun loop => (loop.size : Int)) v := by
    rw [← getD_map_lastThree padded isLong _ 0, getD_eq_getElem?_getD,
      getD_eq_getElem?_getD, getElem?_map, getElem?_map]
    cases padded[v.val + (padded.length - 3)]? with
    | none => rfl
    | some loop => rfl
  simp only [getD_map_lastThree padded isLong, isSize, computeStride_eq, unravelIndexHelper_strides]
  exact movesOf_lastThree padded input

theorem origin_regionsOf (entries : List Loop) :
    ∀ reg ∈ regionsOf input entries, reg.origin = some input := by
  intro reg isIn
  rcases mem_map.mp isIn with ⟨u, -, rfl⟩
  rfl

/-- What tiling does: it fails, or its copies are those that are asked for. -/
theorem onCompute_cases (tiling : List Tiling) :
    onCompute input tiling = none ∧ MNN_MAX_TENSOR_DIM < placesOf tiling ∨ ∃ regions,
        onCompute input tiling = some regions ∧ placesOf tiling ≤ MNN_MAX_TENSOR_DIM ∧
          Exact regions input (inputShape tiling) (outputShape tiling) (pick tiling) := by
  have scanned := scanned_tileAxes tiling ⟨[], .none, 1, 1, ⟨1, 1, 1, 1⟩⟩ trivial (zero_le _)
  rw [onCompute]
  cases isRun : tileAxes (axesOf tiling) ⟨[], .none, 1, 1, ⟨1, 1, 1, 1⟩⟩ with
  | none =>
    rw [isRun, Scanned] at scanned
    refine Or.inl ⟨rfl, ?_⟩
    rw [length_nil, zero_add] at scanned
    exact scanned
  | some result =>
    rw [isRun] at scanned
    rcases scanned with ⟨fits, areMoves⟩
    rw [length_nil, zero_add] at fits
    refine Or.inr ⟨_, rfl, fits, ?_, ?_⟩
    · cases result with
      | none => exact forall_mem_nil _
      | some entries => exact origin_regionsOf input entries
    · rw [asked_eq_nest]
      refine .of_eq (Eq.trans ?_ areMoves)
      cases result with
      | none => rfl
      | some entries => exact movesOf_regionsOf input entries

end Mnn.Geometry.Tile
