import Mnn.Geometry.Pad

/-!
# The regions of a padded tensor

The outer axes are enumerated.  What is inside comes from the center of each axis; each
other region takes at least one side of the last three axes.
-/

variable {inner : List Placed}

namespace Mnn.Geometry.Pad

open Mnn.Core.Raster
open Mnn.Foundation.LoopNests
open Mnn.Foundation.MarkedMoves
open List

/-! ## Regions of runs -/

theorem lastThree_map (values : List Int) (change : Int → Int) (keeps : change 1 = 1)
    (count : Nat) (i : Fin 3) :
    lastThree count (values.map change) i = change (lastThree count values i) := by
  rw [lastThree, lastThree]
  split
  · rw [getD_eq_getElem?_getD, getD_eq_getElem?_getD, getElem?_map]
    cases values[count + i.val - 3]? with
    | none => exact keeps.symm
    | some value => rfl
  · exact keeps.symm

theorem nest_runs {runs : List Run} (isShort : runs.length ≤ 3) : nest
        [⟨(lastThree runs.length (runs.map fun run => (run.loop.size : Int)) 0).toNat,
            lastThree runs.length (runs.map fun run => run.loop.left) 0,
            lastThree runs.length (runs.map fun run => run.loop.right) 0⟩,
          ⟨(lastThree runs.length (runs.map fun run => (run.loop.size : Int)) 1).toNat,
            lastThree runs.length (runs.map fun run => run.loop.left) 1,
            lastThree runs.length (runs.map fun run => run.loop.right) 1⟩,
          ⟨(lastThree runs.length (runs.map fun run => (run.loop.size : Int)) 2).toNat,
            lastThree runs.length (runs.map fun run => run.loop.left) 2,
            lastThree runs.length (runs.map fun run => run.loop.right) 2⟩] =
      nest (runs.map Run.loop) := by
  have isNest := nest_lastThree (runs.map Run.loop)
  have isNone : runs.length - 3 = 0 := by omega
  rw [length_map, isNone, drop_zero] at isNest
  simp only [map_map] at isNest
  exact isNest

theorem writesOf_runs {reg : Region} {runs : List Run} {left right : Int}
    (isShort : runs.length ≤ 3) (isSource : reg.src.offset = left + (runs.map Run.left).sum)
    (isTarget : reg.dst.offset = right + (runs.map Run.right).sum)
    (areSizes :
      ∀ i, (reg.size i).toNat =
          (lastThree runs.length (runs.map fun run => (run.loop.size : Int)) i).toNat)
    (areLeft : reg.src.stride = lastThree runs.length (runs.map fun run => run.loop.left))
    (areRight : reg.dst.stride = lastThree runs.length (runs.map fun run => run.loop.right)) :
    writesOf [reg] = (cross (runs.map Run.moves)).map fun move =>
        ((reg.origin, left + move.left), right + move.right) := by
  have isMoves : reg.moves = shifted left right
          ((cross (runs.map Run.moves)).map fun move => (move.left, move.right)) := by
    rw [moves_eq_nest, loopsOf, areSizes, areSizes, areSizes, areLeft, areRight,
      nest_runs isShort, isSource, isTarget, cross_runs, shifted_shifted]
  rw [writesOf, flatMap_singleton, isMoves, shifted, map_map, map_map]
  rfl

/-- The same for a region that stays at one place of its source. -/
theorem writesOf_still {reg : Region} {runs : List Run} {right : Int}
    (isShort : runs.length ≤ 3) (isSource : reg.src = { offset := 0, stride := ![0, 0, 0] })
    (isTarget : reg.dst.offset = right + (runs.map Run.right).sum)
    (areSizes :
      ∀ i, (reg.size i).toNat =
          (lastThree runs.length (runs.map fun run => (run.loop.size : Int)) i).toNat)
    (areRight : reg.dst.stride = lastThree runs.length (runs.map fun run => run.loop.right)) :
    writesOf [reg] = (cross (runs.map Run.moves)).map fun move =>
        ((reg.origin, 0), right + move.right) := by
  have isStill : nest (loopsOf reg) = (nest (runs.map Run.loop)).map fun move => (0, move.2) := by
    rw [← nest_runs isShort, ← nest_still, loopsOf, areSizes, areSizes, areSizes, areRight,
      isSource]
    rfl
  have areTargets :
      (nest (runs.map Run.loop)).map (fun move => (runs.map Run.right).sum + move.2) =
        (cross (runs.map Run.moves)).map Move.right := by
    have isCross := congrArg (List.map Prod.snd) (cross_runs runs)
    rw [shifted, map_map, map_map] at isCross
    exact isCross.symm
  rw [writesOf, flatMap_singleton, moves_eq_nest, isStill, isSource, isTarget, shifted,
    map_map, map_map]
  calc
    _ = ((nest (runs.map Run.loop)).map fun move =>
            (runs.map Run.right).sum + move.2).map
          fun place => ((reg.origin, (0 : Int)), right + place) := by
      rw [map_map]
      refine map_congr_left fun move _ => ?_
      simp [add_assoc]
    _ = _ := by
      rw [areTargets, map_map]
      rfl

theorem left_joined {Item : Type} (move : Item → Nat → Move) (items : List Item)
    (cords : List Nat) :
    (joined move items cords).left =
      sumOver (fun item cord => (move item cord).left) items cords := by
  induction items generalizing cords with
  | nil => rfl
  | cons item items ih =>
    cases cords with
    | nil => rfl
    | cons cord cords =>
      rw [joined, Move.join, ih, sumOver, sumOver, zipWith_cons_cons, sum_cons]

theorem right_joined {Item : Type} (move : Item → Nat → Move) (items : List Item)
    (cords : List Nat) :
    (joined move items cords).right =
      sumOver (fun item cord => (move item cord).right) items cords := by
  induction items generalizing cords with
  | nil => rfl
  | cons item items ih =>
    cases cords with
    | nil => rfl
    | cons cord cords =>
      rw [joined, Move.join, ih, sumOver, sumOver, zipWith_cons_cons, sum_cons]

theorem sumOver_map {First Second : Type} (change : First → Second)
    (value : Second → Nat → Int) (items : List First) (cords : List Nat) :
    sumOver value (items.map change) cords =
      sumOver (fun item cord => value (change item) cord) items cords := by
  rw [sumOver, zipWith_map_left]
  rfl

/-! ## The center -/

def centerRun (axis : Placed) : Run := (centerPart axis.padAxis).run true

def centerMove (axis : Placed) (i : Nat) : Move :=
  ⟨0 + i * axis.inputStride, axis.axis.pad * axis.outputStride + i * axis.outputStride, true⟩

theorem moves_centerRun (axis : Placed) :
    (centerRun axis).moves = (List.range axis.axis.input).map (centerMove axis) :=
  rfl

theorem writesOf_offsetRegion (input : TensorPtr) (outer : List Placed)
    (isShort : inner.length ≤ 3) (cords : List Nat) :
    writesOf [revertRegion
          (offsetRegion input (outer.map Placed.strided) (inner.map Placed.strided) cords)] =
      (cross (inner.map fun axis => (centerRun axis).moves)).map fun move =>
        ((some input, (joined centerMove outer cords).left + move.left),
          (joined centerMove outer cords).right + move.right) := by
  have isPadded (axis : Placed) : axis.strided.offset ≥ 0 := Int.natCast_nonneg _
  have isWhole (axis : Placed) : commonSize axis.strided = axis.axis.input := by
    have isRight : ¬axis.strided.rightOffset < 0 :=
      not_lt_of_ge (Int.natCast_nonneg axis.axis.padRight)
    rw [commonSize, if_neg isRight, if_pos (isPadded axis)]
    rfl
  have writes := @writesOf_runs (revertRegion
        (offsetRegion input (outer.map Placed.strided) (inner.map Placed.strided) cords))
      (inner.map centerRun) (joined centerMove outer cords).left
      (joined centerMove outer cords).right
  rw [length_map, map_map, map_map, map_map, map_map, map_map, map_map] at writes
  refine writes isShort ?_ ?_ (fun i => ?_) ?_ ?_
  · show sumOver _ (outer.map Placed.strided) cords + _ = _
    rw [sumOver_map, left_joined, map_map]
    refine congrArg₂ (· + ·) ?_ ?_
    · refine congrArg (fun value => sumOver value outer cords) ?_
      funext axis cord
      exact (Int.zero_add _).symm
    · refine congrArg List.sum (map_congr_left fun axis _ => ?_)
      rw [Function.comp_apply, if_pos (isPadded axis)]
      rfl
  · show sumOver _ (outer.map Placed.strided) cords + _ = _
    rw [sumOver_map, right_joined, map_map]
    refine congrArg₂ (· + ·) ?_ ?_
    · refine congrArg (fun value => sumOver value outer cords) ?_
      funext axis cord
      show ((cord : Int) + axis.axis.pad) * axis.outputStride = _
      rw [centerMove]
      ring
    · refine congrArg List.sum (map_congr_left fun axis _ => ?_)
      rw [Function.comp_apply, if_pos (isPadded axis)]
      rfl
  · show (lastThree (inner.map Placed.strided).length
      ((inner.map Placed.strided).map commonSize) i).toNat = _
    rw [length_map, map_map]
    refine congrArg (fun sizes => (lastThree inner.length sizes i).toNat) ?_
    refine map_congr_left fun axis _ => ?_
    exact isWhole axis
  · show lastThree (inner.map Placed.strided).length _ = _
    rw [length_map, map_map]
    rfl
  · show lastThree (inner.map Placed.strided).length _ = _
    rw [length_map, map_map]
    rfl

theorem isValid_strided {outer : List Placed} {cords : List Nat}
    (isIn : cords ∈ boxIndices (outer.map fun axis => axis.axis.input)) :
    isValid (outer.map Placed.strided) cords = true := by
  induction outer generalizing cords with
  | nil => rfl
  | cons axis outer ih =>
    rcases mem_flatMap.mp isIn with ⟨cord, isCord, isIn⟩
    rcases mem_map.mp isIn with ⟨rest, isRest, rfl⟩
    have less : cord < axis.axis.input := mem_range.mp isCord
    have isFirst : (!decide (axis.strided.offset + cord < 0) &&
          !decide (cord - axis.strided.rightOffset ≥ axis.strided.outputDim)) = true := by
      have isOffset : axis.strided.offset = axis.axis.pad := rfl
      have isRight : axis.strided.rightOffset = axis.axis.padRight := rfl
      have isDim : axis.strided.outputDim = axis.axis.input := rfl
      rw [isOffset, isRight, isDim, decide_eq_false (by omega), decide_eq_false (by omega)]
      rfl
    have isLater := ih isRest
    rw [isValid] at isLater ⊢
    rw [map_cons, zip_cons_cons, all_cons, isLater, Bool.and_true]
    exact isFirst

theorem writesOf_center (input : TensorPtr) (axes : List Placed) :
    writesOf ((offsetRegions input (axes.map Placed.strided)).map revertRegion) =
      (cross (axes.map fun axis => (centerRun axis).moves)).map fun move =>
        ((some input, move.left), move.right) := by
  have isShort : (axes.drop (axes.length - 3)).length ≤ 3 := by
    rw [length_drop]
    omega
  have isWhole := take_append_drop (axes.length - 3) axes
  have areCords (outer : List Placed) :
      (List.range (outer.map fun axis => axis.axis.input).prod).map
          (unravelIndexHelper (strides (outer.map fun axis => axis.axis.input))) =
        boxIndices (outer.map fun axis => axis.axis.input) := by
    rw [← map_unravel]
    refine map_congr_left fun number _ => ?_
    rw [unravelIndexHelper_strides]
  rw [offsetRegions, length_map, ← map_take, ← map_drop]
  generalize axes.take (axes.length - 3) = outer at isWhole
  generalize axes.drop (axes.length - 3) = inner at isWhole isShort
  subst isWhole
  have isBox :
      cross (outer.map fun axis => (centerRun axis).moves) =
        (boxIndices (outer.map fun axis => axis.axis.input)).map (joined centerMove outer) :=
    cross_box (fun axis : Placed => axis.axis.input) centerMove outer
  have areDims :
      (outer.map Placed.strided).map (fun axis => axis.outputDim) =
        outer.map fun axis => axis.axis.input := by
    rw [map_map]
    rfl
  rw [map_append, cross_append, isBox, flatMap_map, map_flatMap]
  simp only [areDims, computeStride_eq, areCords]
  rw [filter_eq_self.mpr fun cords isIn => isValid_strided isIn, map_map, writesOf,
    flatMap_map]
  refine flatMap_congr fun cords isIn => ?_
  have writes := writesOf_offsetRegion input outer isShort cords
  rw [writesOf, flatMap_singleton] at writes
  rw [map_map]
  exact writes

/-! ## The sides -/

/-- Where the outer axes look for the places of the output. -/
def triedMove (mode : PadValueMode) (axis : Placed) (cord : Nat) : Move :=
  ⟨inputPos (extraSub mode) axis.padAxis cord * axis.inputStride, cord * axis.outputStride,
    axis.axis.inside cord⟩

/-- The runs of the parts that are chosen. -/
def runsAt (mode : PadValueMode) (inner : List Placed) (padCord : List Nat) : List Run :=
  List.zipWith (fun axis cord => (partAt mode (extraSub mode) axis.padAxis cord).run (cord == 0))
    inner padCord

variable (mode : PadValueMode)

theorem choose_alternatives (inner : List Placed) (padCord : List Nat) :
    choose (inner.map (Placed.alternatives mode)) padCord =
      cross ((runsAt mode inner padCord).map Run.moves) := by
  rw [Foundation.MarkedMoves.choose, zipWith_map_right, zipWith_comm, runsAt, map_zipWith]
  rfl

theorem writesOf_padRegionAt (padInput : TensorPtr) (sStrideDiff : Int) (outer : List Placed)
    (isShort : inner.length ≤ 3) (cords padCord : List Nat) :
    writesOf [padRegionAt mode (extraSub mode) padInput sStrideDiff (outer.map Placed.padAxis)
          (inner.map Placed.padAxis) cords padCord] =
      (choose (inner.map (Placed.alternatives mode)) padCord).map fun move =>
        ((some padInput,
            if sStrideDiff = 0 then 0
            else (joined (triedMove mode) outer cords).left + move.left),
          (joined (triedMove mode) outer cords).right + move.right) := by
  have areParts {Value : Type} (ofPart : Part → Value) (ofRun : Run → Value)
      (same : ∀ part marked, ofPart part = ofRun (Part.run part marked)) :
      (List.zipWith (partAt mode (extraSub mode)) (inner.map Placed.padAxis) padCord).map ofPart =
        (runsAt mode inner padCord).map ofRun := by
    rw [zipWith_map_left, map_zipWith, runsAt, map_zipWith]
    congr 1
    funext axis cord
    exact same _ _
  have sameLength : (List.zipWith (partAt mode (extraSub mode)) (inner.map Placed.padAxis)
          padCord).length =
        (runsAt mode inner padCord).length := by
    rw [length_zipWith, runsAt, length_zipWith, length_map]
  have isShort' : (runsAt mode inner padCord).length ≤ 3 := by
    rw [runsAt, length_zipWith]
    exact (min_le_left _ _).trans isShort
  have isTarget : sumOver (fun axis cord => (cord : Int) * axis.outputStride)
            (outer.map Placed.padAxis) cords +
          ((List.zipWith (partAt mode (extraSub mode)) (inner.map Placed.padAxis)
            padCord).map Part.dstOffset).sum =
        (joined (triedMove mode) outer cords).right +
          ((runsAt mode inner padCord).map Run.right).sum := by
    rw [areParts Part.dstOffset Run.right fun _ _ => rfl, sumOver_map, right_joined]
    rfl
  have areSizes (i : Fin 3) : (lastThree
            (List.zipWith (partAt mode (extraSub mode)) (inner.map Placed.padAxis) padCord).length
            ((List.zipWith (partAt mode (extraSub mode)) (inner.map Placed.padAxis)
              padCord).map Part.size) i).toNat =
        (lastThree (runsAt mode inner padCord).length
          ((runsAt mode inner padCord).map fun run => (run.loop.size : Int)) i).toNat := by
    have isCount :
        (runsAt mode inner padCord).map (fun run => (run.loop.size : Int)) =
          ((List.zipWith (partAt mode (extraSub mode)) (inner.map Placed.padAxis)
            padCord).map Part.size).map fun size => (size.toNat : Int) := by
      rw [map_map]
      exact (areParts _ _ fun _ _ => rfl).symm
    rw [isCount, sameLength, lastThree_map _ _ rfl, Int.toNat_natCast]
  have areRight : lastThree (List.zipWith (partAt mode (extraSub mode)) (inner.map Placed.padAxis)
            padCord).length
          ((List.zipWith (partAt mode (extraSub mode)) (inner.map Placed.padAxis)
            padCord).map Part.dstStride) =
        lastThree (runsAt mode inner padCord).length
          ((runsAt mode inner padCord).map fun run => run.loop.right) := by
    rw [sameLength]
    exact congrArg _ (areParts _ _ fun _ _ => rfl)
  rw [choose_alternatives]
  by_cases isStill : sStrideDiff = 0
  · simp only [if_pos isStill]
    exact writesOf_still isShort' (if_pos isStill) isTarget areSizes areRight
  · simp only [if_neg isStill]
    refine writesOf_runs isShort' ?_ isTarget areSizes ?_ areRight
    · rw [padRegionAt, if_neg isStill]
      show sumOver _ (outer.map Placed.padAxis) cords + _ = _
      rw [areParts Part.srcOffset Run.left fun _ _ => rfl, sumOver_map, left_joined]
      rfl
    · rw [padRegionAt, if_neg isStill]
      show lastThree _ _ = _
      rw [sameLength]
      exact congrArg _ (areParts _ _ fun _ _ => rfl)

/-! ## All choices -/

theorem range_pred_eq_tail (sizes : List Nat) :
    (List.range (sizes.prod - 1)).map (fun index => unravel sizes (index + 1)) =
      (boxIndices sizes).tail := by
  rw [← map_unravel]
  cases sizes.prod with
  | zero => rfl
  | succ count =>
    rw [range_succ_eq_map, map_cons, tail_cons, map_map]
    rfl

theorem nodup_boxIndices (sizes : List Nat) : (boxIndices sizes).Nodup := by
  refine List.Nodup.of_map (address sizes) ?_
  rw [map_address]
  exact nodup_range.map fun _ _ same => Int.natCast_inj.mp same

theorem unravel_zero (sizes : List Nat) : unravel sizes 0 = List.replicate sizes.length 0 := by
  induction sizes with
  | nil => rfl
  | cons size sizes ih =>
    rw [unravel, Nat.zero_div, Nat.zero_mod, ih]
    rfl

theorem boxIndices_eq_cons {sizes : List Nat} (positive : ∀ size ∈ sizes, 0 < size) :
    boxIndices sizes = List.replicate sizes.length 0 :: (boxIndices sizes).tail := by
  have hasSome : 0 < sizes.prod := pos_of_ne_zero fun isZero =>
    absurd (prod_eq_zero_iff.mp isZero) fun isIn => lt_irrefl 0 (positive 0 isIn)
  rw [← map_unravel]
  obtain ⟨count, isCount⟩ := Nat.exists_eq_add_of_lt hasSome
  rw [zero_add] at isCount
  rw [isCount, range_succ_eq_map, map_cons, tail_cons, unravel_zero]

theorem marked_runMoves {run : Run} {move : Move} (isIn : move ∈ run.moves) :
    move.marked = run.marked := by
  rcases mem_map.mp isIn with ⟨i, -, rfl⟩
  rfl

variable {mode : PadValueMode}

theorem marked_choose {padCord : List Nat}
    {move : Move} (sameLength : padCord.length = inner.length)
    (isIn : move ∈ choose (inner.map (Placed.alternatives mode)) padCord) :
    move.marked = padCord.all (· == 0) := by
  induction inner generalizing padCord move with
  | nil =>
    obtain rfl := eq_nil_of_length_eq_zero sameLength
    obtain rfl := mem_singleton.mp isIn
    rfl
  | cons axis inner ih =>
    cases padCord with
    | nil => cases sameLength
    | cons cord padCord =>
      rcases mem_flatMap.mp isIn with ⟨first, isFirst, isIn⟩
      rcases mem_map.mp isIn with ⟨later, isLater, rfl⟩
      rw [Move.join, marked_runMoves isFirst, ih (Nat.succ.inj sameLength) isLater, all_cons]
      rfl

theorem moves_eq_cross (inner : List Placed) :
    cross (inner.map (Placed.moves mode)) =
      (boxIndices (inner.map fun axis => axis.axis.output)).map (joined (Placed.move mode) inner) :=
  cross_box (fun axis : Placed => axis.axis.output) (Placed.move mode) inner

/-- What is chosen but for the center of all axes is what is not inside. -/
theorem sides_perm (permitted : ∀ axis ∈ inner, axis.axis.Permitted mode) :
    ((boxIndices (inner.map fun axis => axis.padAxis.padRegion)).tail.flatMap
        (choose (inner.map (Placed.alternatives mode)))).Perm
      ((cross (inner.map (Placed.moves mode))).filter fun move => !move.marked) := by
  have isCounts :
      inner.map (fun axis => axis.padAxis.padRegion) =
        (inner.map (Placed.alternatives mode)).map Alternatives.count := by
    rw [map_map]
    rfl
  have positive : ∀ size ∈ inner.map fun axis => axis.padAxis.padRegion, 0 < size := by
    intro size isIn
    rcases mem_map.mp isIn with ⟨axis, -, rfl⟩
    rw [PadAxis.padRegion, add_assoc]
    exact Nat.lt_add_right _ one_pos
  have isCons := boxIndices_eq_cons positive
  have distinct := nodup_boxIndices (inner.map fun axis => axis.padAxis.padRegion)
  rw [isCons, nodup_cons] at distinct
  have all : ((boxIndices (inner.map fun axis => axis.padAxis.padRegion)).flatMap
          (choose (inner.map (Placed.alternatives mode)))).Perm
        (cross (inner.map (Placed.moves mode))) := by
    rw [isCounts]
    refine (flatMap_choose _).trans (cross_perm ?_)
    rw [map_map, forall₂_map_left_iff, forall₂_map_right_iff, forall₂_same]
    exact fun axis isIn => all_alternatives (permitted axis isIn)
  refine List.Perm.trans ?_ (all.filter _)
  have isLength {padCord : List Nat}
      (isIn : padCord ∈ boxIndices (inner.map fun axis => axis.padAxis.padRegion)) :
      padCord.length = inner.length := by
    rw [length_of_mem_boxIndices isIn, length_map]
  have noCenter : (choose (inner.map (Placed.alternatives mode))
          (List.replicate (inner.map fun axis => axis.padAxis.padRegion).length 0)).filter
        (fun move => !move.marked) = [] := by
    refine filter_eq_nil_iff.mpr fun move isIn => ?_
    rw [marked_choose (by rw [length_replicate, length_map]) isIn]
    simp
  have allSides : ((boxIndices (inner.map fun axis => axis.padAxis.padRegion)).tail.flatMap
          (choose (inner.map (Placed.alternatives mode)))).filter
          (fun move => !move.marked) =
        (boxIndices (inner.map fun axis => axis.padAxis.padRegion)).tail.flatMap
          (choose (inner.map (Placed.alternatives mode))) := by
    refine filter_eq_self.mpr fun move isIn => ?_
    rcases mem_flatMap.mp isIn with ⟨padCord, isTail, isIn⟩
    have sameLength := isLength (mem_of_mem_tail isTail)
    rw [marked_choose sameLength isIn, Bool.not_eq_true', all_eq_false]
    by_contra noSide
    push Not at noSide
    have isCenter :
        padCord = List.replicate (inner.map fun axis => axis.padAxis.padRegion).length 0 := by
      rw [length_map, ← sameLength]
      refine eq_replicate_iff.mpr ⟨rfl, fun cord isCord => ?_⟩
      exact eq_of_beq (noSide cord isCord)
    rw [isCenter] at isTail
    exact distinct.1 isTail
  rw [isCons, flatMap_cons, filter_append, noCenter, nil_append, tail_cons, allSides]

/-- For all outer coordinates, what is not inside on the last three axes is written. -/
theorem writesOf_padRegions (padInput : TensorPtr) (sStrideDiff : Int) {axes : List Placed}
    (permitted : ∀ axis ∈ axes, axis.axis.Permitted mode) :
    (writesOf (padRegions mode padInput sStrideDiff (axes.map Placed.padAxis))).Perm ((cross
            ((axes.take (axes.length - 3)).map fun axis =>
              (List.range axis.axis.output).map (triedMove mode axis))).flatMap
        fun outside =>
          ((cross ((axes.drop (axes.length - 3)).map (Placed.moves mode))).filter
              fun move => !move.marked).map
            fun move =>
              ((some padInput, if sStrideDiff = 0 then 0 else outside.left + move.left),
                outside.right + move.right)) := by
  have isShort : (axes.drop (axes.length - 3)).length ≤ 3 := by
    rw [length_drop]
    omega
  have permitted' : ∀ axis ∈ axes.drop (axes.length - 3), axis.axis.Permitted mode :=
    fun axis isIn => permitted axis (mem_of_mem_drop isIn)
  rw [padRegions, length_map, ← map_take, ← map_drop]
  generalize axes.take (axes.length - 3) = outer
  generalize axes.drop (axes.length - 3) = inner at isShort permitted'
  have isBox : cross
          (outer.map fun axis => (List.range axis.axis.output).map (triedMove mode axis)) =
        (boxIndices (outer.map fun axis => axis.axis.output)).map (joined (triedMove mode) outer) :=
    cross_box (fun axis : Placed => axis.axis.output) (triedMove mode) outer
  have areDims :
      (outer.map Placed.padAxis).map PadAxis.outputDim =
        outer.map fun axis => axis.axis.output := by
    rw [map_map]
    rfl
  have areCounts :
      (inner.map Placed.padAxis).map PadAxis.padRegion =
        inner.map fun axis => axis.padAxis.padRegion := by
    rw [map_map]
    rfl
  rw [isBox, flatMap_map, ← map_unravel, flatMap_map]
  simp only [areDims, areCounts, computeStride_eq, unravelIndexHelper_strides]
  rw [writesOf_flatMap]
  refine List.Perm.flatMap_left _ fun number _ => ?_
  rw [writesOf, flatMap_map]
  refine List.Perm.trans ?_ ((sides_perm permitted').map _)
  rw [← range_pred_eq_tail, flatMap_map, map_flatMap]
  refine List.Perm.flatMap_left _ fun index _ => ?_
  have writes := writesOf_padRegionAt mode padInput sStrideDiff outer isShort
      (unravel (outer.map fun axis => axis.axis.output) number)
      (unravel (inner.map fun axis => axis.padAxis.padRegion) (index + 1))
  rw [writesOf, flatMap_singleton] at writes
  exact List.Perm.of_eq writes

end Mnn.Geometry.Pad
