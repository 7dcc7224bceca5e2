import Mnn.Core.FuseAxes

/-!
# Fusing by computed axes

Without the shortcut `match` compares the two regions axis by axis.  Both
offsets in the middle tensor are split into digits, one for each common stride;
the difference of the digits says which part of one box lies in the other one.
This finds the right cells as long as no cell is met with a carry between the
digits, and the right elements as long as `offsetCompute`, which splits along
the axes of the first region in their own order, agrees with the digits.
-/

variable {srcOffset dstOffset left right second middle last : Int} {axes others : List Axis}
  {sizeNum : Nat}

namespace Mnn.Core.Raster

open Mnn.Foundation.StridedLoops
open List

variable {stride : Nat → Int} {status : FuseRegionStatus} {srcReg dstReg : Region} {first : Int}
  {dst src : List Axis}

/-! ## Digits -/

theorem splitOffsets_spec {order : List Nat} {start o : Nat → Int} (distinct : order.Nodup)
    (split : splitOffsets stride order srcOffset dstOffset start = some o) :
    (∀ i, i ∉ order → o i = start i) ∧
      dstOffset - srcOffset = (order.map fun i => o i * stride i).sum := by
  induction order generalizing srcOffset dstOffset start with
  | nil =>
    rw [splitOffsets] at split
    split_ifs at split with remains
    cases split
    constructor
    · intro i _
      rfl
    · rw [map_nil, sum_nil]
      omega
  | cons i rest ih =>
    rcases nodup_cons.mp distinct with ⟨fresh, restDistinct⟩
    rw [splitOffsets] at split
    rcases ih restDistinct split with ⟨kept, restSum⟩
    have here : o i = dstOffset.tdiv (stride i) - srcOffset.tdiv (stride i) := by
      rw [kept i fresh, Function.update_self]
    constructor
    · intro j outside
      rw [mem_cons, not_or] at outside
      rw [kept j outside.2, Function.update_of_ne outside.1]
    · have srcWhole := Int.tmod_add_mul_tdiv srcOffset (stride i)
      have dstWhole := Int.tmod_add_mul_tdiv dstOffset (stride i)
      rw [map_cons, sum_cons, ← restSum, here, sub_mul,
        mul_comm (dstOffset.tdiv _), mul_comm (srcOffset.tdiv _)]
      omega

/-- Up to three axes are taken in some order, each of them once. -/
theorem sortByStride_perm (few : sizeNum ≤ 3) (distinct :
      ∀ i j, i < sizeNum → j < sizeNum → stride i = stride j → i = j) :
    (sortByStride stride sizeNum).Perm (List.range sizeNum) := by
  match sizeNum, few with
  | 0, _ => exact List.Perm.refl _
  | 1, _ => exact List.Perm.refl _
  | 2, _ =>
    rw [sortByStride]
    split_ifs
    · decide
    · decide
  | 3, _ =>
    have zeroOne : stride 0 ≠ stride 1 :=
      fun same => absurd (distinct 0 1 (by omega) (by omega) same) (by omega)
    have zeroTwo : stride 0 ≠ stride 2 :=
      fun same => absurd (distinct 0 2 (by omega) (by omega) same) (by omega)
    have oneTwo : stride 1 ≠ stride 2 :=
      fun same => absurd (distinct 1 2 (by omega) (by omega) same) (by omega)
    simp only [sortByStride]
    split_ifs
    all_goals
      first
        | omega
        | decide

theorem map_range_sum (count : Nat) (term : Nat → Int) :
    ((List.range count).map term).sum = ∑ k : Fin count, term k := by
  rw [← Finset.sum_range term]
  rfl

theorem digitShift_spec {o : Nat → Int} (few : sizeNum ≤ 3)
    (distinct : ∀ i j, i < sizeNum → j < sizeNum → stride i = stride j → i = j)
    (split : digitShift stride srcOffset dstOffset sizeNum = some o) :
    dstOffset - srcOffset = ∑ k : Fin sizeNum, o k * stride k := by
  have order := sortByStride_perm few distinct
  have nodup := order.nodup_iff.mpr nodup_range
  rw [(splitOffsets_spec nodup split).2, ← map_range_sum sizeNum fun k => o k * stride k]
  exact (order.map _).sum_eq

theorem moveOffsets_spec {dstMin dstMax dstDst newSrc : Nat → Int} {axes : List Nat}
    {start : Int × Int} (nonneg : ∀ i, 0 ≤ dstMin i) :
    moveOffsets dstMin dstMax dstDst newSrc axes start =
      if ∃ i ∈ axes, dstMax i ≤ dstMin i then
        none
      else
        some (start.1 + (axes.map fun i => dstMin i * dstDst i).sum,
            start.2 + (axes.map fun i => dstMin i * newSrc i).sum) := by
  induction axes generalizing start with
  | nil => simp [moveOffsets]
  | cons i rest ih =>
    rcases start with ⟨newDstOffset, newSrcOffset⟩
    rw [moveOffsets]
    by_cases isEmpty : dstMax i ≤ dstMin i
    · rw [if_pos isEmpty, if_pos ⟨i, mem_cons_self, isEmpty⟩]
    · have sameEmpty :
          (∃ j ∈ i :: rest, dstMax j ≤ dstMin j) ↔ ∃ j ∈ rest, dstMax j ≤ dstMin j := by
        constructor
        · rintro ⟨j, member, bound⟩
          rcases mem_cons.mp member with rfl | later
          · exact absurd bound isEmpty
          · exact ⟨j, later, bound⟩
        · rintro ⟨j, member, bound⟩
          exact ⟨j, mem_cons_of_mem _ member, bound⟩
      rw [if_neg isEmpty, ih, ih]
      simp only [sameEmpty, map_cons, sum_cons, add_assoc]
      by_cases moved : dstMin i > 0
      · rw [if_pos moved]
      · have isZero : dstMin i = 0 := by
          have bound := nonneg i
          omega
        rw [if_neg moved, isZero]
        simp only [zero_mul, zero_add]

/-! ## The region that is made -/

/-- The positions of an array that are in use. -/
def below (count : Nat) (array : Nat → Int) (k : Fin count) : Int := array k

theorem visits_replicate {axis : Axis} (once : axis.size = 1) (count : Nat)
    :
    Visits (List.replicate count axis ++ axes) left right ↔ Visits axes left right := by
  induction count with
  | zero => exact Iff.rfl
  | succ count ih =>
    rw [replicate_succ, cons_append, visits_unit once]
    exact ih

namespace FuseRegionStatus

theorem strideOf_eq (strided : status.strided = List.range status.dstNum)
    (strides : Nat → Int) (axis : Fin 3) :
    status.strideOf strides axis =
      if 3 - status.dstNum ≤ axis.val then
        if axis.val - (3 - status.dstNum) < status.dstNum then
          strides (axis.val - (3 - status.dstNum))
        else
          0
      else
        0 := by
  simp only [strideOf, strided, mem_range]
  by_cases late : 3 - status.dstNum ≤ axis.val
  · by_cases inside : axis.val - (3 - status.dstNum) < status.dstNum
    · have position : (List.range status.dstNum).idxOf (axis.val - (3 - status.dstNum)) =
            axis.val - (3 - status.dstNum) := by
        have bound : axis.val - (3 - status.dstNum) < (List.range status.dstNum).length := by
          rwa [length_range]
        have found := nodup_range.idxOf_getElem _ bound
        rwa [getElem_range] at found
      rw [if_pos ⟨late, inside⟩, if_pos late, if_pos inside, position]
    · rw [if_neg (fun both => inside both.2), if_pos late, if_neg inside]
  · rw [if_neg (fun both => late both.1), if_neg late]

theorem apply_compute (isCompute : status.mStatus = .fuseRegionCompute)
    (few : status.dstNum ≤ 3) (usable : status.dstSize 0 ≠ 0)
    (strided : status.strided = List.range status.dstNum)
    :
    (status.apply srcReg dstReg).Copies first second ↔ ∃ index : Fin status.dstNum → Int,
        InBox (below status.dstNum (status.dstMax - status.dstMin)) index ∧
          first = status.newSrcOffset + dot (below status.dstNum status.newSrc) index ∧
          second = status.newDstOffset + dot (below status.dstNum status.dstDst) index := by
  have axesEq :
      (status.apply srcReg dstReg).axes = List.replicate (3 - status.dstNum) ⟨1, 0, 0⟩ ++
          List.ofFn fun k : Fin status.dstNum =>
            { size := below status.dstNum (status.dstMax - status.dstMin) k
              left := below status.dstNum status.newSrc k
              right := below status.dstNum status.dstDst k } := by
    simp only [apply, isCompute, if_neg usable]
    apply ext_getElem
    · rw [Region.axes, length_ofFn, length_append, length_replicate, length_ofFn]
      omega
    · intro i bound _
      rw [Region.axes, length_ofFn] at bound
      simp only [Region.axes, List.getElem_ofFn, strideOf_eq strided,
        getElem_append, length_replicate, getElem_replicate]
      by_cases early : i < 3 - status.dstNum
      · rw [dif_pos early, if_neg (by omega), if_neg (by omega), if_neg (by omega)]
      · rw [dif_neg early, if_pos (by omega), if_pos (by omega),
          if_pos (by omega), if_pos (by omega), if_pos (by omega)]
        rfl
  have offsets :
      (status.apply srcReg dstReg).src.offset = status.newSrcOffset ∧
        (status.apply srcReg dstReg).dst.offset = status.newDstOffset := by
    simp only [apply, isCompute, if_neg usable, and_self]
  rw [Region.copies_iff_visits, axesEq, visits_replicate rfl, visits_ofFn, offsets.1, offsets.2]
  constructor
  · rintro ⟨index, inside, firstEq, secondEq⟩
    exact ⟨index, inside, sub_eq_iff_eq_add'.mp firstEq, sub_eq_iff_eq_add'.mp secondEq⟩
  · rintro ⟨index, inside, firstEq, secondEq⟩
    exact ⟨index, inside, sub_eq_iff_eq_add'.mpr firstEq, sub_eq_iff_eq_add'.mpr secondEq⟩

theorem apply_empty (isCompute : status.mStatus = .fuseRegionCompute)
    (unusable : status.dstSize 0 = 0) :
    ¬(status.apply srcReg dstReg).Copies first second := by
  simp only [apply, isCompute, if_pos unusable]
  rintro ⟨index, inside, -⟩
  have bounds := inside 0
  simp only [Function.update_self] at bounds
  omega

/-- Every axis gets its strides: at most one has size one, `expandIdx`. -/
theorem strided_eq (covers : Covers axes others dst) (dstNum : status.dstNum = dst.length)
    (sizeNum : status.sizeNum = axes.length)
    (sizes : ∀ i, ∀ bound : i < dst.length, status.dstSize i = dst[i].size) :
    status.strided = List.range status.dstNum := by
  rw [strided, filter_eq_self]
  intro i member
  have bound : i < dst.length := by
    rw [← dstNum]
    exact mem_range.mp member
  rw [decide_eq_true_eq]
  by_cases long : status.dstSize i > 1
  · exact Or.inl long
  · right
    have positive := covers.positive dst[i] (getElem_mem bound)
    have single : status.dstSize i = 1 := by
      have same := sizes i bound
      omega
    have grown : status.dstNum > status.sizeNum := by
      rw [dstNum, sizeNum]
      rcases covers.longer with allLong | longer
      · have isLong := allLong dst[i] (getElem_mem bound)
        have same := sizes i bound
        omega
      · exact longer
    rw [expandIdx, if_pos grown]
    cases found : (List.range status.dstNum).find? fun i => status.dstSize i = 1 with
    | none =>
      have absent := List.find?_eq_none.mp found i member
      simp [single] at absent
    | some j =>
      have jSingle : status.dstSize j = 1 := by
        simpa using find?_some found
      have jBound : j < dst.length := by
        rw [← dstNum]
        exact mem_range.mp (mem_of_find?_eq_some found)
      have pairs := pairwise_iff_getElem.mp covers.once
      have iSize := sizes i bound
      have jSize := sizes j jBound
      congr 1
      by_contra different
      rcases Nat.lt_or_gt_of_ne different with before | after
      · have isLong := pairs j i jBound bound before
        omega
      · have isLong := pairs i j bound jBound after
        omega

/-- What a match by computed axes leaves behind. -/
structure Computed
    (status next : FuseRegionStatus) (srcReg dstReg : Region)
    (src dst : List Axis) (o : Nat → Int) (newSrcSize : Nat → Int) : Prop where
  align :
    alignAxes dst src (status.newSrc, status.newSrcSize) =
      some (next.newSrc, newSrcSize)
  shift : digitShift (store (dst.map Axis.left) 0) srcReg.dst.offset
      dstReg.src.offset dst.length = some o
  dstNum : next.dstNum = dst.length
  sizeNum :
    next.sizeNum = (longAxes dstReg.size dstReg.src dstReg.dst).length
  dstDst : next.dstDst = store (dst.map Axis.right) status.dstDst
  dstMin : next.dstMin = fun i => max 0 (-o i)
  dstMax :
    next.dstMax = fun i =>
      min (newSrcSize i - o i) (store (dst.map Axis.size) status.dstSize i)
  offsets :
    match
      moveOffsets next.dstMin next.dstMax next.dstDst next.newSrc (List.range dst.length)
        (dstReg.dst.offset, offsetCompute srcReg dstReg.src.offset srcReg.dst.offset true +
            srcReg.src.offset) with
    | none => next.dstSize = 0
    | some (newDstOffset, newSrcOffset) =>
      next.dstSize = store (dst.map Axis.size) status.dstSize ∧
        next.newDstOffset = newDstOffset ∧
        next.newSrcOffset = newSrcOffset

theorem clipDst_range {srcSize dstSize : Nat → Int} {clipped : (Nat → Int) × (Nat → Int)}
    (clip :
      clipDst stride srcOffset dstOffset srcSize dstSize sizeNum =
        some clipped) :
    clipRange stride srcOffset dstOffset srcSize dstSize sizeNum =
      some clipped := by
  unfold clipDst at clip
  split at clip
  · cases clip
  · next found =>
      simp only at clip
      split_ifs at clip
      · cases clip
        exact found
      · cases clip
        exact found

section

variable {next : FuseRegionStatus} (matched : status.match srcReg dstReg = some next)
  (isCompute : next.mStatus = .fuseRegionCompute)

include matched isCompute

/-- A match by computed axes expanded the axes of both regions. -/
theorem match_expanded :
    (stridesPositive srcReg = true ∧ stridesPositive dstReg = true) ∧
      ∃ src dst, expandAxes srcReg dstReg = some (src, dst) := by
  unfold «match» at matched
  split_ifs at matched with isPositive shortcut
  · cases matched
    cases isCompute
  · refine ⟨isPositive, ?_⟩
    split at matched
    · cases matched
    · next src dst expanded => exact ⟨src, dst, expanded⟩

theorem match_computed (expanded : expandAxes srcReg dstReg = some (src, dst))
    (some_axis : dst ≠ []) :
    ∃ o newSrcSize, Computed status next srcReg dstReg src dst o newSrcSize := by
  unfold «match» at matched
  rw [expanded] at matched
  split_ifs at matched with isPositive shortcut
  · cases matched
    cases isCompute
  · simp only at matched
    split at matched
    · cases matched
    · next newSrc newSrcSize align =>
        split at matched
        · cases matched
        · next dstMin dstMax clip =>
            have range := clipDst_range clip
            have notNone : dst.length ≠ 0 := by
              rwa [Ne, length_eq_zero_iff]
            rw [clipRange, if_neg notNone] at range
            rcases Option.map_eq_some_iff.mp range with ⟨o, shift, clipped⟩
            cases clipped
            split at matched
            · next moved =>
                cases matched
                refine ⟨o, newSrcSize, ?_⟩
                exact
                  { align := align
                    shift := shift
                    dstNum := rfl
                    sizeNum := rfl
                    dstDst := rfl
                    dstMin := rfl
                    dstMax := rfl
                    offsets := by rw [moved] }
            · next moved =>
                cases matched
                refine ⟨o, newSrcSize, ?_⟩
                exact
                  { align := align
                    shift := shift
                    dstNum := rfl
                    sizeNum := rfl
                    dstDst := rfl
                    dstMin := rfl
                    dstMax := rfl
                    offsets := by
                      rw [moved]
                      exact ⟨rfl, rfl, rfl⟩ }

end

end FuseRegionStatus

/-! ## Two boxes over common strides -/

/-- The strides in the middle tensor. -/
def middleStrides (dst : List Axis) (k : Fin dst.length) : Int := (dst.get k).left

def dstSizes (dst : List Axis) (k : Fin dst.length) : Int := (dst.get k).size

/-- The strides in the destination. -/
def targetStrides (dst : List Axis) (k : Fin dst.length) : Int := (dst.get k).right

def srcSizes (src dst : List Axis) (k : Fin dst.length) : Int :=
  (axisWith src (dst.get k).left).size

/-- The strides in the origin. -/
def originStrides (src dst : List Axis) (k : Fin dst.length) : Int :=
  (axisWith src (dst.get k).left).right

/-- No size of either region is zero. -/
def NoneEmpty (srcReg dstReg : Region) : Prop := ∀ axis, 0 < srcReg.size axis ∧ 0 < dstReg.size axis

instance (srcReg dstReg : Region) : Decidable (NoneEmpty srcReg dstReg) :=
  inferInstanceAs (Decidable (∀ _, _))

/--
The box of `dstReg`, shifted by the digits `o`, meets the box of `srcReg` in
the cells which both regions use, and `offsetCompute` follows the digits.
-/
structure Meshes
    (srcReg dstReg : Region) (src dst : List Axis)
    (o : Fin dst.length → Int) : Prop where
  noCarry :
    NoneEmpty srcReg dstReg → ∀ i j, InBox (srcSizes src dst) i → InBox (dstSizes dst) j →
        srcReg.dst.offset + dot (middleStrides dst) i =
          dstReg.src.offset + dot (middleStrides dst) j →
        InBox (srcSizes src dst) (j + o)
  exact :
    ∀ j, InBox (dstSizes dst) j → InBox (srcSizes src dst) (j + o) → NoneEmpty srcReg dstReg ∧
        offsetCompute srcReg dstReg.src.offset srcReg.dst.offset true =
          dot (originStrides src dst) o

theorem visits_get :
    Visits axes left right ↔ ∃ index, InBox (dstSizes axes) index ∧
        left = dot (middleStrides axes) index ∧
          right = dot (targetStrides axes) index := by
  conv_lhs => rw [← ofFn_get axes]
  rw [visits_ofFn]
  rfl

theorem dst_copies (covers : Covers (longAxes dstReg.size dstReg.src dstReg.dst) others dst)
    (positive : ∀ axis, 0 < dstReg.size axis) :
    dstReg.Copies middle last ↔ ∃ j, InBox (dstSizes dst) j ∧
        middle = dstReg.src.offset + dot (middleStrides dst) j ∧
          last = dstReg.dst.offset + dot (targetStrides dst) j := by
  rw [Region.Copies, visits_longAxes positive, ← covers.visits, visits_get]
  simp only [sub_eq_iff_eq_add']

theorem src_copies (covers : Covers (longAxes srcReg.size srcReg.dst srcReg.src) others src)
    (positive : ∀ axis, 0 < srcReg.size axis)
    (srcDistinct : StridesDistinct src) (dstDistinct : StridesDistinct dst)
    (sameStrides : ∀ stride, stride ∈ dst.map Axis.left ↔ stride ∈ src.map Axis.left)
    :
    srcReg.Copies first middle ↔ ∃ i, InBox (srcSizes src dst) i ∧
        middle = srcReg.dst.offset + dot (middleStrides dst) i ∧
          first = srcReg.src.offset + dot (originStrides src dst) i := by
  have swapped :
      srcReg.Copies first middle ↔ ∃ index, InBox srcReg.size index ∧
          middle = srcReg.dst.at index ∧ first = srcReg.src.at index := by
    constructor
    · rintro ⟨index, inside, firstEq, middleEq⟩
      exact ⟨index, inside, middleEq, firstEq⟩
    · rintro ⟨index, inside, middleEq, firstEq⟩
      exact ⟨index, inside, firstEq, middleEq⟩
  have listed : (dst.map fun axis => axisWith src axis.left) = List.ofFn fun k : Fin dst.length =>
          axisWith src (dst.get k).left := by
    conv_lhs => rw [← ofFn_get dst]
    rw [map_ofFn]
    rfl
  have partner : ∀ k : Fin dst.length, (axisWith src (dst.get k).left).left = (dst.get k).left := by
    intro k
    have inDst : (dst.get k).left ∈ dst.map Axis.left := mem_map_of_mem (get_mem dst k)
    rcases mem_map.mp ((sameStrides _).mp inDst) with ⟨axis, inSrc, same⟩
    rw [← same, axisWith_eq srcDistinct inSrc]
  rw [swapped, visits_longAxes positive, ← covers.visits,
    visits_perm (alignAxes_perm srcDistinct dstDistinct sameStrides), listed,
    visits_ofFn]
  simp only [partner, sub_eq_iff_eq_add']
  rfl

/-- Where the arrays that `apply` reads were written by this match. -/
structure OwnArrays (srcReg dstReg : Region) : Prop where
  some_axis : longAxes dstReg.size dstReg.src dstReg.dst ≠ []
  srcDistinct : StridesDistinct (longAxes srcReg.size srcReg.dst srcReg.src)
  dstDistinct : StridesDistinct (longAxes dstReg.size dstReg.src dstReg.dst)

namespace FuseRegionStatus

/-- The fused region copies what the clipped range of the digits says. -/
theorem Computed.copies {next : FuseRegionStatus} {o newSrcSize : Nat → Int}
    (computed : Computed status next srcReg dstReg src dst o newSrcSize)
    (isCompute : next.mStatus = .fuseRegionCompute)
    (covers : Covers (longAxes dstReg.size dstReg.src dstReg.dst)
        (longAxes srcReg.size srcReg.dst srcReg.src) dst)
    (srcDistinct : StridesDistinct src) (dstDistinct : StridesDistinct dst)
    (sameStrides : ∀ stride, stride ∈ dst.map Axis.left ↔ stride ∈ src.map Axis.left)
    (some_axis : dst ≠ []) :
    (next.apply srcReg dstReg).Copies first last ↔ ∃ j, InBox (dstSizes dst) j ∧
        InBox (srcSizes src dst) (j + below dst.length o) ∧
        first = offsetCompute srcReg dstReg.src.offset srcReg.dst.offset true +
            srcReg.src.offset + dot (originStrides src dst) j ∧
        last = dstReg.dst.offset + dot (targetStrides dst) j := by
  have aligned :
      ∀ k : Fin dst.length,
        next.newSrc k = originStrides src dst k ∧ newSrcSize k = srcSizes src dst k := by
    intro k
    have found := alignAxes_get srcDistinct dstDistinct
        (fun stride => (sameStrides stride).mp) computed.align k.isLt
    exact ⟨found.2.1, found.2.2.1⟩
  have stored :
      ∀ k : Fin dst.length, store (dst.map Axis.size) status.dstSize k = dstSizes dst k ∧
          next.dstDst k = targetStrides dst k := by
    intro k
    constructor
    · rw [store_eq (by simp), getElem_map]
      rfl
    · rw [computed.dstDst, store_eq (by simp), getElem_map]
      rfl
  have clipped :
      ∀ k : Fin dst.length,
        next.dstMin k = max 0 (-o k) ∧
          next.dstMax k = min (srcSizes src dst k - o k) (dstSizes dst k) := by
    intro k
    rw [computed.dstMin, computed.dstMax, ← (aligned k).2, ← (stored k).1]
    exact ⟨rfl, rfl⟩
  have overlap :
      ∀ j : Fin dst.length → Int, InBox (dstSizes dst) j ∧
            InBox (srcSizes src dst) (j + below dst.length o) ↔
          ∀ k, below dst.length next.dstMin k ≤ j k ∧ j k < below dst.length next.dstMax k := by
    intro j
    rw [inBox_overlap]
    simp only [below, (clipped _).1, (clipped _).2]
  have minNonneg : ∀ i, 0 ≤ next.dstMin i := by
    intro i
    rw [computed.dstMin]
    exact le_max_left _ _
  have offsets := computed.offsets
  rw [moveOffsets_spec minNonneg] at offsets
  by_cases isEmpty : ∃ i ∈ List.range dst.length, next.dstMax i ≤ next.dstMin i
  · rw [if_pos isEmpty] at offsets
    have noSize : next.dstSize = 0 := offsets
    constructor
    · intro copies
      exact absurd copies (apply_empty isCompute (congrFun noSize 0))
    · rintro ⟨j, inDst, inSrc, -⟩
      rcases isEmpty with ⟨i, member, bound⟩
      have bounds := (overlap j).mp ⟨inDst, inSrc⟩ ⟨i, mem_range.mp member⟩
      simp only [below] at bounds
      omega
  · rw [if_neg isEmpty] at offsets
    rcases offsets with ⟨dstSize, newDstOffset, newSrcOffset⟩
    have sizes : ∀ i, ∀ bound : i < dst.length, next.dstSize i = dst[i].size := by
      intro i bound
      rw [dstSize]
      exact (stored ⟨i, bound⟩).1
    have usable : next.dstSize 0 ≠ 0 := by
      have bound : 0 < dst.length := length_pos_iff.mpr some_axis
      have positive := covers.positive dst[0] (getElem_mem bound)
      rw [sizes 0 bound]
      omega
    have few : next.dstNum ≤ 3 := by
      rw [computed.dstNum]
      exact covers.short
    have strided := strided_eq covers computed.dstNum computed.sizeNum sizes
    rw [apply_compute isCompute few usable strided, newDstOffset, newSrcOffset, computed.dstNum]
    have minSum : ∀ strides : Nat → Int, ((List.range dst.length).map fun i =>
              next.dstMin i * strides i).sum =
            dot (below dst.length strides) (below dst.length next.dstMin) := by
      intro strides
      exact map_range_sum dst.length fun i => next.dstMin i * strides i
    have newSrcEq : below dst.length next.newSrc = originStrides src dst := by
      ext k
      exact (aligned k).1
    have dstDstEq : below dst.length next.dstDst = targetStrides dst := by
      ext k
      exact (stored k).2
    have boxEq :
        below dst.length (next.dstMax - next.dstMin) =
          below dst.length next.dstMax - below dst.length next.dstMin :=
      rfl
    rw [minSum, minSum, newSrcEq, dstDstEq, boxEq]
    simp only [← and_assoc, overlap]
    simp only [and_assoc, exists_inBox_sub, dot_add]
    constructor
    · rintro ⟨index, inside, firstEq, lastEq⟩
      exact ⟨index, inside, by omega, by omega⟩
    · rintro ⟨index, inside, firstEq, lastEq⟩
      exact ⟨index, inside, by omega, by omega⟩

end FuseRegionStatus

/-! ## When fusing is exact -/

/-- The condition `Meshes` for the axes and digits that the code computes. -/
def MeshesFor (srcReg dstReg : Region) : Prop :=
  ∃ src dst o, expandAxes srcReg dstReg = some (src, dst) ∧
      digitShift (store (dst.map Axis.left) 0) srcReg.dst.offset
        dstReg.src.offset dst.length = some o ∧
      Meshes srcReg dstReg src dst (below dst.length o)

theorem Meshes.fuses_iff {fused : Region} {o : Fin dst.length → Int}
    (srcInjective : srcReg.Injective) (dstInjective : dstReg.Injective)
    (srcCovers : Covers (longAxes srcReg.size srcReg.dst srcReg.src)
        (longAxes dstReg.size dstReg.src dstReg.dst) src)
    (dstCovers : Covers (longAxes dstReg.size dstReg.src dstReg.dst)
        (longAxes srcReg.size srcReg.dst srcReg.src) dst)
    (srcDistinct : StridesDistinct src) (dstDistinct : StridesDistinct dst)
    (shift : dstReg.src.offset - srcReg.dst.offset = dot (middleStrides dst) o)
    (fusedCopies :
      ∀ {first last}, fused.Copies first last ↔ ∃ j, InBox (dstSizes dst) j ∧
          InBox (srcSizes src dst) (j + o) ∧
          first = offsetCompute srcReg dstReg.src.offset srcReg.dst.offset true +
              srcReg.src.offset + dot (originStrides src dst) j ∧
          last = dstReg.dst.offset + dot (targetStrides dst) j) :
    FusesExactly fused srcReg dstReg ↔ Meshes srcReg dstReg src dst o := by
  have sameStrides : ∀ stride, stride ∈ dst.map Axis.left ↔ stride ∈ src.map Axis.left := by
    intro stride
    rw [srcCovers.strides, dstCovers.strides, or_comm]
  -- Both regions over the common strides.
  have srcCopies :
      (∀ axis, 0 < srcReg.size axis) → ∀ {i}, InBox (srcSizes src dst) i → srcReg.Copies
          (srcReg.src.offset + dot (originStrides src dst) i)
          (srcReg.dst.offset + dot (middleStrides dst) i) := by
    intro positive i inside
    exact (src_copies srcCovers positive srcDistinct dstDistinct
        sameStrides).mpr ⟨i, inside, rfl, rfl⟩
  have dstCopies : (∀ axis, 0 < dstReg.size axis) → ∀ {j}, InBox (dstSizes dst) j → dstReg.Copies
          (dstReg.src.offset + dot (middleStrides dst) j)
          (dstReg.dst.offset + dot (targetStrides dst) j) := by
    intro positive j inside
    exact (dst_copies dstCovers positive).mpr ⟨j, inside, rfl, rfl⟩
  have sameCell :
      ∀ j : Fin dst.length → Int, srcReg.dst.offset + dot (middleStrides dst) (j + o) =
          dstReg.src.offset + dot (middleStrides dst) j := by
    intro j
    rw [dot_add]
    omega
  constructor
  · intro exactly
    constructor
    · intro noneEmpty i j inSrc inDst meet
      have read := dstCopies (fun axis => (noneEmpty axis).2) inDst
      have written := srcCopies (fun axis => (noneEmpty axis).1) inSrc
      rw [meet] at written
      rcases fusedCopies.mp ((exactly _ _).mpr ⟨_, written, read⟩) with
        ⟨other, otherInDst, otherInSrc, -, sameTarget⟩
      -- The destination tells which cell was meant.
      have injective : RightInjective dst := dstCovers.refines.rightInjective
          (dstInjective.longAxes fun axis => (noneEmpty axis).2)
      rw [← ofFn_get dst, rightInjective_ofFn] at injective
      have same : j = other := injective j other inDst otherInDst (Int.add_left_cancel sameTarget)
      rw [same]
      exact otherInSrc
    · intro j inDst inSrc
      rcases (exactly _ _).mp (fusedCopies.mpr ⟨j, inDst, inSrc, rfl, rfl⟩)
        with ⟨middle, written, read⟩
      have noneEmpty : NoneEmpty srcReg dstReg :=
        fun axis => ⟨written.positive axis, read.positive axis⟩
      have middleEq := dstInjective.singleSource _ _ _ read (dstCopies read.positive inDst)
      have expected := srcCopies written.positive inSrc
      rw [sameCell, ← middleEq] at expected
      have sameOrigin := srcInjective.singleSource _ _ _ written expected
      rw [dot_add] at sameOrigin
      exact ⟨noneEmpty, by omega⟩
  · intro meshes first last
    rw [fusedCopies]
    constructor
    · rintro ⟨j, inDst, inSrc, rfl, rfl⟩
      rcases meshes.exact j inDst inSrc with ⟨noneEmpty, offsetEq⟩
      have read := dstCopies (fun axis => (noneEmpty axis).2) inDst
      have written := srcCopies (fun axis => (noneEmpty axis).1) inSrc
      rw [sameCell, dot_add] at written
      refine ⟨_, ?_, read⟩
      rw [offsetEq, add_comm (dot _ o), add_assoc, add_comm (dot _ o)]
      exact written
    · rintro ⟨middle, written, read⟩
      have noneEmpty : NoneEmpty srcReg dstReg :=
        fun axis => ⟨written.positive axis, read.positive axis⟩
      rcases (src_copies srcCovers written.positive srcDistinct dstDistinct
            sameStrides).mp written with
        ⟨i, inSrc, middleEq, firstEq⟩
      rcases (dst_copies dstCovers read.positive).mp read with
        ⟨j, inDst, sameMiddle, lastEq⟩
      have overlaps := meshes.noCarry noneEmpty i j inSrc inDst (middleEq ▸ sameMiddle)
      have offsetEq := (meshes.exact j inDst overlaps).2
      have expected := srcCopies written.positive overlaps
      rw [sameCell, ← sameMiddle] at expected
      have sameOrigin := srcInjective.singleSource _ _ _ written expected
      rw [dot_add] at sameOrigin
      exact ⟨j, inDst, overlaps, by omega, lastEq⟩

/-- A row that is cut at both ends. -/
def shiftedRow (srcOffset dstOffset length : Int) : Region where
  src := { offset := srcOffset }
  dst := { offset := dstOffset }
  size := ![1, 1, length]

/-- A matrix that is written in columns, of which the second row is read. -/
def columns : Region where
  src := { stride := ![1, 2, 1] }
  dst := { stride := ![1, 1, 4] }
  size := ![1, 4, 2]

end Mnn.Core.Raster
