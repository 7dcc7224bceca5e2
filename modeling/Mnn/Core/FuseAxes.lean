import Mnn.Core.FuseRegion

/-!
# The axes of a match

`match` drops the axes that are not longer than one, splits axes until both
regions have the same strides in the middle tensor, and brings the axes of the
first region into the order of the second one.  The loops over the new axes
visit the same cells.
-/

namespace Mnn.Core.Raster

open Mnn.Foundation.StridedLoops
open List
open Axis

variable {axis : Axis} {expandValue : Int} {axes expanded src dst : List Axis}

/-! ## Long axes -/

/-- The axes of a region, read from one view to another. -/
def boxAxes (size : Fin 3 → Int) (left right : View) : List Axis := List.ofFn fun axis =>
    { size := size axis
      left := left.stride axis
      right := right.stride axis }

theorem longAxes_eq (size : Fin 3 → Int) (left right : View) :
    longAxes size left right = (boxAxes size left right).filter fun axis => 1 < axis.size := by
  have listed : boxAxes size left right = [0, 1, 2].map fun axis : Fin 3 =>
          { size := size axis
            left := left.stride axis
            right := right.stride axis } :=
    rfl
  rw [listed, longAxes]
  generalize ([0, 1, 2] : List (Fin 3)) = axes
  induction axes with
  | nil => rfl
  | cons axis rest ih =>
    rw [filterMap_cons, map_cons, filter_cons, ← ih]
    by_cases long : size axis > 1
    · rw [if_pos long, if_pos (decide_eq_true long)]
    · rw [if_neg long, if_neg (by simpa using long)]

variable {size : Fin 3 → Int}

theorem boxAxes_positive (positive : ∀ axis, 0 < size axis) (left right : View) :
    ∀ axis ∈ boxAxes size left right, 0 < axis.size := by
  intro axis member
  rcases mem_ofFn.mp member with ⟨index, rfl⟩
  exact positive index

theorem visits_longAxes (positive : ∀ axis, 0 < size axis)
    {left right : View} {first second : Int} :
    (∃ index, InBox size index ∧
        first = left.at index ∧ second = right.at index) ↔
      Visits (longAxes size left right) (first - left.offset) (second - right.offset) := by
  rw [longAxes_eq, visits_filter (boxAxes_positive positive left right), boxAxes, visits_ofFn]
  simp only [View.at]
  constructor
  · rintro ⟨index, inside, rfl, rfl⟩
    exact ⟨index, inside, by rw [add_sub_cancel_left], by rw [add_sub_cancel_left]⟩
  · rintro ⟨index, inside, leftEq, rightEq⟩
    refine ⟨index, inside, ?_, ?_⟩
    · rw [← leftEq, add_sub_cancel]
    · rw [← rightEq, add_sub_cancel]

theorem longAxes_size {left right : View}
    (member : axis ∈ longAxes size left right) : 1 < axis.size := by
  rw [longAxes_eq, mem_filter] at member
  exact of_decide_eq_true member.2

theorem longAxes_length (size : Fin 3 → Int) (left right : View) :
    (longAxes size left right).length ≤ 3 :=
  length_filterMap_le _ _

/-- The strides of long axes are positive where `match` checked them. -/
theorem longAxes_stride {reg : Region} (positive : stridesPositive reg = true) :
    (∀ axis ∈ longAxes reg.size reg.src reg.dst, 0 < axis.left) ∧
      ∀ axis ∈ longAxes reg.size reg.dst reg.src, 0 < axis.left := by
  constructor
  · intro axis member
    rcases mem_filterMap.mp member with ⟨i, -, found⟩
    split_ifs at found with long
    cases found
    exact (of_decide_eq_true positive i long).1
  · intro axis member
    rcases mem_filterMap.mp member with ⟨i, -, found⟩
    split_ifs at found with long
    cases found
    exact (of_decide_eq_true positive i long).2

/-- The long axes of an injective region do not visit a cell twice. -/
theorem Region.Injective.longAxes {reg : Region} (injective : reg.Injective)
    (positive : ∀ axis, 0 < reg.size axis) :
    RightInjective (longAxes reg.size reg.src reg.dst) := by
  rw [longAxes_eq]
  apply (Refines.filter (boxAxes_positive positive _ _)).rightInjective
  rw [boxAxes, rightInjective_ofFn]
  intro first second firstInside secondInside same
  apply injective first second firstInside secondInside
  rw [View.at, View.at]
  exact congrArg (reg.dst.offset + ·) same

/-! ## Splitting axes -/

theorem splitAxis_spec {parts : List Axis}
    (expandPositive : 0 < expandValue) (stridePositive : 0 < axis.left)
    (split : splitAxis expandValue axis = some parts) :
    ∃ outer inner, 0 < inner ∧ expandValue = inner * axis.left ∧ axis.size = outer * inner ∧ parts =
          [⟨outer, inner * axis.left, inner * axis.right⟩, ⟨inner, axis.left, axis.right⟩] := by
  unfold splitAxis at split
  simp only at split
  split_ifs at split with remains
  rw [not_or, not_not, not_not] at remains
  rcases remains with ⟨divides, fits⟩
  have whole : expandValue = expandValue.tdiv axis.left * axis.left := by
    have division := Int.tmod_add_mul_tdiv expandValue axis.left
    rw [divides, zero_add, mul_comm] at division
    exact division.symm
  have innerPositive : 0 < expandValue.tdiv axis.left := by
    by_contra notPositive
    have bound : expandValue.tdiv axis.left * axis.left ≤ 0 :=
      Int.mul_nonpos_of_nonpos_of_nonneg (by omega) stridePositive.le
    omega
  refine ⟨axis.size.tdiv (expandValue.tdiv axis.left),
      expandValue.tdiv axis.left, innerPositive, whole, ?_, ?_⟩
  · have division := Int.tmod_add_mul_tdiv axis.size (expandValue.tdiv axis.left)
    rw [fits, zero_add, mul_comm] at division
    exact division.symm
  · rw [← whole]
    exact (Option.some.inj split).symm

/-- What `expandStrideSize` keeps and what it adds. -/
structure Expanded
    (expandValue : Int) (axes expanded : List Axis) : Prop where
  visits : ∀ {left right}, Visits expanded left right ↔ Visits axes left right
  refines : Refines expanded axes
  strides : (expanded.map left).Perm (expandValue :: axes.map left)
  positive : (∀ axis ∈ axes, 0 < axis.size) → ∀ axis ∈ expanded, 0 < axis.size
  long :
    (∀ axis ∈ axes, 1 < axis.size) → expandValue ∉ axes.map left →
      expanded.Pairwise fun first second => 1 < first.size ∨ 1 < second.size

theorem Expanded.cons (axis : Axis) (done : Expanded expandValue axes expanded) :
    Expanded expandValue (axis :: axes) (axis :: expanded) where
  visits := by
    intro left right
    simp only [Visits, done.visits]
  refines := done.refines.cons axis
  strides := by
    rw [map_cons, map_cons]
    exact (done.strides.cons _).trans (List.Perm.swap _ _ _)
  positive := by
    intro positive other member
    rcases mem_cons.mp member with rfl | later
    · exact positive _ mem_cons_self
    · exact done.positive (fun axis member => positive axis (mem_cons_of_mem _ member)) other later
  long := by
    intro long fresh
    refine List.Pairwise.cons ?_ (done.long ?_ ?_)
    · intro other _
      exact Or.inl (long axis mem_cons_self)
    · intro other member
      exact long other (mem_cons_of_mem _ member)
    · intro member
      exact fresh (mem_cons_of_mem _ member)

theorem splitAxis_expanded {parts rest : List Axis}
    (expandPositive : 0 < expandValue) (stridePositive : 0 < axis.left)
    (split : splitAxis expandValue axis = some parts) :
    Expanded expandValue (axis :: rest) (parts ++ rest) := by
  rcases splitAxis_spec expandPositive stridePositive split with
    ⟨outer, inner, innerPositive, valueEq, sizeEq, rfl⟩
  rcases axis with ⟨size, left, right⟩
  simp only at valueEq sizeEq stridePositive
  subst sizeEq valueEq
  exact
    { visits := (visits_split innerPositive).symm
      refines := Refines.split rest
      strides := List.Perm.refl _
      positive := by
        intro positive other member
        have product : 0 < outer * inner := positive _ mem_cons_self
        have outerPositive : 0 < outer := (mul_pos_iff_of_pos_right innerPositive).mp product
        rcases mem_cons.mp member with rfl | member
        · exact outerPositive
        · rcases mem_cons.mp member with rfl | later
          · exact innerPositive
          · exact positive other (mem_cons_of_mem _ later)
      long := by
        intro long fresh
        have innerLong : 1 < inner := by
          by_contra notLong
          have single : inner = 1 := by omega
          apply fresh
          rw [single, one_mul]
          exact mem_cons_self
        refine List.Pairwise.cons ?_ (List.Pairwise.cons ?_ ?_)
        · intro other member
          right
          rcases mem_cons.mp member with rfl | later
          · exact innerLong
          · exact long other (mem_cons_of_mem _ later)
        · intro other _
          exact Or.inl innerLong
        · rw [pairwise_iff_forall_sublist]
          intro first second pair
          left
          apply long first
          apply mem_cons_of_mem
          exact pair.subset mem_cons_self }

theorem splitLast_expanded (expandPositive : 0 < expandValue)
    (stridesPositive : ∀ axis ∈ axes, 0 < axis.left)
    (split : splitLast expandValue axes = some expanded) :
    Expanded expandValue axes expanded := by
  induction axes generalizing expanded with
  | nil => cases split
  | cons axis rest ih =>
    rw [splitLast] at split
    split at split
    · next later found =>
        cases split
        apply Expanded.cons
        apply ih _ found
        intro other member
        exact stridesPositive other (mem_cons_of_mem _ member)
    · rcases Option.map_eq_some_iff.mp split with ⟨parts, found, rfl⟩
      exact splitAxis_expanded expandPositive (stridesPositive axis mem_cons_self) found

theorem expandStrideSize_expanded (expandPositive : 0 < expandValue)
    (stridesPositive : ∀ axis ∈ axes, 0 < axis.left)
    (expand : expandStrideSize axes expandValue = some expanded) :
    Expanded expandValue axes expanded ∧ expanded.length ≤ 3 := by
  unfold expandStrideSize at expand
  split at expand
  · cases expand
  · next found =>
      split_ifs at expand with tooLong
      cases expand
      exact ⟨splitLast_expanded expandPositive stridesPositive found, by omega⟩

/-! ## Strides of the other region -/

theorem extraStride_spec {strides others : List Int} {start extra : Int}
    (found : extraStride strides others start = some extra) :
    (0 < start → extra = start) ∧ (extra = start ∨ (extra ∈ strides ∧ extra ∉ others)) ∧
        ∀ stride ∈ strides, 0 < stride → stride ∈ others ∨ stride = extra := by
  induction strides generalizing start with
  | nil =>
    cases found
    exact ⟨fun _ => rfl, Or.inl rfl, fun _ member => absurd member not_mem_nil⟩
  | cons x rest ih =>
    rw [extraStride] at found
    split_ifs at found with member already
    · rcases ih found with ⟨stays, isNew, covered⟩
      refine ⟨stays, ?_, ?_⟩
      · rcases isNew with same | ⟨inRest, absent⟩
        · exact Or.inl same
        · exact Or.inr ⟨mem_cons_of_mem _ inRest, absent⟩
      · intro stride inStrides positive
        rcases mem_cons.mp inStrides with rfl | inRest
        · exact Or.inl member
        · exact covered stride inRest positive
    · rcases ih found with ⟨stays, isNew, covered⟩
      refine ⟨fun positive => absurd positive already, ?_, ?_⟩
      · right
        rcases isNew with same | ⟨inRest, absent⟩
        · rw [same]
          exact ⟨mem_cons_self, member⟩
        · exact ⟨mem_cons_of_mem _ inRest, absent⟩
      · intro stride inStrides positive
        rcases mem_cons.mp inStrides with rfl | inRest
        · exact Or.inr (stays positive).symm
        · exact covered stride inRest positive

theorem mem_strideArray {stride : Int} (positive : 0 < stride) :
    stride ∈ strideArray axes ↔ stride ∈ axes.map left := by
  rw [strideArray, mem_append]
  constructor
  · rintro (member | padding)
    · exact member
    · rw [eq_of_mem_replicate padding] at positive
      cases positive
  · exact Or.inl

/-- No two of the axes have one stride. -/
def StridesDistinct (axes : List Axis) : Prop := (axes.map left).Nodup

instance (axes : List Axis) : Decidable (StridesDistinct axes) :=
  inferInstanceAs (Decidable (List.Nodup _))

/-- `expanded` are the loops of `axes`, with all strides of both regions. -/
structure Covers (axes others expanded : List Axis) : Prop where
  visits : ∀ {left right}, Visits expanded left right ↔ Visits axes left right
  refines : Refines expanded axes
  distinct : StridesDistinct axes → StridesDistinct expanded
  positive : ∀ axis ∈ expanded, 0 < axis.size
  once : expanded.Pairwise fun first second => 1 < first.size ∨ 1 < second.size
  longer : (∀ axis ∈ expanded, 1 < axis.size) ∨ axes.length < expanded.length
  short : expanded.length ≤ 3
  strides :
    ∀ stride, stride ∈ expanded.map left ↔
      stride ∈ axes.map left ∨ stride ∈ others.map left

theorem expand_covers {others : List Axis} {extra : Int} (found :
      extraStride (strideArray others) (strideArray axes) (-1) = some extra)
    (stridesPositive : ∀ axis ∈ axes, 0 < axis.left)
    (othersPositive : ∀ axis ∈ others, 0 < axis.left) (long : ∀ axis ∈ axes, 1 < axis.size)
    (short : axes.length ≤ 3)
    (expand :
      (if extra > 0 then expandStrideSize axes extra else some axes) =
        some expanded) :
    Covers axes others expanded := by
  rcases extraStride_spec found with ⟨-, isNew, covered⟩
  have positive : ∀ axis ∈ axes, 0 < axis.size := by
    intro axis member
    have isLong := long axis member
    omega
  have othersCovered :
      ∀ stride ∈ others.map left, stride ∈ axes.map left ∨ stride = extra := by
    intro stride member
    rcases mem_map.mp member with ⟨axis, inOthers, rfl⟩
    have isPositive := othersPositive axis inOthers
    have inArray := (mem_strideArray isPositive).mpr member
    rcases covered axis.left inArray isPositive with inAxes | same
    · exact Or.inl ((mem_strideArray isPositive).mp inAxes)
    · exact Or.inr same
  by_cases isExtra : extra > 0
  · rw [if_pos isExtra] at expand
    rcases expandStrideSize_expanded isExtra stridesPositive expand with
      ⟨done, stillShort⟩
    have fromOthers : extra ∈ others.map left ∧ extra ∉ axes.map left := by
      rcases isNew with noExtra | ⟨member, absent⟩
      · omega
      · rw [mem_strideArray isExtra] at member absent
        exact ⟨member, absent⟩
    exact
      { visits := done.visits
        refines := done.refines
        distinct := by
          intro distinct
          exact done.strides.nodup_iff.mpr (nodup_cons.mpr ⟨fromOthers.2, distinct⟩)
        positive := done.positive positive
        once := done.long long fromOthers.2
        longer := by
          right
          have lengths := done.strides.length_eq
          rw [length_map, length_cons, length_map] at lengths
          omega
        short := stillShort
        strides := by
          intro stride
          rw [done.strides.mem_iff, mem_cons]
          constructor
          · rintro (rfl | member)
            · exact Or.inr fromOthers.1
            · exact Or.inl member
          · rintro (member | member)
            · exact Or.inr member
            · exact (othersCovered stride member).symm }
  · rw [if_neg isExtra] at expand
    cases expand
    exact
      { visits := Iff.rfl
        refines := Refines.refl axes
        distinct := id
        positive := positive
        once := by
          rw [pairwise_iff_forall_sublist]
          intro first second pair
          exact Or.inl (long first (pair.subset mem_cons_self))
        longer := Or.inl long
        short := short
        strides := by
          intro stride
          constructor
          · exact Or.inl
          · rintro (member | member)
            · exact member
            · rcases othersCovered stride member with inAxes | rfl
              · exact inAxes
              · rcases mem_map.mp member with ⟨axis, inOthers, same⟩
                have isPositive := othersPositive axis inOthers
                omega }

theorem expandAxes_covers {srcReg dstReg : Region} (srcPositive : stridesPositive srcReg = true)
    (dstPositive : stridesPositive dstReg = true)
    (expanded : expandAxes srcReg dstReg = some (src, dst)) :
    Covers (longAxes srcReg.size srcReg.dst srcReg.src)
        (longAxes dstReg.size dstReg.src dstReg.dst) src ∧
      Covers (longAxes dstReg.size dstReg.src dstReg.dst)
        (longAxes srcReg.size srcReg.dst srcReg.src) dst := by
  unfold expandAxes at expanded
  simp only at expanded
  split at expanded
  · next srcExtra dstExtra srcFound dstFound =>
      split at expanded
      · next src' dst' srcExpand dstExpand =>
          cases expanded
          constructor
          · exact expand_covers dstFound (longAxes_stride srcPositive).2
                (longAxes_stride dstPositive).1 (fun _ => longAxes_size)
                (longAxes_length _ _ _) srcExpand
          · exact expand_covers srcFound (longAxes_stride dstPositive).1
                (longAxes_stride srcPositive).2 (fun _ => longAxes_size)
                (longAxes_length _ _ _) dstExpand
      · cases expanded
  · cases expanded

/-! ## Alignment -/

theorem store_eq {values : List Int} {array : Nat → Int} {i : Nat}
    (bound : i < values.length) : store values array i = values[i] := by
  rw [store, getD_eq_getElem?_getD, getElem?_eq_getElem bound]
  rfl

/-- The axis that has a stride. -/
def axisWith (axes : List Axis) (stride : Int) : Axis :=
  (axes.find? fun axis => axis.left = stride).getD ⟨1, stride, 0⟩

theorem axisWith_eq (distinct : StridesDistinct axes)
    (member : axis ∈ axes) : axisWith axes axis.left = axis := by
  unfold axisWith
  cases found : axes.find? fun other => other.left = axis.left with
  | none =>
    have absent := List.find?_eq_none.mp found axis member
    simp at absent
  | some other =>
    have same : other.left = axis.left := by
      simpa using find?_some found
    have otherMember := mem_of_find?_eq_some found
    exact inj_on_of_nodup_map distinct otherMember member same

variable {arrays aligned : (Nat → Int) × (Nat → Int)}

/-- An array position that no later axis is written to keeps its value. -/
theorem alignAxes_spec (srcDistinct : StridesDistinct src)
    (align : alignAxes dst src arrays = some aligned) :
    (∀ i, (∀ axis ∈ src, ∀ (bound : i < dst.length), dst[i].left ≠ axis.left) →
          aligned.1 i = arrays.1 i ∧ aligned.2 i = arrays.2 i) ∧
      ∀ axis ∈ src, ∃ i, ∃ bound : i < dst.length,
        dst[i].left = axis.left ∧ aligned.1 i = axis.right ∧ aligned.2 i = axis.size := by
  induction src generalizing arrays with
  | nil =>
    cases align
    exact ⟨fun _ _ => ⟨rfl, rfl⟩, fun _ member => absurd member not_mem_nil⟩
  | cons axis rest ih =>
    rcases arrays with ⟨newSrc, newSrcSize⟩
    rw [alignAxes] at align
    split at align
    · cases align
    · next index found =>
        rcases List.findIdx?_eq_some_iff_getElem.mp found with
          ⟨bound, same, -⟩
        have sameStride : dst[index].left = axis.left := by
          simpa using same
        rcases nodup_cons.mp srcDistinct with ⟨fresh, restDistinct⟩
        rcases ih restDistinct align with ⟨kept, placed⟩
        constructor
        · intro i untouched
          have notIndex : i ≠ index := by
            rintro rfl
            exact untouched axis mem_cons_self bound sameStride
          have later := kept i fun other member =>
              untouched other (mem_cons_of_mem _ member)
          simp only [Function.update_of_ne notIndex] at later
          exact later
        · intro other member
          rcases mem_cons.mp member with rfl | later
          · have stays := kept index (by
                intro later inRest _ sameAgain
                apply fresh
                rw [← sameStride, sameAgain]
                exact mem_map_of_mem inRest)
            simp only [Function.update_self] at stays
            exact ⟨index, bound, sameStride, stays.1, stays.2⟩
          · exact placed other later

/-- Behind the alignment every position holds the axis with its stride. -/
theorem alignAxes_get (srcDistinct : StridesDistinct src) (dstDistinct : StridesDistinct dst)
    (covered : ∀ stride ∈ dst.map left, stride ∈ src.map left)
    (align : alignAxes dst src arrays = some aligned) {i : Nat} (bound : i < dst.length) :
    axisWith src dst[i].left ∈ src ∧ aligned.1 i = (axisWith src dst[i].left).right ∧
        aligned.2 i = (axisWith src dst[i].left).size ∧
          (axisWith src dst[i].left).left = dst[i].left := by
  have inDst : dst[i].left ∈ dst.map left := mem_map_of_mem (getElem_mem bound)
  rcases mem_map.mp (covered _ inDst) with ⟨axis, inSrc, sameStride⟩
  rcases (alignAxes_spec srcDistinct align).2 axis inSrc with
    ⟨j, jBound, jStride, right, size⟩
  have sameIndex : j = i := by
    have jInStrides : j < (dst.map left).length := by
      rwa [length_map]
    have iInStrides : i < (dst.map left).length := by
      rwa [length_map]
    have strides : (dst.map left)[j] = (dst.map left)[i] := by
      rw [getElem_map, getElem_map, jStride, sameStride]
    exact (List.Nodup.getElem_inj_iff dstDistinct).mp strides
  subst sameIndex
  rw [← sameStride, axisWith_eq srcDistinct inSrc]
  exact ⟨inSrc, right, size, rfl⟩

/-- The axes of the first region in the order of the second one. -/
theorem alignAxes_perm (srcDistinct : StridesDistinct src) (dstDistinct : StridesDistinct dst)
    (sameStrides : ∀ stride, stride ∈ dst.map left ↔ stride ∈ src.map left) :
    src.Perm (dst.map fun axis => axisWith src axis.left) := by
  have strides : (dst.map left).Perm (src.map left) :=
    (perm_ext_iff_of_nodup dstDistinct srcDistinct).mpr sameStrides
  have back : (src.map left).map (axisWith src) = src := by
    have same : src.map (axisWith src ∘ left) = src.map id :=
      map_congr_left fun axis member => axisWith_eq srcDistinct member
    rw [map_map, same, map_id]
  have moved := strides.map (axisWith src)
  rw [back, map_map] at moved
  exact moved.symm

end Mnn.Core.Raster
