import Mnn.Core.Region

/-!
# Fusing two regions

`FuseRegionStatus` decides whether a region that fills a middle tensor and a
region that reads it can be replaced by one region, and makes this region.
`match` leaves what it found in working arrays for `apply`; the arrays keep
what earlier calls left in them, so a status holds arbitrary numbers at first.
The arrays after a failed `match` are not modelled.

An array `int x[3]` is a function from its positions, of which only those below
the number of axes are ever written.  `/` and `%` round towards zero.
-/

namespace Mnn.Core.Raster

open Mnn.Foundation.StridedLoops

/-! ## Helpers -/

def isCopyRegion (region : Region) : Bool :=
  decide (∀ i, region.src.stride i = region.dst.stride i ∨ region.size i ≤ 1)

/-- The axes which are longer than one, with their strides in two views. -/
def longAxes (size : Fin 3 → Int) (left right : View) : List Axis := [0, 1, 2].filterMap fun i =>
    if size i > 1 then
      some { size := size i, left := left.stride i, right := right.stride i }
    else
      none

/-- The loop of `offsetCompute`. -/
def offsetAlong : List Axis → Int → Int → Int
  | [], _, _ => 0
  | axis :: rest, srcOffset, dstOffset =>
    (srcOffset.tdiv axis.left - dstOffset.tdiv axis.left) * axis.right +
      offsetAlong rest (srcOffset.tmod axis.left) (dstOffset.tmod axis.left)

def offsetCompute (reg : Region) (srcOffset dstOffset : Int) (backward : Bool) : Int :=
  if backward then
    offsetAlong (longAxes reg.size reg.dst reg.src) srcOffset dstOffset
  else
    offsetAlong (longAxes reg.size reg.src reg.dst) srcOffset dstOffset

/-- Split one axis in two, the outer one with stride `expandValue`. -/
def splitAxis (expandValue : Int) (axis : Axis) : Option (List Axis) :=
  let splitSize := expandValue.tdiv axis.left
  if expandValue.tmod axis.left ≠ 0 ∨ axis.size.tmod splitSize ≠ 0 then
    none
  else
    some
      [{ size := axis.size.tdiv splitSize
         left := expandValue
         right := splitSize * axis.right },
        { size := splitSize, left := axis.left, right := axis.right }]

/-- Split the last axis that can be split. -/
def splitLast (expandValue : Int) : List Axis → Option (List Axis)
  | [] => none
  | axis :: rest =>
    match splitLast expandValue rest with
    | some rest => some (axis :: rest)
    | none => (splitAxis expandValue axis).map fun parts => parts ++ rest

/-- There is room for three axes. -/
def expandStrideSize (axes : List Axis) (expandValue : Int) : Option (List Axis) :=
  match splitLast expandValue axes with
  | none => none
  | some axes => if axes.length > 3 then none else some axes

/-- `srcStride` and `dstStride`: the strides, filled up with `-1`. -/
def strideArray (axes : List Axis) : List Int :=
  axes.map Axis.left ++ List.replicate (3 - axes.length) (-1)

/-- `MNN_3_INT_DIFF`: the one stride which the other region does not have. -/
def extraStride : List Int → List Int → Int → Option Int
  | [], _, extra => some extra
  | x :: rest, others, extra =>
    if x ∈ others then
      extraStride rest others extra
    else if extra > 0 then
      none
    else
      extraStride rest others x

/-- `srcDst, srcSrc, srcSize` and `dstSrc, dstDst, dstSize`. -/
def expandAxes (srcReg dstReg : Region) : Option (List Axis × List Axis) :=
  let src := longAxes srcReg.size srcReg.dst srcReg.src
  let dst := longAxes dstReg.size dstReg.src dstReg.dst
  match extraStride (strideArray src) (strideArray dst) (-1),
      extraStride (strideArray dst) (strideArray src) (-1) with
  | some srcExtra, some dstExtra =>
    match
      if dstExtra > 0 then expandStrideSize src dstExtra else some src,
      if srcExtra > 0 then expandStrideSize dst srcExtra else some dst with
    | some src, some dst => some (src, dst)
    | _, _ => none
  | _, _ => none

/-- Reorder `srcSrc` and `srcSize` by the strides they share with `dst`. -/
def alignAxes (dst : List Axis) :
    List Axis → (Nat → Int) × (Nat → Int) → Option ((Nat → Int) × (Nat → Int))
  | [], arrays => some arrays
  | axis :: rest, (newSrc, newSrcSize) =>
    match dst.findIdx? fun other => other.left = axis.left with
    | none => none
    | some index =>
      alignAxes dst rest (Function.update newSrc index axis.right,
          Function.update newSrcSize index axis.size)

/-- Write the first positions of an array. -/
def store (values : List Int) (array : Nat → Int) : Nat → Int := fun i => values.getD i (array i)

/-! ## Clipping -/

/-- `validIndex`: the axes with falling stride. -/
def sortByStride (stride : Nat → Int) : Nat → List Nat
  | 0 => []
  | 1 => [0]
  | 2 => if stride 0 < stride 1 then [1, 0] else [0, 1]
  | _ =>
    let maxi :=
      if stride 1 > stride 0 then
        if stride 2 > stride 1 then 2 else 1
      else
        if stride 2 > stride 0 then 2 else 0
    let mini :=
      if stride 1 < stride 0 then
        if stride 2 < stride 1 then 2 else 1
      else
        if stride 2 < stride 0 then 2 else 0
    let middle :=
      ([0, 1, 2].find? fun i => i ≠ maxi ∧ i ≠ mini).getD 1
    [maxi, middle, mini]

/-- The differences `o` of the digits of two offsets, if nothing remains. -/
def splitOffsets (stride : Nat → Int) : List Nat → Int → Int → (Nat → Int) → Option (Nat → Int)
  | [], srcOffset, dstOffset, o =>
    if srcOffset ≠ 0 ∨ dstOffset ≠ 0 then none else some o
  | i :: rest, srcOffset, dstOffset, o =>
    splitOffsets stride rest (srcOffset.tmod (stride i)) (dstOffset.tmod (stride i))
      (Function.update o i (dstOffset.tdiv (stride i) - srcOffset.tdiv (stride i)))

def digitShift (stride : Nat → Int) (srcOffset dstOffset : Int) (sizeNum : Nat) :
    Option (Nat → Int) :=
  splitOffsets stride (sortByStride stride sizeNum) srcOffset dstOffset 0

/-- `_ClipDst` without `checkFull`: `dstMin` and `dstMax`. -/
def clipRange (stride : Nat → Int) (srcOffset dstOffset : Int)
    (srcSize dstSize : Nat → Int) (sizeNum : Nat) :
    Option ((Nat → Int) × (Nat → Int)) :=
  if sizeNum = 0 then
    if dstOffset - srcOffset = 0 then some (0, 0) else none
  else
    (digitShift stride srcOffset dstOffset sizeNum).map fun o =>
      (fun i => max 0 (-o i), fun i => min (srcSize i - o i) (dstSize i))

/-- The smallest stride of an axis on which `src` goes on behind the range. -/
def srcMinStride (stride srcSize dstMax : Nat → Int) (sizeNum : Nat) : Int :=
  (List.range sizeNum).foldl (fun srcMin i =>
      if dstMax i < srcSize i then
        if srcMin = -1 then stride i else min (stride i) srcMin
      else
        srcMin)
    (-1)

/-- A second region would be needed for the part of `dst` that is cut off. -/
def needsNewRegion (stride : Nat → Int) (srcOffset dstOffset : Int)
    (srcSize dstSize dstMax : Nat → Int) (sizeNum : Nat) (i : Nat) : Bool :=
  (List.range sizeNum).any fun k =>
    decide (dstMax k < srcSize k) &&
      match
        clipRange stride (srcOffset + dstMax k * stride k) (dstOffset + dstMax i * stride i)
          (Function.update srcSize k (srcSize k - dstMax k))
          (Function.update dstSize i (dstSize i - dstMax i)) sizeNum with
      | none => false
      | some (dstMinNew, dstMaxNew) =>
        (List.range sizeNum).all fun j =>
          decide (dstMinNew j < dstMaxNew j)

def clipDst (stride : Nat → Int) (srcOffset dstOffset : Int)
    (srcSize dstSize : Nat → Int) (sizeNum : Nat) :
    Option ((Nat → Int) × (Nat → Int)) :=
  match clipRange stride srcOffset dstOffset srcSize dstSize sizeNum with
  | none => none
  | some (dstMin, dstMax) =>
    let srcMax :=
      ((List.range sizeNum).map fun i => srcSize i * stride i).sum
    let srcMin := srcMinStride stride srcSize dstMax sizeNum
    if srcMin < 0 then
      some (dstMin, dstMax)
    else if
        (List.range sizeNum).any fun i =>
          let bias := dstOffset - srcOffset + dstMax i * stride i
          decide (dstMax i ≠ dstSize i ∧ bias < srcMax ∧ bias ≥ srcMin) &&
            needsNewRegion stride srcOffset dstOffset srcSize dstSize dstMax sizeNum i then
      none
    else
      some (dstMin, dstMax)

/-! ## Match and apply -/

inductive FuseStatus where
  | fuseSrcCopy
  | fuseRegionCompute
  deriving DecidableEq, Repr

/-- `TensorUtils::FuseRegionStatus`: what `match` leaves for `apply`. -/
structure FuseRegionStatus where
  mStatus : FuseStatus := .fuseSrcCopy
  dstDst : Nat → Int := 0
  dstSize : Nat → Int := 0
  newSrc : Nat → Int := 0
  newSrcSize : Nat → Int := 0
  dstMin : Nat → Int := 0
  dstMax : Nat → Int := 0
  dstNum : Nat := 0
  sizeNum : Nat := 0
  newSrcOffset : Int := 0
  newDstOffset : Int := 0

/-- `dont deal size > 1 && stride <= 0`. -/
def stridesPositive (reg : Region) : Bool :=
  decide (∀ i, reg.size i > 1 → 0 < reg.src.stride i ∧ 0 < reg.dst.stride i)

/-- The product of the sizes above one. -/
def totalSize (reg : Region) : Int := ((longAxes reg.size reg.src reg.dst).map Axis.size).prod

/-- `srcDstMax` and `dstSrcMax`. -/
def lastOffset (view : View) (size : Fin 3 → Int) : Int :=
  view.offset + ∑ i, view.stride i * (size i - 1)

def copyValid (srcReg dstReg : Region) : Bool :=
  decide (¬(srcReg.dst.offset > dstReg.src.offset ∨ srcReg.dst.stride 1 > srcReg.size 2 ∨
        srcReg.dst.stride 2 > srcReg.size 1 * srcReg.size 2) ∧
      ¬totalSize dstReg > totalSize srcReg ∧
      ¬(srcReg.dst.offset > dstReg.src.offset ∨ lastOffset srcReg.dst srcReg.size <
          lastOffset dstReg.src dstReg.size))

/-- The last loop of `match`: move the offsets, or find the region empty. -/
def moveOffsets (dstMin dstMax dstDst newSrc : Nat → Int) :
    List Nat → Int × Int → Option (Int × Int)
  | [], offsets => some offsets
  | i :: rest, (newDstOffset, newSrcOffset) =>
    if dstMax i ≤ dstMin i then
      none
    else if dstMin i > 0 then
      moveOffsets dstMin dstMax dstDst newSrc rest (newDstOffset + dstMin i * dstDst i,
          newSrcOffset + dstMin i * newSrc i)
    else
      moveOffsets dstMin dstMax dstDst newSrc rest (newDstOffset, newSrcOffset)

namespace FuseRegionStatus

/-- `match`; no result stands for `false`. -/
def «match» (status : FuseRegionStatus) (srcReg dstReg : Region) :
    Option FuseRegionStatus :=
  if ¬(stridesPositive srcReg ∧ stridesPositive dstReg) then
    none
  else if isCopyRegion srcReg && copyValid srcReg dstReg then
    some { status with mStatus := .fuseSrcCopy }
  else
    match expandAxes srcReg dstReg with
    | none => none
    | some (src, dst) =>
      match alignAxes dst src (status.newSrc, status.newSrcSize) with
      | none => none
      | some (newSrc, newSrcSize) =>
        let dstSize := store (dst.map Axis.size) status.dstSize
        let dstDst := store (dst.map Axis.right) status.dstDst
        let newSrcOffset :=
          offsetCompute srcReg dstReg.src.offset srcReg.dst.offset true + srcReg.src.offset
        match
          clipDst (store (dst.map Axis.left) 0) srcReg.dst.offset
            dstReg.src.offset newSrcSize dstSize dst.length with
        | none => none
        | some (dstMin, dstMax) =>
          let found : FuseRegionStatus :=
            { mStatus := .fuseRegionCompute
              dstDst, dstSize, newSrc, newSrcSize, dstMin, dstMax
              dstNum := dst.length
              sizeNum := (longAxes dstReg.size dstReg.src dstReg.dst).length
              newSrcOffset := newSrcOffset
              newDstOffset := dstReg.dst.offset }
          match
            moveOffsets dstMin dstMax dstDst newSrc (List.range dst.length)
              (dstReg.dst.offset, newSrcOffset) with
          | none => some { found with dstSize := 0 }
          | some (newDstOffset, newSrcOffset) =>
            some
              { found with
                newDstOffset := newDstOffset
                newSrcOffset := newSrcOffset }

/-- `expandIdx` after the first loop of `apply`. -/
def expandIdx (status : FuseRegionStatus) : Option Nat :=
  if status.dstNum > status.sizeNum then
    (List.range status.dstNum).find? fun i => status.dstSize i = 1
  else
    none

/-- The axes which get strides: `valid[i] > 0 || i == expandIdx`. -/
def strided (status : FuseRegionStatus) : List Nat := (List.range status.dstNum).filter fun i =>
    decide (status.dstSize i > 1 ∨ status.expandIdx = some i)

/-- The strides of the axes that have one are taken in their order. -/
def strideOf (status : FuseRegionStatus) (strides : Nat → Int) (axis : Fin 3) : Int :=
  let i := axis.val - (3 - status.dstNum)
  if 3 - status.dstNum ≤ axis.val ∧ i ∈ status.strided then
    strides (status.strided.idxOf i)
  else
    0

def apply (status : FuseRegionStatus) (srcReg dstReg : Region) : Region :=
  match status.mStatus with
  | .fuseSrcCopy =>
    { dstReg with
      origin := srcReg.origin
      src :=
        { dstReg.src with
          offset := dstReg.src.offset + (srcReg.src.offset - srcReg.dst.offset) } }
  | .fuseRegionCompute =>
    if status.dstSize 0 = 0 then
      { dstReg with
        size := Function.update dstReg.size 0 0
        origin := none }
    else
      { origin := srcReg.origin
        size := fun axis =>
          let i := axis.val - (3 - status.dstNum)
          if 3 - status.dstNum ≤ axis.val then
            status.dstMax i - status.dstMin i
          else
            1
        src :=
          { offset := status.newSrcOffset
            stride := status.strideOf status.newSrc }
        dst :=
          { offset := status.newDstOffset
            stride := status.strideOf status.dstDst } }

end FuseRegionStatus

/-!
# Fusing behind a plain copy

When the first region only moves cells by a constant distance, `match` lets the
second region read from the origin directly.  This is right as long as the
second region reads nothing but cells that the first one fills; `copyValid`
looks at the ends of both ranges and does not see holes between them.
-/

theorem distance_of_isCopyRegion
    {reg : Region} (isCopy : isCopyRegion reg = true) {first second : Int}
    (copies : reg.Copies first second) :
    first = second + (reg.src.offset - reg.dst.offset) := by
  rcases copies with ⟨index, inside, rfl, rfl⟩
  have sameDot : dot reg.src.stride index = dot reg.dst.stride index := by
    apply Finset.sum_congr rfl
    intro axis _
    rcases of_decide_eq_true isCopy axis with sameStride | single
    · rw [sameStride]
    · have bounds := inside axis
      have isZero : index axis = 0 := by omega
      rw [isZero, zero_mul, zero_mul]
  rw [View.at, View.at, sameDot]
  ring

namespace FuseRegionStatus

open Region

theorem match_copy {status next : FuseRegionStatus} {srcReg dstReg : Region}
    (matched : status.match srcReg dstReg = some next) (isCopy : next.mStatus = .fuseSrcCopy) :
    isCopyRegion srcReg = true := by
  unfold «match» at matched
  split_ifs at matched with notPositive shortcut
  · rw [Bool.and_eq_true] at shortcut
    exact shortcut.1
  · exfalso
    simp only at matched
    split at matched
    · cases matched
    · split at matched
      · cases matched
      · split at matched
        · cases matched
        · split at matched
          · cases matched
            cases isCopy
          · cases matched
            cases isCopy

/-- The fused region reads where the origin element of a middle cell is. -/
theorem apply_copy {status : FuseRegionStatus} {srcReg dstReg : Region}
    (isCopy : status.mStatus = .fuseSrcCopy) {cell target : Int}
    (copies : dstReg.Copies cell target) :
    (status.apply srcReg dstReg).Copies
      (cell + (srcReg.src.offset - srcReg.dst.offset)) target := by
  rcases copies with ⟨index, inside, rfl, rfl⟩
  simp only [apply, isCopy]
  refine ⟨index, inside, ?_, rfl⟩
  simp only [View.at]
  ring

/-- The shortcut is right when `dstReg` reads what `srcReg` writes. -/
theorem copy_sameOrigins_iff (status next : FuseRegionStatus) (srcReg dstReg : Region)
    (srcInjective : srcReg.Injective) (dstInjective : dstReg.Injective)
    (matched : status.match srcReg dstReg = some next) (isCopy : next.mStatus = .fuseSrcCopy) :
    SameOrigins (next.apply srcReg dstReg) srcReg dstReg ↔
      ∀ cell, dstReg.Reads cell → srcReg.Writes cell := by
  have copyRegion := match_copy matched isCopy
  have fusedInjective : (next.apply srcReg dstReg).Injective := by
    simp only [apply, isCopy]
    exact dstInjective
  have fused :
      ∀ {cell target}, dstReg.Copies cell target →
        (next.apply srcReg dstReg).blit some (fun _ => none) target =
          some (cell + (srcReg.src.offset - srcReg.dst.offset)) := by
    intro cell target copies
    exact blit_of_copies fusedInjective.singleSource _ _ (apply_copy isCopy copies)
  have inTurn :
      ∀ {cell target}, dstReg.Copies cell target →
        dstReg.blit (srcReg.blit some fun _ => none) (fun _ => none) target =
          srcReg.blit some (fun _ => none) cell := by
    intro cell target copies
    exact blit_of_copies dstInjective.singleSource _ _ copies
  constructor
  · rintro same cell ⟨target, copies⟩
    by_contra unwritten
    have agree := same target ⟨cell, copies⟩
    rw [fused copies, inTurn copies, blit_of_not_writes some (fun _ => none) unwritten] at agree
    cases agree
  · rintro covered target ⟨cell, copies⟩
    rcases covered cell ⟨target, copies⟩ with ⟨first, filled⟩
    rw [fused copies, inTurn copies, blit_of_copies srcInjective.singleSource some _ filled,
      distance_of_isCopyRegion copyRegion filled]

/-- A row of cells, read and written at every cell. -/
def denseRow (first length : Int) : Region where
  src := { offset := first }
  size := ![1, 1, length]

/-- A row that reads and writes every other cell. -/
def sparseRow (length : Int) : Region where
  src := { stride := ![1, 1, 2] }
  dst := { stride := ![1, 1, 2] }
  size := ![1, 1, length]

/-- A slice of a row that was copied whole. -/
theorem copy_sameOrigins_slice :
    ∃ next, ({} : FuseRegionStatus).match (denseRow 0 8) (denseRow 2 4) =
        some next ∧
      SameOrigins (next.apply (denseRow 0 8) (denseRow 2 4)) (denseRow 0 8) (denseRow 2 4) := by
  have matched :
      ∃ next, ({} : FuseRegionStatus).match (denseRow 0 8) (denseRow 2 4) =
          some next ∧ next.mStatus = .fuseSrcCopy :=
    ⟨_, rfl, rfl⟩
  rcases matched with ⟨next, matched, isCopy⟩
  refine ⟨next, matched, ?_⟩
  rw [copy_sameOrigins_iff {} next (denseRow 0 8) (denseRow 2 4)
    (injective_of_nodup (by decide)) (injective_of_nodup (by decide)) matched isCopy]
  rintro cell ⟨target, index, inside, rfl, -⟩
  refine ⟨_, index + ![0, 0, 2], ?_, rfl, ?_⟩
  · intro axis
    have bounds := inside axis
    fin_cases axis
    all_goals
      simp [denseRow] at bounds ⊢
      omega
  · simp [denseRow, View.at, dot, Fin.sum_univ_three]
    ring

/-- The holes between the cells that `sparseRow` fills are read. -/
theorem copy_hole :
    ¬∀ (status next : FuseRegionStatus) (srcReg dstReg : Region),
      (∀ axis, 0 < srcReg.size axis ∧ 0 < dstReg.size axis) → srcReg.Injective → dstReg.Injective →
          status.match srcReg dstReg = some next →
            next.mStatus = .fuseSrcCopy → SameOrigins (next.apply srcReg dstReg) srcReg dstReg := by
  intro always
  have same := always {} _ (sparseRow 4) (denseRow 0 4) (by decide)
      (injective_of_nodup (by decide)) (injective_of_nodup (by decide)) rfl rfl
  have written : (denseRow 0 4).Writes 1 := ⟨1, ![0, 0, 1], by decide, by decide, by decide⟩
  have different := same 1 written
  revert different
  decide

end FuseRegionStatus

end Mnn.Core.Raster
