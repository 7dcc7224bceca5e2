import Mnn.Foundation.CellSources
import Mnn.Foundation.Windows
import Mnn.Geometry.Regions

/-!
# Columns of a convolution

For each position of the kernel, the elements of the input that lie under it are copied to
rows of a matrix.  What lies outside of the input is left out, or is a given value.
-/

namespace Mnn.Geometry.Im2Col

open Mnn.Core.Raster
open Mnn.Foundation.CellSources
open List

/-! ## Windows -/

/-- The sizes of one axis. -/
structure Axis where
  kernel : Nat
  output : Nat
  input : Nat
  stride : Nat
  dilate : Nat
  pad : Int
  positive : 0 < stride

/-- Where a position of the kernel lies at a step. -/
def Axis.position (axis : Axis) (k : Nat) (o : Int) : Int :=
  o * axis.stride + k * axis.dilate - axis.pad

def Axis.startD (axis : Axis) (k : Nat) : Int :=
  let startS : Int := k * axis.dilate - axis.pad
  if startS < 0 then (-startS + axis.stride - 1).tdiv axis.stride else 0

def Axis.startS (axis : Axis) (k : Nat) : Int :=
  let startS : Int := k * axis.dilate - axis.pad
  if startS < 0 then startS + axis.startD k * axis.stride else startS

def Axis.endD (axis : Axis) (k : Nat) : Int :=
  let endD : Int := axis.output - 1
  let endS := axis.position k endD
  if endS ≥ axis.input then
    endD - (endS - axis.input + axis.stride).tdiv axis.stride
  else
    endD

/-- How many steps lie behind the input. -/
def Axis.after (axis : Axis) (k : Nat) : Int :=
  if axis.position k (axis.output - 1) ≥ axis.input then axis.output - axis.endD k - 1
  else 0

/-- The first position and both ends, and how many steps lie outside of them. -/
structure Window where
  startS : Int
  startD : Int
  endD : Int
  before : Int
  after : Int

/-- The steps at which a position of the kernel lies inside, unless there are none. -/
def Axis.window (axis : Axis) (k : Nat) : Option Window :=
  if axis.startD k > axis.endD k ∨ axis.endD k < 0 ∨ axis.startS k ≥ axis.input then
    none
  else
    some ⟨axis.startS k, axis.startD k, axis.endD k, axis.startD k, axis.after k⟩

/-! ## Two axes -/

def addPadValue (padVal : TensorPtr) (ic : Nat)
    (dstOffsetKx dstStrideChannel pad offset num stride : Int) : List Region :=
  if pad > 0 then
    [{ origin := some padVal
       size := ![(ic : Int), num, pad]
       src := { offset := 0, stride := ![0, 0, 0] }
       dst := { offset := dstOffsetKx + offset, stride := ![dstStrideChannel, stride, 1] } }]
  else
    []

/-- Above, below, left and right of the window. -/
def padRegions (padVal : TensorPtr) (ic outWidth : Nat)
    (dstOffsetKx dstStrideChannel : Int) (wy wx : Window) : List Region :=
  let upPad := wy.before * outWidth
  let belowPad := wy.after * outWidth
  let ohExcludePad := wy.endD - wy.startD + 1
  let owExcludePad := wx.endD - wx.startD + 1
  addPadValue padVal ic dstOffsetKx dstStrideChannel upPad (-(wx.startD + upPad)) 1 0 ++
    (addPadValue padVal ic dstOffsetKx dstStrideChannel belowPad
        (ohExcludePad * outWidth - wx.startD) 1 0 ++
      (addPadValue padVal ic dstOffsetKx dstStrideChannel wx.before (-wx.before)
          ohExcludePad outWidth ++
        addPadValue padVal ic dstOffsetKx dstStrideChannel wx.after owExcludePad
          ohExcludePad outWidth))

/-- The regions for one position of the kernel. -/
def regionsAt (input : TensorPtr) (ic batch : Nat) (y x : Axis) (srcKernelOffset : Int)
    (padVal : Option TensorPtr) (ky kx : Nat) : List Region :=
  match y.window ky, x.window kx with
  | some wy, some wx =>
    let dstStrideChannel : Int := y.output * x.output * y.kernel * x.kernel
    let srcStrideChannel : Int := x.input * y.input
    let dstOffsetKy : Int := ky * x.kernel * x.output * y.output + wy.startD * x.output
    let srcOffsetKy := wy.startS * x.input
    let dstOffsetKx := dstOffsetKy + kx * x.output * y.output + wx.startD
    let srcOffsetKx := srcOffsetKy + wx.startS + srcKernelOffset * (kx + ky * x.kernel)
    let ohExcludePad := wy.endD - wy.startD + 1
    let owExcludePad := wx.endD - wx.startD + 1
    let pads :=
      padVal.elim [] fun padVal =>
        padRegions padVal ic x.output dstOffsetKx dstStrideChannel wy wx
    pads ++
      [{ origin := some input
         size := ![(ic * batch : Nat), ohExcludePad, owExcludePad]
         src :=
          { offset := srcOffsetKx
            stride := ![srcStrideChannel, y.stride * x.input, x.stride] }
         dst := { offset := dstOffsetKx, stride := ![dstStrideChannel, x.output, 1] } }]
  | _, _ => []

def kernelRegions (input : TensorPtr) (ic batch : Nat) (y x : Axis)
    (srcKernelOffset : Int) (padVal : Option TensorPtr) : List Region :=
  (List.range y.kernel).flatMap fun ky =>
    (List.range x.kernel).flatMap fun kx =>
      regionsAt input ic batch y x srcKernelOffset padVal ky kx

/-- Transpose: batch, ic, kh, kw, oh, ow -> ic, kh, kw, batch, oh, ow -/
def transposed (tempTensor : TensorPtr) (ic batch : Nat) (y x : Axis) : Region :=
  let rows : Int := ic * y.kernel * x.kernel
  let columns : Int := y.output * x.output
  { origin := some tempTensor
    size := ![rows, batch, columns]
    src := { offset := 0, stride := ![columns, columns * rows, 1] }
    dst := { offset := 0, stride := ![columns * batch, columns, 1] } }

/-- The regions of the matrix, and those of the tensor that it is transposed from. -/
structure Columns where
  regions : List Region
  tempRegions : Option (List Region)

def im2Col (input tempTensor : TensorPtr) (ic batch : Nat) (y x : Axis)
    (srcKernelOffset : Int) (padVal : Option TensorPtr) : Columns :=
  let regions := kernelRegions input ic batch y x srcKernelOffset padVal
  if batch > 1 then ⟨[transposed tempTensor ic batch y x], some regions⟩
  else ⟨regions, none⟩

/-! ## Three axes -/

def region3dAt (input : TensorPtr) (ic batch : Nat) (z y x : Axis) (srcKernelOffset : Int)
    (c n kz ky kx : Nat) : List Region :=
  match z.window kz, y.window ky, x.window kx with
  | some wz, some wy, some wx =>
    let dstOffset : Int :=
      (c * z.kernel * y.kernel * x.kernel * batch + n) * z.output * y.output * x.output
    let srcOffset : Int := (n * ic + c) * z.input * y.input * x.input
    let dstOffsetKz :=
      dstOffset + kz * x.kernel * y.kernel * x.output * y.output * z.output * batch +
          wz.startD * y.output * x.output
    let srcOffsetKz := srcOffset + wz.startS * y.input * x.input
    let dstOffsetKy :=
      dstOffsetKz + ky * x.kernel * x.output * y.output * z.output * batch + wy.startD * x.output
    let srcOffsetKy := srcOffsetKz + wy.startS * x.input
    let dstOffsetKx :=
      dstOffsetKy + kx * z.output * y.output * x.output * batch + wx.startD
    let srcOffsetKx := srcOffsetKy + wx.startS + srcKernelOffset * (kx + ky * x.kernel)
    [{ origin := some input
       size := ![wz.endD - wz.startD + 1, wy.endD - wy.startD + 1, wx.endD - wx.startD + 1]
       src :=
        { offset := srcOffsetKx
          stride := ![z.stride * y.input * x.input, y.stride * x.input, x.stride] }
       dst :=
        { offset := dstOffsetKx
          stride := ![y.output * x.output, x.output, 1] } }]
  | _, _, _ => []

/-- The kernel covers the input. -/
def isFast (z y x : Axis) : Bool :=
  decide (z.input = z.kernel ∧ y.input = y.kernel ∧ x.input = x.kernel ∧ z.pad = 0 ∧
      y.pad = 0 ∧ x.pad = 0 ∧ z.dilate = 1 ∧ y.dilate = 1 ∧ x.dilate = 1)

/-- fast impl: n, ic, id, ih, iw -> ic*id*ih*iw, n -/
def fastRegion (input : TensorPtr) (ic batch : Nat) (z y x : Axis) : Region :=
  let elements : Int := ic * z.input * y.input * x.input
  { origin := some input
    size := ![1, elements, batch]
    src := { offset := 0, stride := ![1, 1, elements] }
    dst := { offset := 0, stride := ![1, batch, 1] } }

def im2Col3d (input : TensorPtr) (ic batch : Nat) (z y x : Axis)
    (srcKernelOffset : Int) : List Region :=
  if isFast z y x then
    [fastRegion input ic batch z y x]
  else
    (List.range ic).flatMap fun c =>
      (List.range batch).flatMap fun n =>
        (List.range z.kernel).flatMap fun kz =>
          (List.range y.kernel).flatMap fun ky =>
            (List.range x.kernel).flatMap fun kx =>
              region3dAt input ic batch z y x srcKernelOffset c n kz ky kx

/-! ## What the columns mean -/

/-- All writes are inside of a tensor with so many elements. -/
def Within (regions : List Region) (count : Nat) : Prop :=
  ∀ write ∈ writesOf regions, 0 ≤ write.2 ∧ write.2 < count

/-- What is written to a cell of the matrix; of the transposed tensor, what is there. -/
def Columns.sourcesOf (columns : Columns) (tempTensor : TensorPtr) (cell : Int) : List Source :=
  match columns.tempRegions with
  | none => sourcesAt cell (writesOf columns.regions)
  | some tempRegions =>
    (sourcesAt cell (writesOf columns.regions)).flatMap fun source =>
      if source.1 = some tempTensor then sourcesAt source.2 (writesOf tempRegions)
      else [source]

def Axis.Inside (axis : Axis) (k o : Nat) : Prop :=
  0 ≤ axis.position k o ∧ axis.position k o < axis.input

instance (axis : Axis) (k o : Nat) : Decidable (axis.Inside k o) :=
  inferInstanceAs (Decidable (_ ∧ _))

/-- What is asked for: the element, or outside the value that is given. -/
def asked (input : TensorPtr) (padVal : Option TensorPtr) (ic : Nat) (y x : Axis)
    (c n ky kx oy ox : Nat) : List Source :=
  if y.Inside ky oy ∧ x.Inside kx ox then
    [(some input, ((n * ic + c : Nat) * y.input + y.position ky oy) * x.input + x.position kx ox)]
  else
    padVal.elim [] fun padVal => [(some padVal, 0)]

/-- The cell of the matrix. -/
def cellAt (batch : Nat) (y x : Axis) (c n ky kx oy ox : Nat) : Nat :=
  ((((c * y.kernel + ky) * x.kernel + kx) * batch + n) * y.output + oy) * x.output + ox

/-- Each cell of the matrix has the source that is asked for, and nothing else is
written. -/
structure Columns.Exact (columns : Columns) (input tempTensor : TensorPtr)
    (padVal : Option TensorPtr) (ic batch : Nat) (y x : Axis) : Prop where
  within : Within columns.regions (ic * y.kernel * x.kernel * (batch * y.output * x.output))
  tempWithin :
    ∀ tempRegions ∈ columns.tempRegions,
      Within tempRegions (ic * batch * y.kernel * x.kernel * (y.output * x.output))
  sources :
    ∀ c n ky kx oy ox, c < ic → n < batch → ky < y.kernel → kx < x.kernel → oy < y.output →
        ox < x.output → columns.sourcesOf tempTensor (cellAt batch y x c n ky kx oy ox) =
            asked input padVal ic y x c n ky kx oy ox

def asked3d (input : TensorPtr) (ic : Nat) (z y x : Axis)
    (c n kz ky kx oz oy ox : Nat) : List Source :=
  if z.Inside kz oz ∧ y.Inside ky oy ∧ x.Inside kx ox then
    [(some input, (((n * ic + c : Nat) * z.input + z.position kz oz) * y.input + y.position ky oy) *
          x.input +
        x.position kx ox)]
  else
    []

def cell3dAt (batch : Nat) (z y x : Axis) (c n kz ky kx oz oy ox : Nat) : Nat :=
  ((((((c * z.kernel + kz) * y.kernel + ky) * x.kernel + kx) * batch + n) * z.output + oz) *
        y.output +
      oy) *
      x.output +
    ox

structure Exact3d (regions : List Region) (input : TensorPtr) (ic batch : Nat)
    (z y x : Axis) : Prop where
  within : Within regions
      (ic * z.kernel * y.kernel * x.kernel * (batch * z.output * y.output * x.output))
  sources :
    ∀ c n kz ky kx oz oy ox, c < ic → n < batch → kz < z.kernel → ky < y.kernel → kx < x.kernel →
        oz < z.output → oy < y.output → ox < x.output →
          sourcesAt (cell3dAt batch z y x c n kz ky kx oz oy ox : Int) (writesOf regions) =
            asked3d input ic z y x c n kz ky kx oz oy ox

/-!
# Windows of the kernel

A position of the kernel lies inside at the steps between two ends, and a window is what
lies between them.
-/

open Mnn.Foundation.Windows

variable (k : Nat)

section

variable (axis : Axis)

theorem Axis.stride_pos : (0 : Int) < axis.stride := by
  exact_mod_cast axis.positive

theorem Axis.startD_le_iff {o : Int} (nonneg : 0 ≤ o) :
    axis.startD k ≤ o ↔ 0 ≤ axis.position k o := by
  have isPositive := axis.stride_pos
  have isSteps : 0 ≤ o * axis.stride := mul_nonneg nonneg isPositive.le
  unfold Axis.startD Axis.position
  simp only
  split
  · rw [Int.tdiv_eq_ediv_of_nonneg (by omega), ceil_le axis.positive]
    generalize o * (axis.stride : Int) = steps at *
    omega
  · generalize o * (axis.stride : Int) = steps at *
    omega

theorem Axis.startD_nonneg : 0 ≤ axis.startD k := by
  have isPositive := axis.stride_pos
  unfold Axis.startD
  simp only
  split
  · rw [Int.tdiv_eq_ediv_of_nonneg (by omega)]
    exact Int.ediv_nonneg (by omega) isPositive.le
  · exact le_rfl

theorem Axis.startS_eq :
    axis.startS k = axis.position k (axis.startD k) := by
  unfold Axis.startS Axis.position Axis.startD
  simp only
  split
  · ring
  · ring

theorem Axis.le_endD_iff {o : Int} (less : o < axis.output) :
    o ≤ axis.endD k ↔ axis.position k o < axis.input := by
  have isPositive := axis.stride_pos
  unfold Axis.endD
  simp only
  split
  · next isBehind =>
      rw [Int.tdiv_eq_ediv_of_nonneg (by omega)]
      have atMost :
          (axis.position k (axis.output - 1) - axis.input + axis.stride) / axis.stride <
              axis.output - o ↔
            axis.position k (axis.output - 1) - axis.input + axis.stride <
              (axis.output - o) * axis.stride :=
        Int.ediv_lt_iff_lt_mul isPositive
      have isLast :
          axis.position k (axis.output - 1) + axis.stride =
            axis.position k o + (axis.output - o) * axis.stride := by
        unfold Axis.position
        ring
      omega
  · next isInside =>
      have isBefore : axis.position k o ≤ axis.position k (axis.output - 1) := by
        have atMost : o * (axis.stride : Int) ≤ (axis.output - 1) * axis.stride :=
          mul_le_mul_of_nonneg_right (by omega) isPositive.le
        unfold Axis.position
        omega
      omega

theorem Axis.endD_lt : axis.endD k < axis.output := by
  have isPositive := axis.stride_pos
  unfold Axis.endD
  simp only
  split
  · rw [Int.tdiv_eq_ediv_of_nonneg (by omega)]
    have atLeast : 0 ≤ (axis.position k (axis.output - 1) - axis.input + axis.stride) /
          axis.stride :=
      Int.ediv_nonneg (by omega) isPositive.le
    omega
  · omega

theorem Axis.after_eq : axis.after k = axis.output - axis.endD k - 1 := by
  unfold Axis.after
  split
  · rfl
  · next isInside =>
      rw [Axis.endD, if_neg isInside]
      ring

end

/-- What a window covers: so many steps from a first one. -/
structure Window.Covers (window : Window) (axis : Axis) (k first count : Nat) : Prop where
  some : 0 < count
  fits : first + count ≤ axis.output
  startD : window.startD = first
  endD : window.endD = first + count - 1
  before : window.before = first
  after : window.after = (axis.output - first - count : Nat)
  startS : window.startS = axis.position k first
  inside : ∀ o < axis.output, axis.Inside k o ↔ first ≤ o ∧ o < first + count

/-- Either there is no step inside, or the window covers all of them. -/
theorem window_cases (axis : Axis) (k : Nat) :
    (axis.window k = none ∧ ∀ o < axis.output, ¬axis.Inside k o) ∨ ∃ window first count,
        axis.window k = some window ∧ window.Covers axis k first count := by
  have atLeast := axis.startD_nonneg k
  have atMost := axis.endD_lt k
  have fromStart (o : Nat) := axis.startD_le_iff k (Int.natCast_nonneg o)
  have toEnd (o : Nat) (less : o < axis.output) :=
    axis.le_endD_iff k (show (o : Int) < axis.output by exact_mod_cast less)
  rw [Axis.window]
  by_cases isEmpty : axis.startD k > axis.endD k
  · rw [if_pos (Or.inl isEmpty)]
    refine Or.inl ⟨rfl, fun o less isInside => ?_⟩
    have isFrom := (fromStart o).mpr isInside.1
    have isTo := (toEnd o less).mpr isInside.2
    omega
  · have startInside : axis.startS k < axis.input := by
      rw [axis.startS_eq]
      exact (axis.le_endD_iff k (by omega)).mp (by omega)
    rw [if_neg (by omega)]
    rcases Int.eq_ofNat_of_zero_le atLeast with ⟨first, isFirst⟩
    rcases Int.eq_ofNat_of_zero_le (show 0 ≤ axis.endD k - axis.startD k by omega) with
      ⟨count, isCount⟩
    refine Or.inr ⟨_, first, count + 1, rfl, ?_⟩
    refine ⟨Nat.succ_pos _, by omega, isFirst, ?_, isFirst, ?_, ?_, fun o less => ?_⟩
    · show axis.endD k = _
      omega
    · show axis.after k = _
      rw [axis.after_eq]
      omega
    · show axis.startS k = _
      rw [axis.startS_eq, isFirst]
    · rw [Axis.Inside, ← fromStart o, ← toEnd o less]
      omega

theorem writesOf_singleton (reg : Region) :
    writesOf [reg] = (List.range (reg.size 0).toNat).flatMap fun (i : Nat) =>
        (List.range (reg.size 1).toNat).flatMap fun (j : Nat) =>
          (List.range (reg.size 2).toNat).flatMap fun (k : Nat) =>
            [((reg.origin, reg.src.offset + (i * reg.src.stride 0 + (j * reg.src.stride 1 +
                  k * reg.src.stride 2))),
              reg.dst.offset + (i * reg.dst.stride 0 + (j * reg.dst.stride 1 +
                k * reg.dst.stride 2)))] := by
  rw [writesOf, flatMap_singleton, moves_eq_flatMap]
  simp only [map_eq_flatMap, flatMap_assoc, flatMap_cons,
    flatMap_nil, append_nil]

/-- The source of a cell that determines the turns of the loops. -/
theorem sourcesAt_region {reg : Region} {cell : Int} {firsts sizes turns : Fin 3 → Nat}
    {matching : Prop} (areSizes : ∀ axis, reg.size axis = sizes axis)
    (determined :
      ∀ i j k : Nat, i < sizes 0 → j < sizes 1 → k < sizes 2 →
          (reg.dst.offset + (i * reg.dst.stride 0 + (j * reg.dst.stride 1 +
                k * reg.dst.stride 2)) = cell ↔
            matching ∧ firsts 0 + i = turns 0 ∧ firsts 1 + j = turns 1 ∧ firsts 2 + k = turns 2)) :
    ((matching ∧ Turns firsts sizes turns) ∧ sourcesAt cell (writesOf [reg]) = [(reg.origin,
            reg.src.offset + ((turns 0 - firsts 0 : Nat) * reg.src.stride 0 +
              ((turns 1 - firsts 1 : Nat) * reg.src.stride 1 +
                (turns 2 - firsts 2 : Nat) * reg.src.stride 2)))]) ∨
      ¬(matching ∧ Turns firsts sizes turns) ∧ sourcesAt cell (writesOf [reg]) = [] := by
  rw [writesOf_singleton, areSizes, areSizes, areSizes, Int.toNat_natCast,
    Int.toNat_natCast, Int.toNat_natCast]
  exact sourcesAt_box (fun i j k =>
      (reg.origin, reg.src.offset + (i * reg.src.stride 0 + (j * reg.src.stride 1 +
          k * reg.src.stride 2))))
    (fun i j k =>
      reg.dst.offset + (i * reg.dst.stride 0 + (j * reg.dst.stride 1 + k * reg.dst.stride 2)))
    determined

end Mnn.Geometry.Im2Col
