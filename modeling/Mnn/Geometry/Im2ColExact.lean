import Mnn.Core.Macro
import Mnn.Geometry.Im2Col

/-!
# Columns of two axes

For one position of the kernel, the regions write rows of the window and the strips around
it.  The strips are written for as many channels as one image has.
-/

namespace Mnn.Geometry.Im2Col

open Mnn.Core
open Mnn.Core.Raster
open Mnn.Foundation.CellSources
open Mnn.Foundation.LoopNests
open List

/-- The cells of the rows, an image after the other. -/
def tempCell (kernels outHeight outWidth c k oy ox : Nat) : Nat :=
  ((c * kernels + k) * outHeight + oy) * outWidth + ox

theorem sourcesAt_box_piece {reg : Region}
    {channels kernels outHeight outWidth k' y0 x0 height width c k oy ox : Nat}
    (areSizes : reg.size = ![(channels : Int), height, width])
    (isOffset : reg.dst.offset = ((k' * outHeight + y0) * outWidth + x0 : Nat))
    (areStrides : reg.dst.stride = ![((kernels * outHeight * outWidth : Nat) : Int), outWidth, 1])
    (kLess : k < kernels) (kLess' : k' < kernels) (yLess : oy < outHeight)
    (xLess : ox < outWidth) (heightFits : y0 + height ≤ outHeight)
    (widthFits : x0 + width ≤ outWidth) :
    sourcesAt (tempCell kernels outHeight outWidth c k oy ox : Int) (writesOf [reg]) =
      if (k' = k ∧ c < channels) ∧ (y0 ≤ oy ∧ oy < y0 + height) ∧
          (x0 ≤ ox ∧ ox < x0 + width) then
        [(reg.origin, reg.src.offset + (c * reg.src.stride 0 + ((oy - y0 : Nat) * reg.src.stride 1 +
            (ox - x0 : Nat) * reg.src.stride 2)))]
      else
        [] := by
  have areSizes' (axis : Fin 3) :
      reg.size axis = ((![channels, height, width] axis : Nat) : Int) := by
    rw [areSizes]
    fin_cases axis <;> rfl
  have determined (i j a : Nat) (iLess : i < channels) (jLess : j < height) (aLess : a < width) :
      reg.dst.offset + (i * reg.dst.stride 0 + (j * reg.dst.stride 1 + a * reg.dst.stride 2)) =
          (tempCell kernels outHeight outWidth c k oy ox : Int) ↔
        k' = k ∧ 0 + i = c ∧ y0 + j = oy ∧ x0 + a = ox := by
    have isCell :
        reg.dst.offset + (i * reg.dst.stride 0 + (j * reg.dst.stride 1 + a * reg.dst.stride 2)) =
          (tempCell kernels outHeight outWidth i k' (y0 + j) (x0 + a) : Int) := by
      rw [isOffset, areStrides, tempCell]
      simp only [Matrix.cons_val_zero, Matrix.cons_val_one, Matrix.cons_val]
      push_cast
      ring
    rw [isCell, Nat.cast_inj]
    constructor
    · intro same
      rcases digits_inj (by omega) xLess same with ⟨same, isX⟩
      rcases digits_inj (by omega) yLess same with ⟨same, isY⟩
      rcases digits_inj kLess' kLess same with ⟨isC, isK⟩
      exact ⟨isK, by omega, isY, isX⟩
    · rintro ⟨rfl, rfl, rfl, rfl⟩
      rw [zero_add]
  rcases @sourcesAt_region reg _ ![0, y0, x0] ![channels, height, width] ![c, oy, ox]
      (k' = k) areSizes' determined with
    ⟨⟨isK, ⟨inChannels, inRows, inColumns⟩⟩, sources⟩ | ⟨notTurn, sources⟩
  · have inChannels : c < 0 + channels := inChannels.2
    rw [sources, if_pos ⟨⟨isK, by omega⟩, inRows, inColumns⟩]
    rfl
  · rw [sources, if_neg]
    rintro ⟨⟨isK, inChannels⟩, inRows, inColumns⟩
    refine notTurn ⟨isK, ⟨⟨Nat.zero_le _, ?_⟩, inRows, inColumns⟩⟩
    show c < 0 + channels
    omega

section Strips

/-- The given value, over a box of the steps. -/
def strip (padVal : TensorPtr) (ic kernels outHeight outWidth k' y0 x0 height width : Nat) :
    List Region :=
  addPadValue padVal ic ((k' * outHeight + y0) * outWidth + x0 : Nat)
    (kernels * outHeight * outWidth : Nat) width 0 height outWidth

variable {padVal : TensorPtr} {ic kernels outHeight outWidth k' y0 x0 height width : Nat}

theorem sourcesAt_strip {c k oy ox : Nat} (kLess : k < kernels) (kLess' : k' < kernels)
    (yLess : oy < outHeight) (xLess : ox < outWidth) (heightFits : y0 + height ≤ outHeight)
    (widthFits : x0 + width ≤ outWidth) :
    sourcesAt (tempCell kernels outHeight outWidth c k oy ox : Int)
        (writesOf (strip padVal ic kernels outHeight outWidth k' y0 x0 height width)) =
      if (k' = k ∧ c < ic) ∧ (y0 ≤ oy ∧ oy < y0 + height) ∧ (x0 ≤ ox ∧ ox < x0 + width) then
        [(some padVal, 0)]
      else
        [] := by
  rw [strip, addPadValue]
  by_cases isPositive : (width : Int) > 0
  · rw [if_pos isPositive, sourcesAt_box_piece rfl (add_zero _) rfl kLess kLess' yLess xLess
      heightFits widthFits]
    simp
  · rw [if_neg isPositive, if_neg (by omega)]
    rfl

/-- Whole rows are written as one, which is the same as row by row. -/
theorem writesOf_rows {dstOffset offset : Int} (hasWidth : 0 < outWidth)
    (isOffset : dstOffset + offset = ((k' * outHeight + y0) * outWidth : Nat)) :
    writesOf (addPadValue padVal ic dstOffset (kernels * outHeight * outWidth : Nat)
        (height * outWidth : Nat) offset 1 0) =
      writesOf (strip padVal ic kernels outHeight outWidth k' y0 0 height outWidth) := by
  rw [strip, addPadValue, addPadValue, if_pos (show (outWidth : Int) > 0 by omega), isOffset]
  by_cases isPositive : ((height * outWidth : Nat) : Int) > 0
  · rw [if_pos isPositive, writesOf_singleton, writesOf_singleton]
    simp only [Matrix.cons_val_zero, Matrix.cons_val_one, Matrix.cons_val, Int.toNat_natCast,
      Int.toNat_one, range_one, flatMap_cons, flatMap_nil, append_nil, range_mul, flatMap_assoc,
      flatMap_map]
    refine flatMap_congr fun c _ => flatMap_congr fun oy _ => flatMap_congr fun ox _ => ?_
    simp only [mul_zero, add_zero, zero_add]
    push_cast
    ring_nf
  · have isEmpty : height = 0 := by
      by_contra notEmpty
      exact isPositive (by exact_mod_cast Nat.mul_pos (Nat.pos_of_ne_zero notEmpty) hasWidth)
    rw [if_neg isPositive, writesOf_singleton, isEmpty]
    simp [writesOf]

theorem writesOf_box {dstOffset offset : Int}
    (isOffset : dstOffset + offset = ((k' * outHeight + y0) * outWidth + x0 : Nat)) :
    writesOf (addPadValue padVal ic dstOffset (kernels * outHeight * outWidth : Nat) width offset
        height outWidth) =
      writesOf (strip padVal ic kernels outHeight outWidth k' y0 x0 height width) := by
  rw [strip, addPadValue, addPadValue, isOffset, add_zero]

/-- Above, below, left and right of the window. -/
theorem writesOf_padRegions {y x : Axis} {wy wx : Window} {ky kx fy ny fx nx : Nat}
    (coversY : wy.Covers y ky fy ny) (coversX : wx.Covers x kx fx nx) :
    writesOf (padRegions padVal ic x.output (((k' * y.output + fy) * x.output + fx : Nat))
        (kernels * y.output * x.output : Nat) wy wx) =
      writesOf (strip padVal ic kernels y.output x.output k' 0 0 fy x.output) ++
        (writesOf (strip padVal ic kernels y.output x.output k' (fy + ny) 0
            (y.output - fy - ny) x.output) ++
          (writesOf (strip padVal ic kernels y.output x.output k' fy 0 ny fx) ++
            writesOf (strip padVal ic kernels y.output x.output k' fy (fx + nx) ny
              (x.output - fx - nx)))) := by
  have hasWidth : 0 < x.output :=
    Nat.lt_of_lt_of_le coversX.some (Nat.le_trans (Nat.le_add_left ..) coversX.fits)
  have isCount (first count : Nat) : (first : Int) + count - 1 - first + 1 = count := by
    ring
  rw [padRegions, coversY.before, coversY.after, coversY.startD, coversY.endD, coversX.before,
    coversX.after, coversX.startD, coversX.endD, isCount, isCount]
  simp only [writesOf_append, ← Nat.cast_mul]
  rw [writesOf_rows hasWidth, writesOf_rows hasWidth, writesOf_box, writesOf_box]
  all_goals
    push_cast
    ring

end Strips

/-! ## One position of the kernel -/

section Kernel

variable {input : TensorPtr} {ic batch : Nat} {y x : Axis} {padVal : Option TensorPtr}

/-- The given value, for the channels of one image. -/
def padSources (padVal : Option TensorPtr) (ic c : Nat) : List Source :=
  padVal.elim [] fun padVal => if c < ic then [(some padVal, 0)] else []

/-- The sources for a position with windows, of a channel of any image. -/
def windowSources (input : TensorPtr) (padVal : Option TensorPtr) (ic batch : Nat)
    (y x : Axis) (c ky kx oy ox : Nat) : List Source :=
  if y.Inside ky oy ∧ x.Inside kx ox then
    if c < ic * batch then
      [(some input, (c * y.input + y.position ky oy) * x.input + x.position kx ox)]
    else
      []
  else
    padSources padVal ic c

variable {ky kx c k oy ox : Nat}

theorem sourcesAt_padRegions {padVal : TensorPtr} {wy wx : Window} {fy ny fx nx kernels k' : Nat}
    (coversY : wy.Covers y ky fy ny) (coversX : wx.Covers x kx fx nx) (kLess : k < kernels)
    (kLess' : k' < kernels) (yLess : oy < y.output) (xLess : ox < x.output) :
    sourcesAt (tempCell kernels y.output x.output c k oy ox : Int)
        (writesOf (padRegions padVal ic x.output (((k' * y.output + fy) * x.output + fx : Nat))
          (kernels * y.output * x.output : Nat) wy wx)) =
      if (k' = k ∧ c < ic) ∧ ¬(y.Inside ky oy ∧ x.Inside kx ox) then [(some padVal, 0)]
      else [] := by
  have fitsY := coversY.fits
  have fitsX := coversX.fits
  have strips (y0 x0 height width : Nat) (heightFits : y0 + height ≤ y.output)
      (widthFits : x0 + width ≤ x.output) :=
    @sourcesAt_strip padVal ic kernels y.output x.output k' y0 x0 height width c k oy ox kLess
      kLess' yLess xLess heightFits widthFits
  rw [writesOf_padRegions coversY coversX, sourcesAt_append, sourcesAt_append, sourcesAt_append,
    strips _ _ _ _ (by omega) (by omega), strips _ _ _ _ (by omega) (by omega),
    strips _ _ _ _ fitsY (by omega), strips _ _ _ _ fitsY (by omega)]
  simp only [coversY.inside oy yLess, coversX.inside ox xLess]
  by_cases isHere : k' = k ∧ c < ic
  · rcases Nat.lt_or_ge oy fy with isAbove | notAbove
    · rw [if_pos ⟨isHere, by omega, by omega⟩, if_neg (by omega), if_neg (by omega),
        if_neg (by omega), if_pos ⟨isHere, by omega⟩]
      rfl
    rcases Nat.lt_or_ge oy (fy + ny) with notBelow | isBelow
    · have inRows : fy ≤ oy ∧ oy < fy + ny := ⟨notAbove, notBelow⟩
      rw [if_neg (by omega), if_neg (by omega)]
      rcases Nat.lt_or_ge ox fx with isLeft | notLeft
      · rw [if_pos ⟨isHere, inRows, by omega, by omega⟩, if_neg (by omega),
          if_pos ⟨isHere, by omega⟩]
        rfl
      rcases Nat.lt_or_ge ox (fx + nx) with notRight | isRight
      · rw [if_neg (by omega), if_neg (by omega),
          if_neg fun outside => outside.2 ⟨inRows, notLeft, notRight⟩]
        rfl
      · rw [if_neg (by omega), if_pos ⟨isHere, inRows, isRight, by omega⟩,
          if_pos ⟨isHere, by omega⟩]
        rfl
    · rw [if_neg (by omega), if_pos ⟨isHere, by omega, by omega⟩, if_neg (by omega),
        if_neg (by omega), if_pos ⟨isHere, by omega⟩]
      rfl
  · simp [isHere]

/-- The sources of a cell, with or without windows. -/
def kernelSources (input : TensorPtr) (padVal : Option TensorPtr) (ic batch : Nat)
    (y x : Axis) (c ky kx oy ox : Nat) : List Source :=
  if (y.window ky).isSome ∧ (x.window kx).isSome then
    windowSources input padVal ic batch y x c ky kx oy ox
  else
    []

/-- Either there is no window, or the regions are the strips and the window. -/
theorem regionsAt_cases (ky kx : Nat) :
    (regionsAt input ic batch y x 0 padVal ky kx = [] ∧
        ¬((y.window ky).isSome ∧ (x.window kx).isSome)) ∨
      ((y.window ky).isSome ∧ (x.window kx).isSome) ∧
        ∃ wy fy ny wx fx nx, wy.Covers y ky fy ny ∧ wx.Covers x kx fx nx ∧
          regionsAt input ic batch y x 0 padVal ky kx =
            (padVal.elim [] fun padVal =>
              padRegions padVal ic x.output
                (((ky * x.kernel + kx) * y.output + fy) * x.output + fx : Nat)
                (y.kernel * x.kernel * y.output * x.output : Nat) wy wx) ++
              [{ origin := some input
                 size := ![(ic * batch : Nat), ny, nx]
                 src :=
                  { offset := y.position ky fy * x.input + x.position kx fx
                    stride := ![(x.input : Int) * y.input, (y.stride : Int) * x.input, x.stride] }
                 dst :=
                  { offset := (((ky * x.kernel + kx) * y.output + fy) * x.output + fx : Nat)
                    stride :=
                      ![((y.kernel * x.kernel * y.output * x.output : Nat) : Int), x.output, 1] } }] := by
  rcases window_cases y ky with ⟨isNone, -⟩ | ⟨wy, fy, ny, isWindowY, coversY⟩
  · rw [regionsAt, isNone]
    exact Or.inl ⟨rfl, fun both => nomatch both.1⟩
  rcases window_cases x kx with ⟨isNone, -⟩ | ⟨wx, fx, nx, isWindowX, coversX⟩
  · rw [regionsAt, isWindowY, isNone]
    exact Or.inl ⟨rfl, fun both => nomatch both.2⟩
  have isCount (first count : Nat) : (first : Int) + count - 1 - first + 1 = count := by
    ring
  have isOffset :
      (ky : Int) * x.kernel * x.output * y.output + fy * x.output + kx * x.output * y.output + fx =
        (((ky * x.kernel + kx) * y.output + fy) * x.output + fx : Nat) := by
    push_cast
    ring
  have isStride :
      (y.output : Int) * x.output * y.kernel * x.kernel =
        (y.kernel * x.kernel * y.output * x.output : Nat) := by
    push_cast
    ring
  rw [regionsAt, isWindowY, isWindowX]
  refine Or.inr ⟨⟨rfl, rfl⟩, wy, fy, ny, wx, fx, nx, coversY, coversX, ?_⟩
  simp only [coversY.startD, coversY.endD, coversX.startD, coversX.endD, coversY.startS,
    coversX.startS, isCount, isOffset, isStride, zero_mul, add_zero]

theorem sourcesAt_regionsAt (kyLess : ky < y.kernel)
    (kxLess : kx < x.kernel) (kLess : k < y.kernel * x.kernel) (yLess : oy < y.output)
    (xLess : ox < x.output) :
    sourcesAt (tempCell (y.kernel * x.kernel) y.output x.output c k oy ox : Int)
        (writesOf (regionsAt input ic batch y x 0 padVal ky kx)) =
      if ky * x.kernel + kx = k then kernelSources input padVal ic batch y x c ky kx oy ox
      else [] := by
  rcases @regionsAt_cases input ic batch y x padVal ky kx with
    ⟨isEmpty, noWindow⟩ | ⟨hasWindow, wy, fy, ny, wx, fx, nx, coversY, coversX, areRegions⟩
  · rw [isEmpty, kernelSources, if_neg noWindow, ite_self]
    rfl
  have kLess' : ky * x.kernel + kx < y.kernel * x.kernel := digits_lt kyLess kxLess
  rw [kernelSources, if_pos hasWindow, areRegions, writesOf_append, sourcesAt_append,
    @sourcesAt_box_piece _ (ic * batch) (y.kernel * x.kernel) y.output x.output
      (ky * x.kernel + kx) fy fx ny nx c k oy ox rfl rfl rfl kLess kLess' yLess xLess
      coversY.fits coversX.fits]
  have isWindow :
      y.Inside ky oy ∧ x.Inside kx ox ↔ (fy ≤ oy ∧ oy < fy + ny) ∧ (fx ≤ ox ∧ ox < fx + nx) :=
    and_congr (coversY.inside oy yLess) (coversX.inside ox xLess)
  have pads : sourcesAt (tempCell (y.kernel * x.kernel) y.output x.output c k oy ox : Int) (writesOf
            (padVal.elim [] fun padVal =>
              padRegions padVal ic x.output
                (((ky * x.kernel + kx) * y.output + fy) * x.output + fx : Nat)
                (y.kernel * x.kernel * y.output * x.output : Nat) wy wx)) =
        if ky * x.kernel + kx = k ∧ ¬(y.Inside ky oy ∧ x.Inside kx ox) then
          padSources padVal ic c
        else
          [] := by
    cases padVal with
    | none => exact (ite_self _).symm
    | some padVal =>
      simp only [padSources, Option.elim_some]
      rw [sourcesAt_padRegions coversY coversX kLess kLess' yLess xLess]
      by_cases isHere : ky * x.kernel + kx = k ∧ ¬(y.Inside ky oy ∧ x.Inside kx ox)
      · by_cases inChannels : c < ic
        · rw [if_pos ⟨⟨isHere.1, inChannels⟩, isHere.2⟩, if_pos isHere, if_pos inChannels]
        · rw [if_neg fun inside => inChannels inside.1.2, if_pos isHere, if_neg inChannels]
      · rw [if_neg fun inside => isHere ⟨inside.1.1, inside.2⟩, if_neg isHere]
  rw [pads, windowSources]
  by_cases isHere : ky * x.kernel + kx = k
  · rw [if_pos isHere]
    by_cases isInside : y.Inside ky oy ∧ x.Inside kx ox
    · rw [if_neg fun outside => outside.2 isInside, if_pos isInside, nil_append]
      have inWindow := isWindow.mp isInside
      by_cases inChannels : c < ic * batch
      · rw [if_pos ⟨⟨isHere, inChannels⟩, inWindow⟩, if_pos inChannels]
        simp only [Matrix.cons_val_zero, Matrix.cons_val_one, Matrix.cons_val, Axis.position]
        push_cast [inWindow.1.1, inWindow.2.1]
        rw [List.cons.injEq, Prod.mk.injEq]
        refine ⟨⟨rfl, ?_⟩, rfl⟩
        ring
      · rw [if_neg fun inside => inChannels inside.1.2, if_neg inChannels]
    · rw [if_pos ⟨isHere, isInside⟩, if_neg isInside,
        if_neg fun inside => isInside (isWindow.mpr inside.2), append_nil]
  · rw [if_neg fun outside => isHere outside.1, if_neg fun inside => isHere inside.1.1,
      if_neg isHere]
    rfl

/-! ## All positions of the kernel -/

/-- Some step of an axis is inside. -/
def Axis.Touches (axis : Axis) (k : Nat) : Prop := ∃ o < axis.output, axis.Inside k o

theorem window_isSome_iff (axis : Axis) (k : Nat) :
    (axis.window k).isSome = true ↔ axis.Touches k := by
  rcases window_cases axis k with ⟨isNone, outside⟩ | ⟨window, first, count, isSome, covers⟩
  · rw [isNone]
    refine ⟨fun isSome => by simp at isSome, ?_⟩
    rintro ⟨o, less, isInside⟩
    exact absurd isInside (outside o less)
  · rw [isSome]
    have hasSome := covers.some
    have fits := covers.fits
    have less : first < axis.output := by omega
    exact ⟨fun _ => ⟨first, less, (covers.inside first less).mpr (by omega)⟩, fun _ => rfl⟩

theorem sourcesAt_kernelRegions (kyLess : ky < y.kernel)
    (kxLess : kx < x.kernel) (yLess : oy < y.output) (xLess : ox < x.output) :
    sourcesAt (tempCell (y.kernel * x.kernel) y.output x.output c (ky * x.kernel + kx) oy ox : Int)
        (writesOf (kernelRegions input ic batch y x 0 padVal)) =
      kernelSources input padVal ic batch y x c ky kx oy ox := by
  have kLess := digits_lt kyLess kxLess
  rw [kernelRegions, writesOf_flatMap]
  refine (sourcesAt_turn kyLess fun ky' kyLess' => ?_).trans (if_pos trivial)
  rw [writesOf_flatMap]
  refine sourcesAt_turn kxLess fun kx' kxLess' => ?_
  rw [sourcesAt_regionsAt kyLess' kxLess' kLess yLess xLess]
  refine if_ctx_congr ⟨fun same => ?_, ?_⟩ (fun same => ?_) fun _ => rfl
  · rcases digits_inj kxLess' kxLess same with ⟨isKy, isKx⟩
    exact ⟨isKx, isKy, trivial⟩
  · rintro ⟨rfl, rfl, -⟩
    rfl
  · rw [same.1, same.2.1]

end Kernel

end Mnn.Geometry.Im2Col
