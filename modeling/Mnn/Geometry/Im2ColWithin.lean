import Mnn.Geometry.Im2ColExact

/-!
# Where columns are written

Every write is to the row of its position of the kernel, in a channel of some image; or,
for the given value, in a channel of the first one.
-/

variable {channels kernels outHeight outWidth k' y0 x0 height width ky kx c oy ox : Nat}
  {write : Source × Int}

namespace Mnn.Geometry.Im2Col

open Mnn.Core
open Mnn.Core.Raster
open Mnn.Foundation.CellSources
open List
open Option
open Nat

section

variable {reg : Region} {write : Source × Int}

theorem exists_of_mem_writesOf (isIn : write ∈ writesOf [reg]) :
    ∃ i j a : Nat, (i < (reg.size 0).toNat ∧ j < (reg.size 1).toNat ∧ a < (reg.size 2).toNat) ∧
        write.2 = reg.dst.offset + (i * reg.dst.stride 0 + (j * reg.dst.stride 1 +
            a * reg.dst.stride 2)) := by
  rw [writesOf_singleton] at isIn
  rcases mem_flatMap.mp isIn with ⟨i, iLess, isIn⟩
  rcases mem_flatMap.mp isIn with ⟨j, jLess, isIn⟩
  rcases mem_flatMap.mp isIn with ⟨a, aLess, isIn⟩
  obtain rfl := mem_singleton.mp isIn
  exact ⟨i, j, a, ⟨mem_range.mp iLess, mem_range.mp jLess, mem_range.mp aLess⟩, rfl⟩

theorem mem_box_piece (areSizes : reg.size = ![(channels : Int), height, width])
    (isOffset : reg.dst.offset = ((k' * outHeight + y0) * outWidth + x0 : Nat))
    (areStrides : reg.dst.stride = ![((kernels * outHeight * outWidth : Nat) : Int), outWidth, 1])
    (isIn : write ∈ writesOf [reg]) :
    ∃ c oy ox, (c < channels ∧ (y0 ≤ oy ∧ oy < y0 + height) ∧ x0 ≤ ox ∧ ox < x0 + width) ∧
        write.2 = (tempCell kernels outHeight outWidth c k' oy ox : Int) := by
  rcases exists_of_mem_writesOf isIn with ⟨i, j, a, ⟨iLess, jLess, aLess⟩, isCell⟩
  rw [areSizes] at iLess jLess aLess
  have iLess : i < channels := by
    rw [← Int.toNat_natCast channels]
    exact iLess
  have jLess : j < height := by
    rw [← Int.toNat_natCast height]
    exact jLess
  have aLess : a < width := by
    rw [← Int.toNat_natCast width]
    exact aLess
  refine ⟨i, y0 + j, x0 + a, by omega, ?_⟩
  rw [isCell, isOffset, areStrides, tempCell]
  simp only [Matrix.cons_val_zero, Matrix.cons_val_one, Matrix.cons_val]
  push_cast
  ring

theorem mem_strip {padVal : TensorPtr} {ic : Nat}
    (isIn : write ∈ writesOf (strip padVal ic kernels outHeight outWidth k' y0 x0 height width)) :
    ∃ c oy ox, (c < ic ∧ (y0 ≤ oy ∧ oy < y0 + height) ∧ x0 ≤ ox ∧ ox < x0 + width) ∧
        write.2 = (tempCell kernels outHeight outWidth c k' oy ox : Int) := by
  rw [strip, addPadValue] at isIn
  split at isIn
  · exact mem_box_piece rfl (add_zero _) rfl isIn
  · cases isIn

end

section Kernel

variable {input : TensorPtr} {ic batch : Nat} {y x : Axis} {padVal : Option TensorPtr}

theorem mem_padRegions {padVal : TensorPtr} {wy wx : Window} {fy ny fx nx : Nat}
    (coversY : wy.Covers y ky fy ny) (coversX : wx.Covers x kx fx nx)
    (isIn : write ∈ writesOf (padRegions padVal ic x.output
      (((k' * y.output + fy) * x.output + fx : Nat)) (kernels * y.output * x.output : Nat) wy wx)) :
    ∃ c oy ox, (c < ic ∧ oy < y.output ∧ ox < x.output ∧ ¬(y.Inside ky oy ∧ x.Inside kx ox)) ∧
        write.2 = (tempCell kernels y.output x.output c k' oy ox : Int) := by
  have fitsY := coversY.fits
  have fitsX := coversX.fits
  have within (c oy ox : Nat) (cLess : c < ic) (yLess : oy < y.output) (xLess : ox < x.output)
      (isOutside : ¬((fy ≤ oy ∧ oy < fy + ny) ∧ (fx ≤ ox ∧ ox < fx + nx))) :
      c < ic ∧ oy < y.output ∧ ox < x.output ∧ ¬(y.Inside ky oy ∧ x.Inside kx ox) := by
    rw [coversY.inside oy yLess, coversX.inside ox xLess]
    exact ⟨cLess, yLess, xLess, isOutside⟩
  rw [writesOf_padRegions coversY coversX] at isIn
  simp only [mem_append] at isIn
  rcases isIn with isIn | isIn | isIn | isIn
  all_goals
    rcases mem_strip isIn with ⟨c, oy, ox, ⟨cLess, inRows, inColumns⟩, isCell⟩
    exact ⟨c, oy, ox, within c oy ox cLess (by omega) (by omega) (by omega), isCell⟩

theorem mem_regionsAt (isIn : write ∈ writesOf (regionsAt input ic batch y x 0 padVal ky kx)) :
    ∃ c oy ox, (oy < y.output ∧ ox < x.output) ∧ (c < ic * batch ∨
            c < ic ∧ padVal ≠ none ∧ (y.Touches ky ∧ x.Touches kx) ∧
              ¬(y.Inside ky oy ∧ x.Inside kx ox)) ∧
          write.2 = (tempCell (y.kernel * x.kernel) y.output x.output c (ky * x.kernel + kx) oy ox :
              Int) := by
  rcases @regionsAt_cases input ic batch y x padVal ky kx with
    ⟨isEmpty, -⟩ | ⟨hasWindow, wy, fy, ny, wx, fx, nx, coversY, coversX, areRegions⟩
  · rw [isEmpty] at isIn
    cases isIn
  have touches : y.Touches ky ∧ x.Touches kx :=
    ⟨(window_isSome_iff y ky).mp hasWindow.1, (window_isSome_iff x kx).mp hasWindow.2⟩
  have fitsY := coversY.fits
  have fitsX := coversX.fits
  rw [areRegions, writesOf_append, mem_append] at isIn
  rcases isIn with isPad | isElement
  · cases padVal with
    | none => cases isPad
    | some padVal =>
      rcases mem_padRegions coversY coversX isPad with
        ⟨c, oy, ox, ⟨cLess, yLess, xLess, isOutside⟩, isCell⟩
      exact ⟨c, oy, ox, ⟨yLess, xLess⟩, Or.inr ⟨cLess, by simp, touches, isOutside⟩, isCell⟩
  · rcases mem_box_piece rfl rfl rfl isElement with
      ⟨c, oy, ox, ⟨cLess, inRows, inColumns⟩, isCell⟩
    exact ⟨c, oy, ox, by omega, Or.inl cLess, isCell⟩

theorem mem_kernelRegions (isIn : write ∈ writesOf (kernelRegions input ic batch y x 0 padVal)) :
    ∃ c ky kx oy ox, ((ky < y.kernel ∧ kx < x.kernel) ∧ oy < y.output ∧ ox < x.output) ∧
        (c < ic * batch ∨ c < ic ∧ padVal ≠ none ∧ (y.Touches ky ∧ x.Touches kx) ∧
              ¬(y.Inside ky oy ∧ x.Inside kx ox)) ∧
          write.2 = (tempCell (y.kernel * x.kernel) y.output x.output c (ky * x.kernel + kx) oy ox :
              Int) := by
  rw [kernelRegions, writesOf_flatMap] at isIn
  rcases mem_flatMap.mp isIn with ⟨ky, kyLess, isIn⟩
  rw [writesOf_flatMap] at isIn
  rcases mem_flatMap.mp isIn with ⟨kx, kxLess, isIn⟩
  rw [mem_range] at kyLess kxLess
  rcases mem_regionsAt isIn with ⟨c, oy, ox, isStep, isChannel, isCell⟩
  exact ⟨c, ky, kx, oy, ox, ⟨⟨kyLess, kxLess⟩, isStep⟩, isChannel, isCell⟩

theorem tempCell_lt {k : Nat} (cLess : c < channels) (kLess : k < kernels) (yLess : oy < outHeight)
    (xLess : ox < outWidth) :
    tempCell kernels outHeight outWidth c k oy ox <
      channels * kernels * (outHeight * outWidth) := by
  rw [← mul_assoc]
  exact digits_lt (digits_lt (digits_lt cLess kLess) yLess) xLess

/-! ## The matrix -/

/--
What is outside is given by one image, at positions of the kernel that lie inside at some
step.
-/
def Covered (padVal : Option TensorPtr) (ic batch : Nat) (y x : Axis) : Prop :=
  padVal = none ∨ ic = 0 ∨ ∀ ky kx oy ox,
      ky < y.kernel → kx < x.kernel → oy < y.output → ox < x.output →
        ¬(y.Inside ky oy ∧ x.Inside kx ox) → batch = 0 ∧ ¬(y.Touches ky ∧ x.Touches kx) ∨
            batch = 1 ∧ y.Touches ky ∧ x.Touches kx

section

variable {tempTensor : TensorPtr} {c n ky kx oy ox : Nat} (cLess : c < ic) (nLess : n < batch)
  (kyLess : ky < y.kernel) (kxLess : kx < x.kernel) (yLess : oy < y.output) (xLess : ox < x.output)

include cLess nLess kyLess kxLess yLess xLess

theorem sourcesAt_transposed :
    sourcesAt (cellAt batch y x c n ky kx oy ox : Int)
        (writesOf [transposed tempTensor ic batch y x]) =
      [(some tempTensor, (tempCell (y.kernel * x.kernel) y.output x.output (n * ic + c)
          (ky * x.kernel + kx) oy ox : Int))] := by
  have kLess : ky * x.kernel + kx < y.kernel * x.kernel := digits_lt kyLess kxLess
  have oLess : oy * x.output + ox < y.output * x.output := digits_lt yLess xLess
  have rowLess : c * (y.kernel * x.kernel) + (ky * x.kernel + kx) < ic * (y.kernel * x.kernel) :=
    digits_lt cLess kLess
  have areSizes (axis : Fin 3) :
      (transposed tempTensor ic batch y x).size axis =
        ((![ic * (y.kernel * x.kernel), batch, y.output * x.output] axis : Nat) : Int) := by
    fin_cases axis
    · show (ic : Int) * y.kernel * x.kernel = (ic * (y.kernel * x.kernel) : Nat)
      push_cast
      ring
    · rfl
    · show (y.output : Int) * x.output = (y.output * x.output : Nat)
      push_cast
      rfl
  have determined (i j a : Nat) (_ : i < ic * (y.kernel * x.kernel)) (jLess : j < batch)
      (aLess : a < y.output * x.output) :
      (transposed tempTensor ic batch y x).dst.offset +
            (i * (transposed tempTensor ic batch y x).dst.stride 0 +
              (j * (transposed tempTensor ic batch y x).dst.stride 1 +
                a * (transposed tempTensor ic batch y x).dst.stride 2)) =
          (cellAt batch y x c n ky kx oy ox : Int) ↔
        True ∧ 0 + i = c * (y.kernel * x.kernel) + (ky * x.kernel + kx) ∧ 0 + j = n ∧
          0 + a = oy * x.output + ox := by
    have isCell :
        (transposed tempTensor ic batch y x).dst.offset +
            (i * (transposed tempTensor ic batch y x).dst.stride 0 +
              (j * (transposed tempTensor ic batch y x).dst.stride 1 +
                a * (transposed tempTensor ic batch y x).dst.stride 2)) =
          ((i * batch + j) * (y.output * x.output) + a : Nat) := by
      simp only [transposed, Matrix.cons_val_zero, Matrix.cons_val_one, Matrix.cons_val]
      push_cast
      ring
    have isCellAt :
        cellAt batch y x c n ky kx oy ox =
          ((c * (y.kernel * x.kernel) + (ky * x.kernel + kx)) * batch + n) * (y.output * x.output) +
            (oy * x.output + ox) := by
      rw [cellAt]
      ring
    rw [isCell, isCellAt, Nat.cast_inj]
    constructor
    · intro same
      rcases digits_inj aLess oLess same with ⟨same, isO⟩
      rcases digits_inj jLess nLess same with ⟨isRow, isN⟩
      rw [zero_add, zero_add, zero_add]
      exact ⟨trivial, isRow, isN, isO⟩
    · rintro ⟨-, isRow, isN, isO⟩
      rw [zero_add] at isRow isN isO
      rw [isRow, isN, isO]
  rcases @sourcesAt_region (transposed tempTensor ic batch y x) _ ![0, 0, 0]
      ![ic * (y.kernel * x.kernel), batch, y.output * x.output]
      ![c * (y.kernel * x.kernel) + (ky * x.kernel + kx), n, oy * x.output + ox] True
      areSizes determined with
    ⟨-, sources⟩ | ⟨notTurn, -⟩
  · rw [sources, List.cons.injEq, Prod.mk.injEq]
    refine ⟨⟨rfl, ?_⟩, rfl⟩
    rw [tempCell]
    simp only [transposed, Matrix.cons_val_zero, Matrix.cons_val_one, Matrix.cons_val, Nat.sub_zero]
    push_cast
    ring
  · refine absurd ⟨trivial, ⟨⟨zero_le _, ?_⟩, ⟨zero_le _, ?_⟩, ⟨zero_le _, ?_⟩⟩⟩ notTurn
    · show _ < 0 + ic * (y.kernel * x.kernel)
      rw [zero_add]
      exact rowLess
    · show n < 0 + batch
      rw [zero_add]
      exact nLess
    · show _ < 0 + y.output * x.output
      rw [zero_add]
      exact oLess

/-- The sources of a cell of the matrix are those of its image. -/
theorem sourcesOf_im2Col :
    (im2Col input tempTensor ic batch y x 0 padVal).sourcesOf tempTensor
        (cellAt batch y x c n ky kx oy ox) =
      kernelSources input padVal ic batch y x (n * ic + c) ky kx oy ox := by
  rw [im2Col]
  by_cases several : batch > 1
  · rw [if_pos several]
    simp only [Columns.sourcesOf]
    rw [sourcesAt_transposed cLess nLess kyLess kxLess yLess xLess, flatMap_singleton,
      if_pos rfl]
    exact sourcesAt_kernelRegions kyLess kxLess yLess xLess
  · rw [if_neg several]
    obtain rfl : batch = 1 := by omega
    obtain rfl : n = 0 := by omega
    have isCell :
        cellAt 1 y x c 0 ky kx oy ox = tempCell (y.kernel * x.kernel) y.output x.output (0 * ic + c)
            (ky * x.kernel + kx) oy ox := by
      rw [cellAt, tempCell]
      ring
    rw [Columns.sourcesOf, isCell]
    exact sourcesAt_kernelRegions kyLess kxLess yLess xLess

end

/-- A cell is right if it is inside, if nothing is asked for, or if a strip reaches it. -/
theorem kernelSources_eq_asked_iff {n : Nat} (cLess : c < ic)
    (nLess : n < batch) (yLess : oy < y.output) (xLess : ox < x.output) :
    kernelSources input padVal ic batch y x (n * ic + c) ky kx oy ox =
        asked input padVal ic y x c n ky kx oy ox ↔
      (y.Inside ky oy ∧ x.Inside kx ox) ∨ padVal = none ∨ n = 0 ∧ y.Touches ky ∧ x.Touches kx := by
  have isChannel : n * ic + c < ic * batch := by
    rw [mul_comm ic]
    exact digits_lt nLess cLess
  have isFirst : n * ic + c < ic ↔ n = 0 := by
    constructor
    · intro less
      by_contra notFirst
      have atLeast : 1 * ic ≤ n * ic := mul_le_mul_right _ (one_le_iff_ne_zero.mpr notFirst)
      omega
    · rintro rfl
      omega
  have hasWindow :
      ((y.window ky).isSome = true ∧ (x.window kx).isSome = true) ↔
        y.Touches ky ∧ x.Touches kx :=
    and_congr (window_isSome_iff y ky) (window_isSome_iff x kx)
  rw [kernelSources, asked, windowSources]
  by_cases isInside : y.Inside ky oy ∧ x.Inside kx ox
  · have touches := hasWindow.mpr ⟨⟨oy, yLess, isInside.1⟩, ⟨ox, xLess, isInside.2⟩⟩
    rw [if_pos isInside, if_pos isInside, if_pos touches, if_pos isChannel]
    exact ⟨fun _ => Or.inl isInside, fun _ => rfl⟩
  · rw [if_neg isInside, if_neg isInside]
    cases padVal with
    | none =>
      refine ⟨fun _ => Or.inr (Or.inl rfl), fun _ => ?_⟩
      exact ite_self _
    | some padVal =>
      simp only [padSources, elim_some]
      by_cases touches : y.Touches ky ∧ x.Touches kx
      · rw [if_pos (hasWindow.mpr touches)]
        by_cases first : n = 0
        · rw [if_pos (isFirst.mpr first)]
          exact ⟨fun _ => Or.inr (Or.inr ⟨first, touches⟩), fun _ => rfl⟩
        · rw [if_neg fun less => first (isFirst.mp less)]
          refine ⟨fun same => by simp at same, ?_⟩
          rintro (inside | isNone | ⟨isZero, -⟩)
          · exact absurd inside isInside
          · cases isNone
          · exact absurd isZero first
      · rw [if_neg fun window => touches (hasWindow.mp window)]
        refine ⟨fun same => by simp at same, ?_⟩
        rintro (inside | isNone | ⟨-, touch⟩)
        · exact absurd inside isInside
        · cases isNone
        · exact absurd touch touches

theorem within_transposed {tempTensor : TensorPtr} : Within [transposed tempTensor ic batch y x]
      (ic * y.kernel * x.kernel * (batch * y.output * x.output)) := by
  intro write isIn
  rcases exists_of_mem_writesOf isIn with ⟨i, j, a, ⟨iLess, jLess, aLess⟩, isCell⟩
  have iLess : i < ic * y.kernel * x.kernel := by
    rw [← Int.toNat_natCast (ic * y.kernel * x.kernel), cast_mul, cast_mul]
    exact iLess
  have jLess : j < batch := by
    rw [← Int.toNat_natCast batch]
    exact jLess
  have aLess : a < y.output * x.output := by
    rw [← Int.toNat_natCast (y.output * x.output), cast_mul]
    exact aLess
  have isCell : write.2 = ((i * batch + j) * (y.output * x.output) + a : Nat) := by
    rw [isCell]
    simp only [transposed, Matrix.cons_val_zero, Matrix.cons_val_one, Matrix.cons_val]
    push_cast
    ring
  have less := digits_lt (digits_lt iLess jLess) aLess
  have isCount :
      ic * y.kernel * x.kernel * batch * (y.output * x.output) =
        ic * y.kernel * x.kernel * (batch * y.output * x.output) := by
    ring
  rw [isCell, ← isCount]
  exact ⟨Int.natCast_nonneg _, by exact_mod_cast less⟩

theorem within_kernelRegions (covered : Covered padVal ic batch y x) :
    Within (kernelRegions input ic batch y x 0 padVal)
      (ic * batch * (y.kernel * x.kernel) * (y.output * x.output)) := by
  intro write isIn
  rcases mem_kernelRegions isIn with
    ⟨c, ky, kx, oy, ox, ⟨⟨kyLess, kxLess⟩, yLess, xLess⟩, isChannel, isCell⟩
  have cLess : c < ic * batch := by
    rcases isChannel with cLess | ⟨cLess, isGiven, touches, outside⟩
    · exact cLess
    · rcases covered with isNone | isEmpty | covered
      · exact absurd isNone isGiven
      · omega
      · rcases covered ky kx oy ox kyLess kxLess yLess xLess outside with
          ⟨-, notTouches⟩ | ⟨rfl, -⟩
        · exact absurd touches notTouches
        · rw [mul_one]
          exact cLess
  rw [isCell]
  exact ⟨Int.natCast_nonneg _,
    by exact_mod_cast tempCell_lt cLess (digits_lt kyLess kxLess) yLess xLess⟩

theorem im2Col_exact_iff (input tempTensor : TensorPtr) (ic batch : Nat) (y x : Axis)
    (padVal : Option TensorPtr) :
    (im2Col input tempTensor ic batch y x 0 padVal).Exact input tempTensor padVal ic batch y x ↔
      Covered padVal ic batch y x := by
  constructor
  · intro exact
    by_cases isNone : padVal = none
    · exact Or.inl isNone
    · by_cases isEmpty : ic = 0
      · exact Or.inr (Or.inl isEmpty)
      · refine Or.inr (Or.inr fun ky kx oy ox kyLess kxLess yLess xLess outside => ?_)
        have hasChannel : 0 < ic := pos_of_ne_zero isEmpty
        have isAsked (n : Nat) (nLess : n < batch) : n = 0 ∧ y.Touches ky ∧ x.Touches kx := by
          have sources := exact.sources 0 n ky kx oy ox hasChannel nLess kyLess kxLess yLess xLess
          rw [sourcesOf_im2Col hasChannel nLess kyLess kxLess yLess xLess] at sources
          exact (((kernelSources_eq_asked_iff hasChannel nLess yLess xLess).mp
            sources).resolve_left outside).resolve_left isNone
        by_cases isZero : batch = 0
        · refine Or.inl ⟨isZero, fun touches => ?_⟩
          -- a strip is written although the matrix has no columns
          rcases ne_none_iff_exists'.mp isNone with ⟨value, rfl⟩
          have hasWindow := And.intro ((window_isSome_iff y ky).mpr touches.1)
              ((window_isSome_iff x kx).mpr touches.2)
          have isWritten : ((some value, 0) : Source) ∈ sourcesAt
                  (tempCell (y.kernel * x.kernel) y.output x.output 0
                    (ky * x.kernel + kx) oy ox : Int)
                  (writesOf (kernelRegions input ic batch y x 0 (some value))) := by
            rw [sourcesAt_kernelRegions kyLess kxLess yLess xLess, kernelSources,
              if_pos hasWindow, windowSources, if_neg outside, padSources,
              elim_some, if_pos hasChannel]
            exact mem_singleton_self _
          have within := exact.within
          rw [im2Col, if_neg (by omega), isZero] at within
          rw [isZero] at isWritten
          have isLess := (within _ (mem_sourcesAt.mp isWritten)).2
          simp only [zero_mul, mul_zero] at isLess
          omega
        · refine Or.inr ⟨?_, (isAsked 0 (by omega)).2⟩
          by_contra notOne
          have isFirst := (isAsked 1 (by omega)).1
          omega
  · intro covered
    have isWithin := @within_kernelRegions input ic batch y x padVal covered
    have sources (c n ky kx oy ox : Nat) (cLess : c < ic) (nLess : n < batch)
        (kyLess : ky < y.kernel) (kxLess : kx < x.kernel) (yLess : oy < y.output)
        (xLess : ox < x.output) :
        (im2Col input tempTensor ic batch y x 0 padVal).sourcesOf tempTensor
            (cellAt batch y x c n ky kx oy ox) =
          asked input padVal ic y x c n ky kx oy ox := by
      rw [sourcesOf_im2Col cLess nLess kyLess kxLess yLess xLess,
        kernelSources_eq_asked_iff cLess nLess yLess xLess]
      by_cases isInside : y.Inside ky oy ∧ x.Inside kx ox
      · exact Or.inl isInside
      · rcases covered with isNone | isEmpty | covered
        · exact Or.inr (Or.inl isNone)
        · omega
        · rcases covered ky kx oy ox kyLess kxLess yLess xLess isInside with
            ⟨isZero, -⟩ | ⟨isOne, touches⟩
          · omega
          · exact Or.inr (Or.inr ⟨by omega, touches⟩)
    by_cases several : batch > 1
    · refine ⟨?_, ?_, sources⟩
      · rw [im2Col, if_pos several]
        exact within_transposed
      · rw [im2Col, if_pos several]
        intro tempRegions isSome
        obtain rfl := some.inj isSome
        rw [← mul_assoc (ic * batch)] at isWithin
        exact isWithin
    · refine ⟨?_, ?_, sources⟩
      · rw [im2Col, if_neg several]
        have isCount :
            ic * batch * (y.kernel * x.kernel) * (y.output * x.output) =
              ic * y.kernel * x.kernel * (batch * y.output * x.output) := by
          ring
        rw [isCount] at isWithin
        exact isWithin
      · rw [im2Col, if_neg several]
        intro tempRegions isSome
        cases isSome

end Kernel

end Mnn.Geometry.Im2Col
