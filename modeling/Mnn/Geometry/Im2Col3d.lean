import Mnn.Geometry.Im2ColWithin

/-!
# Columns of three axes

Each region belongs to one channel of one image.  Where the kernel covers the input, one
region takes the place of all; its layout leaves no room for steps of the kernel.
-/

namespace Mnn.Geometry.Im2Col

open Mnn.Core
open Mnn.Core.Raster
open Mnn.Foundation.CellSources
open List

section Regions

variable {input : TensorPtr} {ic batch : Nat} {z y x : Axis}
  {c c' n n' kz kz' ky ky' kx kx' oz oy ox : Nat}

theorem cell3dAt_inj {oz' oy' ox' : Nat}
    (nLess : n < batch) (nLess' : n' < batch) (kzLess : kz < z.kernel)
    (kzLess' : kz' < z.kernel) (kyLess : ky < y.kernel) (kyLess' : ky' < y.kernel)
    (kxLess : kx < x.kernel) (kxLess' : kx' < x.kernel) (zLess : oz < z.output)
    (zLess' : oz' < z.output) (yLess : oy < y.output) (yLess' : oy' < y.output)
    (xLess : ox < x.output) (xLess' : ox' < x.output)
    (same :
      cell3dAt batch z y x c n kz ky kx oz oy ox =
        cell3dAt batch z y x c' n' kz' ky' kx' oz' oy' ox') :
    (c = c' ∧ n = n' ∧ kz = kz' ∧ ky = ky' ∧ kx = kx') ∧ oz = oz' ∧ oy = oy' ∧ ox = ox' := by
  rcases digits_inj xLess xLess' same with ⟨same, isX⟩
  rcases digits_inj yLess yLess' same with ⟨same, isY⟩
  rcases digits_inj zLess zLess' same with ⟨same, isZ⟩
  rcases digits_inj nLess nLess' same with ⟨same, isN⟩
  rcases digits_inj kxLess kxLess' same with ⟨same, isKx⟩
  rcases digits_inj kyLess kyLess' same with ⟨same, isKy⟩
  rcases digits_inj kzLess kzLess' same with ⟨isC, isKz⟩
  exact ⟨⟨isC, isN, isKz, isKy, isKx⟩, isZ, isY, isX⟩

theorem cell3dAt_lt (cLess : c < ic) (nLess : n < batch)
    (kzLess : kz < z.kernel) (kyLess : ky < y.kernel) (kxLess : kx < x.kernel)
    (zLess : oz < z.output) (yLess : oy < y.output) (xLess : ox < x.output) :
    cell3dAt batch z y x c n kz ky kx oz oy ox <
      ic * z.kernel * y.kernel * x.kernel * (batch * z.output * y.output * x.output) := by
  have isCount :
      ic * z.kernel * y.kernel * x.kernel * batch * z.output * y.output * x.output =
        ic * z.kernel * y.kernel * x.kernel * (batch * z.output * y.output * x.output) := by
    ring
  rw [← isCount]
  exact digits_lt (digits_lt (digits_lt (digits_lt (digits_lt (digits_lt (digits_lt cLess
    kzLess) kyLess) kxLess) nLess) zLess) yLess) xLess

/-- A region that copies what the windows of the axes cover. -/
structure IsPiece (reg : Region) (input : TensorPtr) (ic batch : Nat) (z y x : Axis)
    (c n kz ky kx fz nz fy ny fx nx : Nat) : Prop where
  fits : fz + nz ≤ z.output ∧ fy + ny ≤ y.output ∧ fx + nx ≤ x.output
  inside :
    ∀ oz < z.output, ∀ oy < y.output, ∀ ox < x.output,
      z.Inside kz oz ∧ y.Inside ky oy ∧ x.Inside kx ox ↔
        Turns ![fz, fy, fx] ![nz, ny, nx] ![oz, oy, ox]
  origin : reg.origin = some input
  sizes : ∀ axis, reg.size axis = ((![nz, ny, nx] axis : Nat) : Int)
  cell :
    ∀ i j a : Nat,
      reg.dst.offset + (i * reg.dst.stride 0 + (j * reg.dst.stride 1 + a * reg.dst.stride 2)) =
        (cell3dAt batch z y x c n kz ky kx (fz + i) (fy + j) (fx + a) : Int)
  source :
    ∀ i j a : Nat,
      reg.src.offset + (i * reg.src.stride 0 + (j * reg.src.stride 1 + a * reg.src.stride 2)) =
        (((n * ic + c : Nat) * z.input + z.position kz (fz + i : Nat)) * y.input +
            y.position ky (fy + j : Nat)) * x.input + x.position kx (fx + a : Nat)

theorem region3dAt_cases (c n kz ky kx : Nat) :
    (region3dAt input ic batch z y x 0 c n kz ky kx = [] ∧
        ∀ oz < z.output, ∀ oy < y.output, ∀ ox < x.output,
          ¬(z.Inside kz oz ∧ y.Inside ky oy ∧ x.Inside kx ox)) ∨
      ∃ reg fz nz fy ny fx nx, region3dAt input ic batch z y x 0 c n kz ky kx = [reg] ∧
        IsPiece reg input ic batch z y x c n kz ky kx fz nz fy ny fx nx := by
  unfold region3dAt
  rcases window_cases z kz with ⟨isNone, outside⟩ | ⟨wz, fz, nz, isWindowZ, coversZ⟩
  · rw [isNone]
    exact Or.inl ⟨rfl, fun oz zLess _ _ _ _ inside => outside oz zLess inside.1⟩
  rcases window_cases y ky with ⟨isNone, outside⟩ | ⟨wy, fy, ny, isWindowY, coversY⟩
  · rw [isWindowZ, isNone]
    exact Or.inl ⟨rfl, fun _ _ oy yLess _ _ inside => outside oy yLess inside.2.1⟩
  rcases window_cases x kx with ⟨isNone, outside⟩ | ⟨wx, fx, nx, isWindowX, coversX⟩
  · rw [isWindowZ, isWindowY, isNone]
    exact Or.inl ⟨rfl, fun _ _ _ _ ox xLess inside => outside ox xLess inside.2.2⟩
  have isCount (first count : Nat) : (first : Int) + count - 1 - first + 1 = count := by
    ring
  rw [isWindowZ, isWindowY, isWindowX]
  refine Or.inr ⟨_, fz, nz, fy, ny, fx, nx, rfl, ⟨coversZ.fits, coversY.fits, coversX.fits⟩, ?_,
    rfl, ?_, ?_, ?_⟩
  · intro oz zLess oy yLess ox xLess
    rw [coversZ.inside oz zLess, coversY.inside oy yLess, coversX.inside ox xLess]
    exact ⟨fun inside => ⟨inside.1, inside.2.1, inside.2.2⟩,
      fun turns => ⟨turns.outer, turns.middle, turns.inner⟩⟩
  · intro axis
    rw [coversZ.startD, coversZ.endD, coversY.startD, coversY.endD, coversX.startD, coversX.endD,
      isCount, isCount, isCount]
    fin_cases axis <;> rfl
  · intro i j a
    simp only [Matrix.cons_val_zero, Matrix.cons_val_one, Matrix.cons_val,
      coversZ.startD, coversY.startD, coversX.startD, cell3dAt]
    push_cast
    ring
  · intro i j a
    simp only [Matrix.cons_val_zero, Matrix.cons_val_one, Matrix.cons_val,
      coversZ.startS, coversY.startS, coversX.startS, Axis.position]
    push_cast
    ring

theorem sourcesAt_region3dAt (nLess : n < batch) (nLess' : n' < batch) (kzLess : kz < z.kernel)
    (kzLess' : kz' < z.kernel) (kyLess : ky < y.kernel) (kyLess' : ky' < y.kernel)
    (kxLess : kx < x.kernel) (kxLess' : kx' < x.kernel) (zLess : oz < z.output)
    (yLess : oy < y.output) (xLess : ox < x.output) :
    sourcesAt (cell3dAt batch z y x c n kz ky kx oz oy ox : Int)
        (writesOf (region3dAt input ic batch z y x 0 c' n' kz' ky' kx')) =
      if kx' = kx ∧ ky' = ky ∧ kz' = kz ∧ n' = n ∧ c' = c then
        asked3d input ic z y x c n kz ky kx oz oy ox
      else
        [] := by
  rcases @region3dAt_cases input ic batch z y x c' n' kz' ky' kx' with
    ⟨isEmpty, outside⟩ | ⟨reg, fz, nz, fy, ny, fx, nx, isReg, piece⟩
  · have noSource : sourcesAt (cell3dAt batch z y x c n kz ky kx oz oy ox : Int) (writesOf []) = [] :=
      rfl
    rw [isEmpty, noSource]
    split
    case isTrue same =>
      obtain ⟨rfl, rfl, rfl, rfl, rfl⟩ := same
      rw [asked3d, if_neg (outside oz zLess oy yLess ox xLess)]
    case isFalse => rfl
  have fits := piece.fits
  have determined (i j a : Nat) (iLess : i < nz) (jLess : j < ny) (aLess : a < nx) :
      reg.dst.offset + (i * reg.dst.stride 0 + (j * reg.dst.stride 1 + a * reg.dst.stride 2)) =
          (cell3dAt batch z y x c n kz ky kx oz oy ox : Int) ↔
        (kx' = kx ∧ ky' = ky ∧ kz' = kz ∧ n' = n ∧ c' = c) ∧
          fz + i = oz ∧ fy + j = oy ∧ fx + a = ox := by
    rw [piece.cell, Nat.cast_inj]
    constructor
    · intro same
      rcases cell3dAt_inj nLess' nLess kzLess' kzLess kyLess' kyLess kxLess' kxLess
          (by omega) zLess (by omega) yLess (by omega) xLess same with ⟨sameRow, sameStep⟩
      exact ⟨by tauto, sameStep⟩
    · rintro ⟨⟨rfl, rfl, rfl, rfl, rfl⟩, rfl, rfl, rfl⟩
      rfl
  have isWindow := piece.inside oz zLess oy yLess ox xLess
  rw [isReg]
  rcases @sourcesAt_region reg _ ![fz, fy, fx] ![nz, ny, nx] ![oz, oy, ox]
      (kx' = kx ∧ ky' = ky ∧ kz' = kz ∧ n' = n ∧ c' = c) piece.sizes determined with
    ⟨⟨same, turns⟩, sources⟩ | ⟨notTurn, sources⟩
  · rw [sources, if_pos same]
    obtain ⟨rfl, rfl, rfl, rfl, rfl⟩ := same
    rw [asked3d, if_pos (isWindow.mpr turns), piece.origin, piece.source]
    have fromZ : fz + (oz - fz) = oz := Nat.add_sub_cancel' turns.outer.1
    have fromY : fy + (oy - fy) = oy := Nat.add_sub_cancel' turns.middle.1
    have fromX : fx + (ox - fx) = ox := Nat.add_sub_cancel' turns.inner.1
    simp only [Matrix.cons_val_zero, Matrix.cons_val_one, Matrix.cons_val, fromZ, fromY, fromX]
  · rw [sources]
    split
    case isTrue same =>
      obtain ⟨rfl, rfl, rfl, rfl, rfl⟩ := same
      rw [asked3d, if_neg]
      exact fun inside => notTurn ⟨⟨rfl, rfl, rfl, rfl, rfl⟩, isWindow.mp inside⟩
    case isFalse => rfl

theorem mem_region3dAt {write : Source × Int}
    (isIn : write ∈ writesOf (region3dAt input ic batch z y x 0 c n kz ky kx)) :
    ∃ oz oy ox, (oz < z.output ∧ oy < y.output ∧ ox < x.output) ∧
        write.2 = (cell3dAt batch z y x c n kz ky kx oz oy ox : Int) := by
  rcases @region3dAt_cases input ic batch z y x c n kz ky kx with
    ⟨isEmpty, -⟩ | ⟨reg, fz, nz, fy, ny, fx, nx, isReg, piece⟩
  · rw [isEmpty] at isIn
    cases isIn
  · have fits := piece.fits
    rw [isReg] at isIn
    rcases exists_of_mem_writesOf isIn with ⟨i, j, a, ⟨iLess, jLess, aLess⟩, isCell⟩
    rw [piece.sizes, Int.toNat_natCast] at iLess jLess aLess
    have iLess : i < nz := iLess
    have jLess : j < ny := jLess
    have aLess : a < nx := aLess
    exact ⟨fz + i, fy + j, fx + a, by omega, isCell.trans (piece.cell i j a)⟩

theorem sourcesAt_slow (notFast : isFast z y x = false)
    (cLess : c < ic) (nLess : n < batch) (kzLess : kz < z.kernel) (kyLess : ky < y.kernel)
    (kxLess : kx < x.kernel) (zLess : oz < z.output) (yLess : oy < y.output)
    (xLess : ox < x.output) :
    sourcesAt (cell3dAt batch z y x c n kz ky kx oz oy ox : Int)
        (writesOf (im2Col3d input ic batch z y x 0)) =
      asked3d input ic z y x c n kz ky kx oz oy ox := by
  rw [im2Col3d, notFast, if_neg (by decide)]
  simp only [writesOf_flatMap]
  refine (sourcesAt_turn cLess fun c' _ => ?_).trans (if_pos trivial)
  simp only [and_true]
  exact sourcesAt_turn nLess fun n' nLess' => sourcesAt_turn kzLess fun kz' kzLess' =>
    sourcesAt_turn kyLess fun ky' kyLess' => sourcesAt_turn kxLess fun kx' kxLess' =>
      sourcesAt_region3dAt nLess nLess' kzLess kzLess' kyLess kyLess' kxLess kxLess' zLess yLess
        xLess

theorem within_slow (notFast : isFast z y x = false) : Within (im2Col3d input ic batch z y x 0)
      (ic * z.kernel * y.kernel * x.kernel * (batch * z.output * y.output * x.output)) := by
  intro write isIn
  rw [im2Col3d, notFast, if_neg (by decide)] at isIn
  simp only [writesOf_flatMap] at isIn
  rcases mem_flatMap.mp isIn with ⟨c, cLess, isIn⟩
  rcases mem_flatMap.mp isIn with ⟨n, nLess, isIn⟩
  rcases mem_flatMap.mp isIn with ⟨kz, kzLess, isIn⟩
  rcases mem_flatMap.mp isIn with ⟨ky, kyLess, isIn⟩
  rcases mem_flatMap.mp isIn with ⟨kx, kxLess, isIn⟩
  rw [mem_range] at cLess nLess kzLess kyLess kxLess
  rcases mem_region3dAt isIn with ⟨oz, oy, ox, ⟨zLess, yLess, xLess⟩, isCell⟩
  rw [isCell]
  exact ⟨Int.natCast_nonneg _,
    by exact_mod_cast cell3dAt_lt cLess nLess kzLess kyLess kxLess zLess yLess xLess⟩

/-! ## The kernel covers the input -/

/-- What the kernel has in each image. -/
def elements (ic : Nat) (z y x : Axis) : Nat := ic * z.kernel * y.kernel * x.kernel

theorem fast_axes (fast : isFast z y x = true) :
    (z.input = z.kernel ∧ y.input = y.kernel ∧ x.input = x.kernel) ∧
      (∀ k o, z.position k o = o * z.stride + k) ∧ (∀ k o, y.position k o = o * y.stride + k) ∧
          ∀ k o, x.position k o = o * x.stride + k := by
  rw [isFast, decide_eq_true_eq] at fast
  rcases fast with ⟨isZ, isY, isX, padZ, padY, padX, dilateZ, dilateY, dilateX⟩
  refine ⟨⟨isZ, isY, isX⟩, fun k o => ?_, fun k o => ?_, fun k o => ?_⟩
  · simp [Axis.position, padZ, dilateZ]
  · simp [Axis.position, padY, dilateY]
  · simp [Axis.position, padX, dilateX]

theorem size_fastRegion (fast : isFast z y x = true) (axis : Fin 3) :
    (fastRegion input ic batch z y x).size axis =
      ((![1, elements ic z y x, batch] axis : Nat) : Int) := by
  rcases (fast_axes fast).1 with ⟨isZ, isY, isX⟩
  fin_cases axis
  · rfl
  · show (ic : Int) * z.input * y.input * x.input = (ic * z.kernel * y.kernel * x.kernel : Nat)
    rw [isZ, isY, isX]
    push_cast
    rfl
  · rfl

theorem mem_fastRegion {write : Source × Int} (fast : isFast z y x = true)
    (isIn : write ∈ writesOf [fastRegion input ic batch z y x]) :
    ∃ k n, (k < elements ic z y x ∧ n < batch) ∧ write.2 = (k * batch + n : Nat) := by
  rcases exists_of_mem_writesOf isIn with ⟨i, k, n, ⟨iLess, kLess, nLess⟩, isCell⟩
  rw [size_fastRegion fast, Int.toNat_natCast] at iLess kLess nLess
  have iZero : i = 0 := Nat.lt_one_iff.mp iLess
  refine ⟨k, n, ⟨kLess, nLess⟩, ?_⟩
  rw [isCell, iZero]
  simp [fastRegion]

theorem sourcesAt_fastRegion (fast : isFast z y x = true) {k : Nat}
    (kLess : k < elements ic z y x) (nLess : n < batch) :
    sourcesAt ((k * batch + n : Nat) : Int) (writesOf [fastRegion input ic batch z y x]) =
      [(some input, ((n * elements ic z y x + k : Nat) : Int))] := by
  have isElements := @size_fastRegion input ic batch z y x fast 1
  have determined (i j a : Nat) (iLess : i < 1) (jLess : j < elements ic z y x)
      (aLess : a < batch) :
      (fastRegion input ic batch z y x).dst.offset +
            (i * (fastRegion input ic batch z y x).dst.stride 0 +
              (j * (fastRegion input ic batch z y x).dst.stride 1 +
                a * (fastRegion input ic batch z y x).dst.stride 2)) =
          ((k * batch + n : Nat) : Int) ↔
        True ∧ 0 + i = 0 ∧ 0 + j = k ∧ 0 + a = n := by
    have isCell :
        (fastRegion input ic batch z y x).dst.offset +
            (i * (fastRegion input ic batch z y x).dst.stride 0 +
              (j * (fastRegion input ic batch z y x).dst.stride 1 +
                a * (fastRegion input ic batch z y x).dst.stride 2)) =
          (i + (j * batch + a) : Nat) := by
      simp [fastRegion]
    obtain rfl : i = 0 := Nat.lt_one_iff.mp iLess
    rw [isCell, Nat.cast_inj]
    simp only [zero_add]
    constructor
    · intro same
      exact ⟨trivial, trivial, digits_inj aLess nLess same⟩
    · rintro ⟨-, -, rfl, rfl⟩
      rfl
  rcases @sourcesAt_region (fastRegion input ic batch z y x) _ ![0, 0, 0]
      ![1, elements ic z y x, batch] ![0, k, n] True (size_fastRegion fast) determined with
    ⟨-, sources⟩ | ⟨notTurn, -⟩
  · rw [sources, List.cons.injEq, Prod.mk.injEq]
    refine ⟨⟨rfl, ?_⟩, rfl⟩
    have isSize : (ic : Int) * z.input * y.input * x.input = (elements ic z y x : Nat) := isElements
    simp only [fastRegion, Matrix.cons_val_zero, Matrix.cons_val_one, Matrix.cons_val,
      isSize, Nat.sub_zero]
    push_cast
    ring
  · refine absurd ⟨trivial, ⟨⟨Nat.zero_le _, ?_⟩, ⟨Nat.zero_le _, ?_⟩, ⟨Nat.zero_le _, ?_⟩⟩⟩ notTurn
    · exact one_pos
    · show k < 0 + elements ic z y x
      omega
    · show n < 0 + batch
      omega

theorem sourcesAt_fastRegion_behind (fast : isFast z y x = true) {cell : Nat}
    (isBehind : elements ic z y x * batch ≤ cell) :
    sourcesAt (cell : Int) (writesOf [fastRegion input ic batch z y x]) = [] := by
  refine sourcesAt_eq_nil fun write isIn same => ?_
  rcases mem_fastRegion fast isIn with ⟨k, n, ⟨kLess, nLess⟩, isCell⟩
  rw [isCell, Nat.cast_inj] at same
  have less := digits_lt kLess nLess
  omega

theorem cell3dAt_eq (c n kz ky kx oz oy ox : Nat) :
    cell3dAt batch z y x c n kz ky kx oz oy ox =
      ((((c * z.kernel + kz) * y.kernel + ky) * x.kernel + kx) * batch + n) *
          (z.output * y.output * x.output) +
        ((oz * y.output + oy) * x.output + ox) := by
  rw [cell3dAt]
  ring

section

variable (fast : isFast z y x = true) (kzLess : kz < z.kernel) (kyLess : ky < y.kernel)
  (kxLess : kx < x.kernel)

include fast kzLess kyLess kxLess

/-- The steps at which the kernel covers the input from its start. -/
theorem inside_first :
    z.Inside kz 0 ∧ y.Inside ky 0 ∧ x.Inside kx 0 := by
  rcases fast_axes fast with ⟨⟨isZ, isY, isX⟩, atZ, atY, atX⟩
  simp only [Axis.Inside, atZ, atY, atX, isZ, isY, isX]
  omega

theorem asked3d_first :
    asked3d input ic z y x c n kz ky kx 0 0 0 = [(some input, ((n * elements ic z y x +
          (((c * z.kernel + kz) * y.kernel + ky) * x.kernel + kx) : Nat) : Int))] := by
  rcases fast_axes fast with ⟨⟨isZ, isY, isX⟩, atZ, atY, atX⟩
  rw [asked3d, if_pos (inside_first fast kzLess kyLess kxLess), List.cons.injEq, Prod.mk.injEq]
  refine ⟨⟨rfl, ?_⟩, rfl⟩
  rw [atZ, atY, atX, isZ, isY, isX, elements]
  push_cast
  ring

end

theorem eq_zero_of_digits
    (isZero : (oz * y.output + oy) * x.output + ox = 0) (yLess : oy < y.output)
    (xLess : ox < x.output) : oz = 0 ∧ oy = 0 ∧ ox = 0 := by
  rcases Nat.add_eq_zero_iff.mp isZero with ⟨isRow, isX⟩
  have isRow := (mul_eq_zero.mp isRow).resolve_right (by omega)
  rcases Nat.add_eq_zero_iff.mp isRow with ⟨isPlane, isY⟩
  exact ⟨(mul_eq_zero.mp isPlane).resolve_right (by omega), isY, isX⟩

/-- One region is right for one step, for none of its elements, or for a single one. -/
theorem fast_exact_iff (fast : isFast z y x = true) :
    Exact3d [fastRegion input ic batch z y x] input ic batch z y x ↔
      z.output * y.output * x.output = 1 ∨ elements ic z y x * batch = 0 ∨
        elements ic z y x * batch = 1 ∧ 0 < z.output * y.output * x.output := by
  constructor
  · intro exact
    by_contra notRight
    rw [not_or, not_or] at notRight
    rcases notRight with ⟨notOne, notEmpty, notSingle⟩
    have hasSome : 0 < elements ic z y x * batch := pos_of_ne_zero notEmpty
    rcases exists_digits (Nat.sub_lt hasSome one_pos) with ⟨k, n, kLess, nLess, isLast⟩
    by_cases isZero : z.output * y.output * x.output = 0
    · have isWritten : ((some input, ((n * elements ic z y x + k : Nat) : Int)) : Source) ∈
            sourcesAt ((k * batch + n : Nat) : Int)
              (writesOf [fastRegion input ic batch z y x]) := by
        rw [sourcesAt_fastRegion fast kLess nLess]
        exact mem_singleton_self _
      have isLess := (exact.within _ (mem_sourcesAt.mp isWritten)).2
      have isCount :
          ic * z.kernel * y.kernel * x.kernel * (batch * z.output * y.output * x.output) = 0 := by
        rw [mul_assoc batch, mul_assoc batch, isZero, mul_zero, mul_zero]
      rw [isCount] at isLess
      omega
    · -- the last element stands before its place
      have several : 2 ≤ elements ic z y x * batch := by omega
      have steps : 2 ≤ z.output * y.output * x.output := by omega
      rcases exists_digits kLess with ⟨k', kx, kLess', kxLess, isK⟩
      rcases exists_digits kLess' with ⟨k'', ky, kLess'', kyLess, isK'⟩
      rcases exists_digits kLess'' with ⟨c, kz, cLess, kzLess, isK''⟩
      have hasSteps : z.output * y.output * x.output ≠ 0 := isZero
      rw [Nat.mul_ne_zero_iff, Nat.mul_ne_zero_iff] at hasSteps
      have sources := exact.sources c n kz ky kx 0 0 0 cLess nLess kzLess kyLess kxLess
        (pos_of_ne_zero hasSteps.1.1) (pos_of_ne_zero hasSteps.1.2)
        (pos_of_ne_zero hasSteps.2)
      have isRow : ((c * z.kernel + kz) * y.kernel + ky) * x.kernel + kx = k := by
        rw [isK, isK', isK'']
      have isBehind : elements ic z y x * batch ≤ cell3dAt batch z y x c n kz ky kx 0 0 0 := by
        have isMore :
            (elements ic z y x * batch - 1) * 2 ≤
              (elements ic z y x * batch - 1) * (z.output * y.output * x.output) :=
          Nat.mul_le_mul_left _ steps
        rw [cell3dAt_eq, isRow, ← isLast]
        omega
      rw [sourcesAt_fastRegion_behind fast isBehind, asked3d_first fast kzLess kyLess kxLess]
        at sources
      cases sources
  · intro right
    have isCount :
        ic * z.kernel * y.kernel * x.kernel * (batch * z.output * y.output * x.output) =
          elements ic z y x * batch * (z.output * y.output * x.output) := by
      rw [elements]
      ring
    refine ⟨fun write isIn => ?_, ?_⟩
    · rcases mem_fastRegion fast isIn with ⟨k, n, ⟨kLess, nLess⟩, isCell⟩
      have less := digits_lt kLess nLess
      have hasStep : 0 < z.output * y.output * x.output := by
        rcases right with isOne | isEmpty | ⟨-, hasStep⟩
        · omega
        · omega
        · exact hasStep
      have isMore := Nat.le_mul_of_pos_right (elements ic z y x * batch) hasStep
      rw [isCell, isCount]
      exact ⟨Int.natCast_nonneg _, by exact_mod_cast lt_of_lt_of_le less isMore⟩
    · intro c n kz ky kx oz oy ox cLess nLess kzLess kyLess kxLess zLess yLess xLess
      have kLess : ((c * z.kernel + kz) * y.kernel + ky) * x.kernel + kx < elements ic z y x :=
        digits_lt (digits_lt (digits_lt cLess kzLess) kyLess) kxLess
      have isFirst (isStep : (oz * y.output + oy) * x.output + ox = 0) (isPlace :
            (((((c * z.kernel + kz) * y.kernel + ky) * x.kernel + kx) * batch + n) *
                (z.output * y.output * x.output)) =
              (((c * z.kernel + kz) * y.kernel + ky) * x.kernel + kx) * batch + n)
          (isZ : oz = 0) (isY : oy = 0) (isX : ox = 0) :
          sourcesAt (cell3dAt batch z y x c n kz ky kx oz oy ox : Int)
              (writesOf [fastRegion input ic batch z y x]) =
            asked3d input ic z y x c n kz ky kx oz oy ox := by
        rw [cell3dAt_eq, isStep, isPlace, add_zero, sourcesAt_fastRegion fast kLess nLess,
          isZ, isY, isX, asked3d_first fast kzLess kyLess kxLess]
      have less := digits_lt kLess nLess
      rcases right with isOne | isEmpty | ⟨isSingle, -⟩
      · have isZ := Nat.eq_one_of_mul_eq_one_right (Nat.eq_one_of_mul_eq_one_right isOne)
        have isY := Nat.eq_one_of_mul_eq_one_left (Nat.eq_one_of_mul_eq_one_right isOne)
        have isX := Nat.eq_one_of_mul_eq_one_left isOne
        obtain rfl : oz = 0 := by omega
        obtain rfl : oy = 0 := by omega
        obtain rfl : ox = 0 := by omega
        exact isFirst (by ring) (by rw [isOne, mul_one]) rfl rfl rfl
      · omega
      · rw [isSingle] at less
        have isRow := Nat.lt_one_iff.mp less
        by_cases isStart : oz = 0 ∧ oy = 0 ∧ ox = 0
        · rcases isStart with ⟨rfl, rfl, rfl⟩
          exact isFirst (by ring) (by rw [isRow, zero_mul]) rfl rfl rfl
        · rw [elements] at isSingle
          have isRows := Nat.eq_one_of_mul_eq_one_right isSingle
          have isKx := Nat.eq_one_of_mul_eq_one_left isRows
          have isRows := Nat.eq_one_of_mul_eq_one_right isRows
          have isKy := Nat.eq_one_of_mul_eq_one_left isRows
          have isKz := Nat.eq_one_of_mul_eq_one_left (Nat.eq_one_of_mul_eq_one_right isRows)
          rcases fast_axes fast with ⟨⟨isZ, isY, isX⟩, atZ, atY, atX⟩
          have isBehind :
              elements ic z y x * batch ≤ cell3dAt batch z y x c n kz ky kx oz oy ox := by
            rw [cell3dAt_eq, isRow, zero_mul, zero_add, elements, isSingle]
            by_contra isZero
            have isZero : (oz * y.output + oy) * x.output + ox = 0 := by omega
            exact isStart (eq_zero_of_digits isZero yLess xLess)
          rw [sourcesAt_fastRegion_behind fast isBehind, asked3d, if_neg]
          rintro ⟨insideZ, insideY, insideX⟩
          have stayed (axis : Axis) (k o : Nat) (isKernel : axis.input = 1)
              (at' : ∀ k o, axis.position k o = o * axis.stride + k)
              (inside : axis.Inside k o) : o = 0 := by
            have isLess := inside.2
            rw [at', isKernel] at isLess
            have isLess : o * axis.stride + k < 1 := by exact_mod_cast isLess
            have isZero : o * axis.stride = 0 := by omega
            exact (mul_eq_zero.mp isZero).resolve_right (ne_of_gt axis.positive)
          exact isStart ⟨stayed z kz oz (isZ.trans isKz) atZ insideZ,
            stayed y ky oy (isY.trans isKy) atY insideY,
            stayed x kx ox (isX.trans isKx) atX insideX⟩

/-! ## Three axes -/

/-- Three axes are right unless one region takes the place of several steps. -/
theorem im2Col3d_exact_iff (input : TensorPtr) (ic batch : Nat) (z y x : Axis) :
    Exact3d (im2Col3d input ic batch z y x 0) input ic batch z y x ↔
      isFast z y x = false ∨ z.output * y.output * x.output = 1 ∨ elements ic z y x * batch = 0 ∨
          elements ic z y x * batch = 1 ∧ 0 < z.output * y.output * x.output := by
  cases isPath : isFast z y x with
  | false =>
    refine ⟨fun _ => Or.inl rfl, fun _ => ⟨within_slow isPath, ?_⟩⟩
    intro c n kz ky kx oz oy ox cLess nLess kzLess kyLess kxLess zLess yLess xLess
    exact sourcesAt_slow isPath cLess nLess kzLess kyLess kxLess zLess yLess xLess
  | true =>
    rw [im2Col3d, isPath, if_pos rfl, fast_exact_iff isPath]
    simp

end Regions

/-- A row of two elements with a step of padding on each side. -/
def paddedAxis : Axis :=
  { kernel := 2, output := 3, input := 2, stride := 1, dilate := 1, pad := 1
    positive := one_pos }

end Mnn.Geometry.Im2Col
