import Mnn.Geometry.Regions

/-!
# Copying a region on the CPU

`_blit` copies a region in one of four ways: whole planes by `memcpy`, planes by
transposing them, rows by `memcpy`, or rows by a procedure for the strides.
Each way is the list of its moves, from cell to cell; a cell is an element of
the tensor, and the pointers are the cells at which the region starts.
-/

variable {slice region : Region} {srcOne dstOne : Fin 3} {bytes : Nat}

namespace Mnn.Cpu.CPURaster

open Mnn.Core.Raster
open Mnn.Foundation.LoopNests
open List

/-- The moves from one tensor to the other, in their order. -/
abbrev Moves := List (Int × Int)

/-- What depends on the build: vectors of elements, and the tiles of transposes. -/
structure CoreFunctions where
  widths4 : List Nat := []
  widths2 : List Nat := []
  widths1 : List Nat := []
  tile32 : Nat := 1
  tile16 : Nat := 1

/-- `::memcpy`, for a size in elements. -/
def memcpy (dst src size : Int) : Moves :=
  (List.range size.toNat).map fun (k : Nat) => (src + k, dst + k)

/-! ## Rows -/

/-- The loop of `MNN4BitcopyWithStride`, `MNN2BitcopyWithStride` and the one for bytes. -/
def bitcopyWithStride (dst src : Int) (size : Nat) (stride ds : Int) : Moves :=
  (List.range size).map fun (i : Nat) => (src + i * stride, dst + i * ds)

/--
The loops over vectors, the widest first, and the loop over what is left.  A
vector is loaded from the source, or else it is one element again and again.
-/
def vectorLoops (isLoaded : Bool) (stride ds : Int) : List Nat → Nat → Int → Int → Moves
  | [], cnt, src, dst => bitcopyWithStride dst src cnt stride ds
  | width :: widths, cnt, src, dst =>
    let lane : Int := if isLoaded then 1 else 0
    ((List.range (cnt / width)).flatMap fun (block : Nat) =>
        (List.range width).map fun (k : Nat) =>
          (src + (block * width + k) * lane, dst + (block * width + k))) ++
      vectorLoops isLoaded stride ds widths (cnt % width)
        (src + cnt / width * width * lane) (dst + cnt / width * width)

def bitcopyFast (widths : List Nat) (dst src size stride ds : Int) : Moves :=
  if stride = 1 then
    vectorLoops true stride ds widths size.toNat src dst
  else
    vectorLoops false stride ds widths size.toNat src dst

section Procedures

variable (core : CoreFunctions)

def MNN4BitcopyFast (dst src size stride ds : Int) : Moves :=
  bitcopyFast core.widths4 dst src size stride ds

def MNN2BitcopyFast (dst src size stride ds : Int) : Moves :=
  bitcopyFast core.widths2 dst src size stride ds

def MNN1BitcopyFast (dst src size stride ds : Int) : Moves :=
  bitcopyFast core.widths1 dst src size stride ds

def MNN4BitcopyWithStride (dst src size stride ds : Int) : Moves :=
  bitcopyWithStride dst src size.toNat stride ds

def MNN2BitcopyWithStride (dst src size stride ds : Int) : Moves :=
  bitcopyWithStride dst src size.toNat stride ds

def MNN1BitcopyWithStride (dst src size stride ds : Int) : Moves :=
  bitcopyWithStride dst src size.toNat stride ds

def _selectUnitProc (bytes : Nat) (stride ds : Int) : Int → Int → Int → Int → Int → Moves :=
  match bytes with
  | 4 =>
    if ds = 1 ∧ (stride = 1 ∨ stride = 0) then
      MNN4BitcopyFast core
    else
      MNN4BitcopyWithStride
  | 2 =>
    if ds = 1 ∧ (stride = 1 ∨ stride = 0) then
      MNN2BitcopyFast core
    else
      MNN2BitcopyWithStride
  | 1 =>
    if ds = 1 ∧ (stride = 1 ∨ stride = 0) then
      MNN1BitcopyFast core
    else
      MNN1BitcopyWithStride
  | _ => MNN1BitcopyFast core

end Procedures

/-! ## Transposes -/

/-- The loop of `isTranspose`; there is no outcome if it returns early. -/
def isTransposeLoop (region : Region) :
    List (Fin 3) → Option (Fin 3) → Option (Fin 3) → Option (Option (Fin 3) × Option (Fin 3))
  | [], srcOne, dstOne => some (srcOne, dstOne)
  | i :: rest, srcOne, dstOne =>
    if region.size i = 1 then
      isTransposeLoop region rest srcOne dstOne
    else if region.src.stride i = 1 ∧ srcOne.isSome then
      none
    else if region.dst.stride i = 1 ∧ dstOne.isSome then
      none
    else
      isTransposeLoop region rest (if region.src.stride i = 1 then some i else srcOne)
        (if region.dst.stride i = 1 then some i else dstOne)

/-- `OpCommonUtils::isTranspose`, with the axes if it returns `true`. -/
def isTranspose (region : Region) : Option (Fin 3 × Fin 3) :=
  match isTransposeLoop region [0, 1, 2] none none with
  | some (some srcOne, some dstOne) =>
    if srcOne ≠ dstOne then some (srcOne, dstOne) else none
  | _ => none

/-- `dims` and `keepDim` of `_transpose`. -/
structure Dims where
  w : Int := 0
  h : Int := 0
  srcStride : Int := 0
  dstStride : Int := 0
  keepDim : Option (Fin 3) := none

/-- The first loop of `_transpose`. -/
def transposeDims (region : Region) : Dims := [(0 : Fin 3), 1, 2].foldl (fun dims i =>
      if region.src.stride i = 1 ∧ region.size i ≠ 1 then
        { dims with h := region.size i, dstStride := region.dst.stride i }
      else if region.dst.stride i = 1 ∧ region.size i ≠ 1 then
        { dims with w := region.size i, srcStride := region.src.stride i }
      else
        { dims with keepDim := some i })
    {}

/-- What `MNNTranspose32Bit` and `MNNTranspose16Bit` have in common. -/
def transposePlane (tile : Nat) (dst src : Int) (dims : Dims) : Moves :=
  let w := dims.w.toNat
  let h := dims.h.toNat
  let cell (i j : Nat) : Int × Int :=
    (src + i + j * dims.srcStride, dst + i * dims.dstStride + j)
  ((List.range (h / tile)).flatMap fun y =>
      (List.range (w / tile)).flatMap fun x =>
        (List.range tile).flatMap fun a =>
          (List.range tile).map fun b => cell (y * tile + a) (x * tile + b)) ++
    ((List.range' (h / tile * tile) (h - h / tile * tile)).flatMap fun i =>
      (List.range w).map fun j => cell i j) ++
    ((List.range (h / tile * tile)).flatMap fun i =>
      (List.range' (w / tile * tile) (w - w / tile * tile)).map fun j => cell i j)

section Blit

variable (core : CoreFunctions)

def MNNTranspose32Bit (dst src : Int) (dims : Dims) : Moves :=
  transposePlane core.tile32 dst src dims

def MNNTranspose16Bit (dst src : Int) (dims : Dims) : Moves :=
  transposePlane core.tile16 dst src dims

def _transpose (dstO srcO : Int) (region : Region) (bytes : Nat) : Moves :=
  let dims := transposeDims region
  match dims.keepDim with
  | none => []
  | some keepDim =>
    (List.range (region.size keepDim).toNat).flatMap fun (z : Nat) =>
      let srcZ := srcO + region.src.stride keepDim * z
      let dstZ := dstO + region.dst.stride keepDim * z
      if bytes = 4 then
        MNNTranspose32Bit core dstZ srcZ dims
      else if bytes = 2 then
        MNNTranspose16Bit core dstZ srcZ dims
      else
        []

/-- The planes are taken to be without gaps. -/
def IsBlock (slice : Region) : Prop :=
  slice.src.stride 1 = slice.size 2 ∧ slice.dst.stride 1 = slice.size 2 ∧ slice.src.stride 2 = 1

instance (slice : Region) : Decidable (IsBlock slice) :=
  inferInstanceAs (Decidable (_ ∧ _ ∧ _))

/-- `_blit` for a region that does not reduce. -/
def _blit (slice : Region) (bytes : Nat) (srcPtr dstPtr : Int) : Moves :=
  let proc := _selectUnitProc core bytes (slice.src.stride 2) (slice.dst.stride 2)
  if IsBlock slice then
    (List.range (slice.size 0).toNat).flatMap fun (z : Nat) =>
      memcpy (dstPtr + z * slice.dst.stride 0) (srcPtr + z * slice.src.stride 0)
        (slice.size 1 * slice.src.stride 1)
  else if (isTranspose slice).isSome ∧ (4 = bytes ∨ 2 = bytes) then
    _transpose core dstPtr srcPtr slice bytes
  else if 1 = slice.src.stride 2 ∧ 1 = slice.dst.stride 2 then
    (List.range (slice.size 0).toNat).flatMap fun (z : Nat) =>
      (List.range (slice.size 1).toNat).flatMap fun (y : Nat) =>
        memcpy (dstPtr + z * slice.dst.stride 0 + y * slice.dst.stride 1)
          (srcPtr + z * slice.src.stride 0 + y * slice.src.stride 1) (slice.size 2)
  else
    (List.range (slice.size 0).toNat).flatMap fun (z : Nat) =>
      (List.range (slice.size 1).toNat).flatMap fun (y : Nat) =>
        proc (dstPtr + z * slice.dst.stride 0 + y * slice.dst.stride 1)
          (srcPtr + z * slice.src.stride 0 + y * slice.src.stride 1) (slice.size 2)
          (slice.src.stride 2) (slice.dst.stride 2)

end Blit

/-!
# What a region copies on the CPU

Rows, vectors and transposes make the moves of the region, in some order.  Whole
planes are copied without a look at the stride between the elements of a row of
the output; so they are right if that stride is one, or if it does not matter.
-/

open Mnn.Foundation.StridedLoops

/-! ## Rows -/

theorem vectorLoops_eq {isLoaded : Bool} {stride : Int}
    (isLane : (if isLoaded then (1 : Int) else 0) = stride) (widths : List Nat) (cnt : Nat)
    (src dst : Int) :
    vectorLoops isLoaded stride 1 widths cnt src dst = bitcopyWithStride dst src cnt stride 1 := by
  induction widths generalizing cnt src dst with
  | nil => rfl
  | cons width widths ih =>
    have whole : cnt / width * width + cnt % width = cnt := Nat.div_add_mod' cnt width
    have split : List.range cnt = ((List.range (cnt / width)).flatMap fun i =>
            (List.range width).map fun j => i * width + j) ++
          (List.range (cnt % width)).map fun k => cnt / width * width + k := by
      rw [← range_mul, ← range_add, whole]
    rw [vectorLoops, ih, isLane, bitcopyWithStride, bitcopyWithStride, split,
      map_append, map_flatMap]
    simp only [map_map]
    congr 1
    · congr 1
      funext i
      refine map_congr_left fun j _ => ?_
      simp
    · refine map_congr_left fun k _ => ?_
      rw [Function.comp_apply, Prod.mk.injEq]
      push_cast
      constructor <;> ring

theorem selectUnitProc_eq (core : CoreFunctions)
    (isWidth : bytes = 1 ∨ bytes = 2 ∨ bytes = 4) (dst src size stride ds : Int) :
    _selectUnitProc core bytes stride ds dst src size stride ds =
      bitcopyWithStride dst src size.toNat stride ds := by
  have isFast (widths : List Nat) (fast : ds = 1 ∧ (stride = 1 ∨ stride = 0)) :
      bitcopyFast widths dst src size stride ds =
        bitcopyWithStride dst src size.toNat stride ds := by
    rcases fast with ⟨rfl, rfl | rfl⟩
    · exact vectorLoops_eq rfl widths _ _ _
    · exact vectorLoops_eq rfl widths _ _ _
  rcases isWidth with rfl | rfl | rfl
  · rw [_selectUnitProc]
    split
    · exact isFast core.widths1 ‹_›
    · rfl
  · rw [_selectUnitProc]
    split
    · exact isFast core.widths2 ‹_›
    · rfl
  · rw [_selectUnitProc]
    split
    · exact isFast core.widths4 ‹_›
    · rfl

theorem memcpy_eq (dst src size : Int) :
    memcpy dst src size = bitcopyWithStride dst src size.toNat 1 1 := by
  simp only [memcpy, bitcopyWithStride, mul_one]

theorem moves_eq_rows (slice : Region) :
    slice.moves = (List.range (slice.size 0).toNat).flatMap fun (z : Nat) =>
        (List.range (slice.size 1).toNat).flatMap fun (y : Nat) =>
          bitcopyWithStride (slice.dst.offset + z * slice.dst.stride 0 + y * slice.dst.stride 1)
            (slice.src.offset + z * slice.src.stride 0 + y * slice.src.stride 1)
            (slice.size 2).toNat (slice.src.stride 2) (slice.dst.stride 2) := by
  simp only [Mnn.Geometry.moves_eq_flatMap, bitcopyWithStride, add_assoc]

/-- The region whose rows have no gaps in the output. -/
def withoutGaps (slice : Region) : Region :=
  { slice with
    dst := { slice.dst with stride := ![slice.dst.stride 0, slice.dst.stride 1, 1] } }

/-- Planes are copied as if the rows of the output had no gaps. -/
theorem block_moves (isBlock : IsBlock slice) (sizes : ∀ axis, 0 ≤ slice.size axis) :
    ((List.range (slice.size 0).toNat).flatMap fun (z : Nat) =>
        memcpy (slice.dst.offset + z * slice.dst.stride 0)
          (slice.src.offset + z * slice.src.stride 0) (slice.size 1 * slice.src.stride 1)) =
      (withoutGaps slice).moves := by
  rcases isBlock with ⟨srcRow, dstRow, srcOne⟩
  have isRow : ((slice.size 2).toNat : Int) = slice.size 2 := Int.toNat_of_nonneg (sizes 2)
  have isPlane :
      (slice.size 1 * slice.src.stride 1).toNat = (slice.size 1).toNat * (slice.size 2).toNat := by
    rw [srcRow, Int.toNat_mul (sizes 1) (sizes 2)]
  rw [moves_eq_rows]
  congr 1
  funext z
  rw [memcpy, isPlane, range_mul, map_flatMap]
  show _ = List.flatMap _ (List.range (slice.size 1).toNat)
  congr 1
  funext y
  rw [map_map]
  refine map_congr_left fun x _ => ?_
  show _ = (slice.src.offset + z * slice.src.stride 0 + y * slice.src.stride 1 +
      x * slice.src.stride 2,
    slice.dst.offset + z * slice.dst.stride 0 + y * slice.dst.stride 1 + x * 1)
  rw [srcRow, dstRow, srcOne, Function.comp_apply, Prod.mk.injEq, Nat.cast_add, Nat.cast_mul, isRow]
  constructor <;> ring

/-! ## Transposes -/

theorem isTransposeLoop_spec {axes : List (Fin 3)} {srcOne dstOne srcOne' dstOne' : Option (Fin 3)}
    (found : isTransposeLoop region axes srcOne dstOne = some (srcOne', dstOne')) :
    (∀ i, srcOne' = some i → srcOne = some i ∨ region.size i ≠ 1 ∧ region.src.stride i = 1) ∧
      (∀ i, dstOne' = some i → dstOne = some i ∨ region.size i ≠ 1 ∧ region.dst.stride i = 1) ∧
      (∀ i, srcOne = some i → srcOne' = some i) ∧
      (∀ i, dstOne = some i → dstOne' = some i) ∧
      ∀ i ∈ axes, region.size i ≠ 1 → (region.src.stride i = 1 → srcOne' = some i) ∧
          (region.dst.stride i = 1 → dstOne' = some i) := by
  induction axes generalizing srcOne dstOne with
  | nil =>
    obtain ⟨rfl, rfl⟩ := Prod.mk.inj (Option.some.inj found)
    exact ⟨fun _ => Or.inl, fun _ => Or.inl, fun _ same => same, fun _ same => same,
        fun _ isIn => nomatch isIn⟩
  | cons axis axes ih =>
    rw [isTransposeLoop] at found
    split at found
    · rename_i isUnit
      rcases ih found with ⟨src, dst, keepsSrc, keepsDst, all⟩
      refine ⟨src, dst, keepsSrc, keepsDst, fun i isIn notUnit => ?_⟩
      rcases mem_cons.mp isIn with rfl | isIn
      · exact absurd isUnit notUnit
      · exact all i isIn notUnit
    · rename_i notUnit
      split at found
      · nomatch found
      · rename_i freshSrc
        split at found
        · nomatch found
        · rename_i freshDst
          rcases ih found with ⟨src, dst, keepsSrc, keepsDst, all⟩
          refine ⟨?_, ?_, ?_, ?_, ?_⟩
          · intro i isSrc
            rcases src i isSrc with here | later
            · split at here
              · cases here
                exact Or.inr ⟨notUnit, ‹_›⟩
              · exact Or.inl here
            · exact Or.inr later
          · intro i isDst
            rcases dst i isDst with here | later
            · split at here
              · cases here
                exact Or.inr ⟨notUnit, ‹_›⟩
              · exact Or.inl here
            · exact Or.inr later
          · intro i isSrc
            refine keepsSrc i ?_
            rw [if_neg fun isOne => freshSrc ⟨isOne, by rw [isSrc]; rfl⟩, isSrc]
          · intro i isDst
            refine keepsDst i ?_
            rw [if_neg fun isOne => freshDst ⟨isOne, by rw [isDst]; rfl⟩, isDst]
          · intro i isIn notUnit'
            rcases mem_cons.mp isIn with rfl | isIn
            · exact ⟨fun isOne => keepsSrc i (if_pos isOne), fun isOne => keepsDst i (if_pos isOne)⟩
            · exact all i isIn notUnit'

/-- One axis runs through the source element by element, and another one through the output. -/
structure Transposes (region : Region) (srcOne dstOne : Fin 3) : Prop where
  differ : srcOne ≠ dstOne
  srcSize : region.size srcOne ≠ 1
  srcStride : region.src.stride srcOne = 1
  dstSize : region.size dstOne ≠ 1
  dstStride : region.dst.stride dstOne = 1
  onlySrc : ∀ i, region.size i ≠ 1 → region.src.stride i = 1 → i = srcOne
  onlyDst : ∀ i, region.size i ≠ 1 → region.dst.stride i = 1 → i = dstOne

theorem isTranspose_spec (found : isTranspose region = some (srcOne, dstOne)) :
    Transposes region srcOne dstOne := by
  rw [isTranspose] at found
  split at found
  · rename_i first second isLoop
    split at found
    · rename_i differ
      cases found
      rcases isTransposeLoop_spec isLoop with ⟨src, dst, -, -, all⟩
      have isAxis : ∀ i : Fin 3, i ∈ [(0 : Fin 3), 1, 2] := by decide
      rcases (src srcOne rfl).resolve_left (Option.some_ne_none _ ·.symm) with
        ⟨srcSize, srcStride⟩
      rcases (dst dstOne rfl).resolve_left (Option.some_ne_none _ ·.symm) with
        ⟨dstSize, dstStride⟩
      exact
        { differ, srcSize, srcStride, dstSize, dstStride
          onlySrc := fun i notUnit isOne =>
            (Option.some.inj ((all i (isAxis i) notUnit).1 isOne)).symm
          onlyDst := fun i notUnit isOne =>
            (Option.some.inj ((all i (isAxis i) notUnit).2 isOne)).symm }
    · nomatch found
  · nomatch found

theorem transposeDims_eq (transposes : Transposes region srcOne dstOne) :
    ∃ keepDim, [keepDim, srcOne, dstOne].Perm [0, 1, 2] ∧ transposeDims region =
          { w := region.size dstOne
            h := region.size srcOne
            srcStride := region.src.stride dstOne
            dstStride := region.dst.stride srcOne
            keepDim := some keepDim } := by
  have isSrc (i : Fin 3) : (region.src.stride i = 1 ∧ region.size i ≠ 1) = (i = srcOne) := by
    refine propext ⟨fun isOne => transposes.onlySrc i isOne.2 isOne.1, ?_⟩
    rintro rfl
    exact ⟨transposes.srcStride, transposes.srcSize⟩
  have isDst (i : Fin 3) : (region.dst.stride i = 1 ∧ region.size i ≠ 1) = (i = dstOne) := by
    refine propext ⟨fun isOne => transposes.onlyDst i isOne.2 isOne.1, ?_⟩
    rintro rfl
    exact ⟨transposes.dstStride, transposes.dstSize⟩
  have differ := transposes.differ
  simp only [transposeDims, isSrc, isDst]
  fin_cases srcOne <;> fin_cases dstOne <;> first
    | exact absurd rfl differ
    | exact ⟨0, by decide, rfl⟩
    | exact ⟨1, by decide, rfl⟩
    | exact ⟨2, by decide, rfl⟩

def loopAt (region : Region) (axis : Fin 3) : Loop :=
  ⟨(region.size axis).toNat, region.src.stride axis, region.dst.stride axis⟩

theorem transposePlane_perm (tile : Nat) (dst src : Int) (dims : Dims) :
    (transposePlane tile dst src dims).Perm (shifted src dst
        (nest [⟨dims.h.toNat, 1, dims.dstStride⟩, ⟨dims.w.toNat, dims.srcStride, 1⟩])) := by
  refine (tiles_perm tile dims.h.toNat dims.w.toNat fun i j =>
    (src + i + j * dims.srcStride, dst + i * dims.dstStride + j)).trans ?_
  simp only [nest, shifted, map_eq_flatMap, flatMap_cons,
    flatMap_nil, flatMap_assoc, append_nil, mul_one, add_zero, add_assoc]
  exact .refl _

theorem transpose_perm (core : CoreFunctions) (isWidth : 4 = bytes ∨ 2 = bytes)
    (transposes : Transposes region srcOne dstOne) :
    (_transpose core region.dst.offset region.src.offset region bytes).Perm region.moves := by
  rcases transposeDims_eq transposes with ⟨keepDim, isPerm, isDims⟩
  have planes (tile : Nat) : ((List.range (region.size keepDim).toNat).flatMap fun (z : Nat) =>
        transposePlane tile (region.dst.offset + region.dst.stride keepDim * z)
          (region.src.offset + region.src.stride keepDim * z)
          (transposeDims region)).Perm region.moves := by
    have isNest : region.moves.Perm (shifted region.src.offset region.dst.offset
          (nest [loopAt region keepDim, loopAt region srcOne, loopAt region dstOne])) := by
      rw [Mnn.Geometry.moves_eq_nest]
      exact shifted_perm (nest_perm (isPerm.symm.map (loopAt region))) _ _
    refine List.Perm.trans ?_ isNest.symm
    rw [nest, shifted_flatMap]
    refine List.Perm.flatMap_left _ fun z _ => (transposePlane_perm _ _ _ _).trans ?_
    have isSrc : loopAt region srcOne =
        ⟨(region.size srcOne).toNat, 1, region.dst.stride srcOne⟩ := by
      rw [loopAt, transposes.srcStride]
    have isDst : loopAt region dstOne =
        ⟨(region.size dstOne).toNat, region.src.stride dstOne, 1⟩ := by
      rw [loopAt, transposes.dstStride]
    rw [shifted_shifted, isDims, isSrc, isDst, mul_comm (region.src.stride keepDim),
      mul_comm (region.dst.stride keepDim)]
    exact .refl _
  rcases isWidth with rfl | rfl
  · have isPlanes := planes core.tile32
    rw [isDims] at isPlanes
    rw [_transpose, isDims]
    exact isPlanes
  · have isPlanes := planes core.tile16
    rw [isDims] at isPlanes
    rw [_transpose, isDims]
    exact isPlanes

/-! ## All ways to copy -/

/-- Apart from whole planes, every way makes the moves of the region. -/
theorem blit_perm (core : CoreFunctions)
    (isWidth : bytes = 1 ∨ bytes = 2 ∨ bytes = 4) (notBlock : ¬IsBlock slice) :
    (_blit core slice bytes slice.src.offset slice.dst.offset).Perm slice.moves := by
  rw [_blit, if_neg notBlock]
  split
  · rename_i isTransposed
    rcases isTransposed with ⟨isSome, isWord⟩
    rcases Option.isSome_iff_exists.mp isSome with ⟨⟨srcOne, dstOne⟩, found⟩
    exact transpose_perm core isWord (isTranspose_spec found)
  · rw [moves_eq_rows]
    split
    · rename_i isRow
      simp only [memcpy_eq, ← isRow.1, ← isRow.2]
      exact .refl _
    · simp only [selectUnitProc_eq core isWidth]
      exact .refl _

/-- Where the stride between the elements of an output row does not matter. -/
def IsPlain (slice : Region) : Prop :=
  slice.dst.stride 2 = 1 ∨ slice.size 2 ≤ 1 ∨ slice.size 0 = 0 ∨ slice.size 1 = 0

theorem withoutGaps_moves (isPlain : IsPlain slice) :
    (withoutGaps slice).moves = slice.moves := by
  rw [moves_eq_rows, moves_eq_rows]
  refine flatMap_congr fun z isIn => flatMap_congr fun y isIn' => ?_
  have zBound : (z : Int) < slice.size 0 := Int.lt_toNat.mp (mem_range.mp isIn)
  have yBound : (y : Int) < slice.size 1 := Int.lt_toNat.mp (mem_range.mp isIn')
  show bitcopyWithStride _ _ (slice.size 2).toNat (slice.src.stride 2) 1 = _
  rcases isPlain with isOne | short | isZero | isZero
  · rw [isOne]
    rfl
  · refine map_congr_left fun x isIn'' => ?_
    have xBound : (x : Int) < slice.size 2 := Int.lt_toNat.mp (mem_range.mp isIn'')
    obtain rfl : x = 0 := by omega
    simp only [Nat.cast_zero, zero_mul]
    rfl
  · omega
  · omega

theorem nodup_indices (size : Fin 3 → Int) : (Region.indices size).Nodup := by
  have row (z y : Nat) :
      ((List.range (size 2).toNat).map fun (x : Nat) => ![(z : Int), y, x]).Nodup :=
    nodup_range.map fun x x' same => Int.ofNat_inj.mp (congrFun same 2)
  have plane (z : Nat) : ((List.range (size 1).toNat).flatMap fun (y : Nat) =>
        (List.range (size 2).toNat).map fun (x : Nat) => ![(z : Int), y, x]).Nodup := by
    refine nodup_flatMap.mpr ⟨fun y _ => row z y, nodup_range.imp ?_⟩
    intro y y' differ index isIn isIn'
    rcases mem_map.mp isIn with ⟨x, -, rfl⟩
    rcases mem_map.mp isIn' with ⟨x', -, same⟩
    exact differ (Int.ofNat_inj.mp (congrFun same 1).symm)
  refine nodup_flatMap.mpr ⟨fun z _ => plane z, nodup_range.imp ?_⟩
  intro z z' differ index isIn isIn'
  rcases mem_flatMap.mp isIn with ⟨y, -, isIn⟩
  rcases mem_map.mp isIn with ⟨x, -, rfl⟩
  rcases mem_flatMap.mp isIn' with ⟨y', -, isIn'⟩
  rcases mem_map.mp isIn' with ⟨x', -, same⟩
  exact differ (Int.ofNat_inj.mp (congrFun same 0).symm)

theorem isPlain_of_copies (injective : slice.Injective) (sizes : ∀ axis, 0 ≤ slice.size axis)
    (same :
      copyAll (withoutGaps slice).moves some (fun _ => (none : Option Int)) =
        copyAll slice.moves some fun _ => none) :
    IsPlain slice := by
  have targets (region : Region) :
      region.moves.map Prod.snd = (Region.indices region.size).map region.dst.at := by
    rw [Region.moves, map_map]
    rfl
  -- both write the same cells, and the region writes each of them once
  have distinct : (slice.moves.map Prod.snd).Nodup := by
    rw [targets]
    refine (nodup_indices slice.size).map_on fun index isIn index' isIn' => ?_
    exact injective _ _ (Region.mem_indices.mp isIn) (Region.mem_indices.mp isIn')
  have isPerm : (slice.moves.map Prod.snd).Perm ((withoutGaps slice).moves.map Prod.snd) := by
    refine (distinct.subperm fun cell isIn => mem_targets_of_copyAll same.symm isIn).perm_of_length_le ?_
    rw [targets, targets, length_map, length_map]
    exact le_refl _
  rw [targets, targets] at isPerm
  have shift : ∀ index, slice.dst.at index =
        (withoutGaps slice).dst.at index + (slice.dst.stride 2 - 1) * index 2 := by
    intro index
    simp only [View.at, dot, Fin.sum_univ_three, withoutGaps]
    simp
    ring
  have sums := isPerm.sum_eq
  rw [funext shift, sum_map_add, sum_map_mul_left] at sums
  by_contra notPlain
  have notPlain' : slice.dst.stride 2 ≠ 1 ∧ 1 < slice.size 2 ∧ slice.size 0 ≠ 0 ∧
      slice.size 1 ≠ 0 := by
    simpa [IsPlain] using notPlain
  rcases notPlain' with ⟨notOne, long, some0, some1⟩
  have isZero : ((Region.indices slice.size).map fun index : Fin 3 → Int => index 2).sum = 0 := by
    have isProduct : (slice.dst.stride 2 - 1) *
        ((Region.indices slice.size).map fun index : Fin 3 → Int => index 2).sum = 0 :=
      add_eq_left.mp sums
    exact (mul_eq_zero.mp isProduct).resolve_left (sub_ne_zero.mpr notOne)
  -- but the second element of a row adds one to the sum, and none takes from it
  have nonneg : ∀ value ∈ (Region.indices slice.size).map fun index : Fin 3 → Int => index 2,
      0 ≤ value := by
    intro value isIn
    rcases mem_map.mp isIn with ⟨index, isIndex, rfl⟩
    exact (Region.mem_indices.mp isIndex 2).1
  have isSecond : (1 : Int) ∈ (Region.indices slice.size).map fun index : Fin 3 → Int =>
      index 2 := by
    refine mem_map.mpr ⟨![0, 0, 1], Region.mem_indices.mpr fun axis => ?_, rfl⟩
    have size0 := sizes 0
    have size1 := sizes 1
    fin_cases axis
    · show (0 : Int) ≤ 0 ∧ 0 < slice.size 0
      omega
    · show (0 : Int) ≤ 0 ∧ 0 < slice.size 1
      omega
    · show (0 : Int) ≤ 1 ∧ 1 < slice.size 2
      omega
  have positive := single_le_sum nonneg 1 isSecond
  omega

/-- One row of four elements, every second element of the output. -/
def gappedRow : Region :=
  { src := { stride := ![4, 4, 1] }
    dst := { stride := ![8, 4, 2] }
    size := ![1, 1, 4] }

end Mnn.Cpu.CPURaster
