import Mnn.Cpu.CPURaster
import Mnn.Geometry.Permute

/-!
# Rasters on several threads

The regions of a raster are dealt out to threads, and a single region is divided between
them.  The output of an exact geometry does not depend on the order of their copies.
-/

namespace Mnn.Cpu.CPURaster

open Mnn.Core.Raster
open Mnn.Foundation.LoopNests
open Mnn.Foundation.StridedLoops
open Mnn.Geometry
open List
open Function

def LAUNCH_MULTI_THREADS_WORKLOAD : Int := 100000

def workload (slice : Region) : Int := slice.size 0 * slice.size 1 * slice.size 2

/-- The part of a region between two places on an axis. -/
def cacheReg (region : Region) (pos : Fin 3) (sta fin : Int) : Region where
  src := { region.src with offset := region.src.offset + sta * region.src.stride pos }
  dst := { region.dst with offset := region.dst.offset + sta * region.dst.stride pos }
  size := update region.size pos (fin - sta)

/-- "Split to multi region". -/
def divide (threadNumber : Nat) (region : Region) : List Region :=
  match [(0 : Fin 3), 1, 2].find? fun i => region.size i > 1 with
  | none => [region]
  | some pos =>
    let divSize := (region.size pos + threadNumber - 1) / threadNumber
    let parts := (List.range threadNumber).map fun (i : Nat) =>
        (i * divSize, min (i * divSize + divSize) (region.size pos))
    (parts.takeWhile fun part => part.1 < part.2).map fun part => cacheReg region pos part.1 part.2

/-- The regions for each thread.  None of them sums. -/
def tasks (threadNumber : Nat) (overlap : Bool) (regions : List Region) : List (List Region) :=
  let useThreads := regions.any fun slice => workload slice > LAUNCH_MULTI_THREADS_WORKLOAD
  let copies :=
    match regions with
    | [region] =>
      if threadNumber > 1 ∧ ¬workload region < LAUNCH_MULTI_THREADS_WORKLOAD then
        divide threadNumber region
      else
        regions
    | _ => regions
  let threadNum := if useThreads && !overlap then threadNumber else 1
  (List.range threadNum).map fun tId =>
    (copies.zipIdx.filter fun slice => slice.2 % threadNum = tId).map Prod.fst

/-! ## One region for all threads -/

variable {region slice : Region} {pos : Fin 3} {sta fin first second : Int} {threadNumber : Nat}

variable (region pos sta fin) in
theorem at_cacheReg (index : Fin 3 → Int) :
    (cacheReg region pos sta fin).src.at index = region.src.at (index + Pi.single pos sta) ∧
      (cacheReg region pos sta fin).dst.at index = region.dst.at (index + Pi.single pos sta) := by
  have isShift (stride : Fin 3 → Int) : dot stride (Pi.single pos sta) = sta * stride pos := by
    simp [dot, Pi.single_apply]
  simp only [View.at, cacheReg, dot_add, isShift]
  constructor <;> ring

theorem copies_cacheReg (positive : 0 ≤ sta) (inside : fin ≤ region.size pos) :
    (cacheReg region pos sta fin).Copies first second ↔ ∃ index, InBox region.size index ∧
      (sta ≤ index pos ∧ index pos < fin) ∧
        first = region.src.at index ∧ second = region.dst.at index := by
  have isInside (index : Fin 3 → Int) :
      InBox (cacheReg region pos sta fin).size index ↔
        InBox region.size (index + Pi.single pos sta) ∧
          sta ≤ (index + Pi.single pos sta : Fin 3 → Int) pos ∧
            (index + Pi.single pos sta : Fin 3 → Int) pos < fin := by
    rw [Pi.add_apply, Pi.single_eq_same]
    constructor
    · intro isIn
      have here := isIn pos
      simp only [cacheReg, update_self] at here
      refine ⟨fun axis => ?_, by omega⟩
      by_cases isPos : axis = pos
      · subst isPos
        rw [Pi.add_apply, Pi.single_eq_same]
        omega
      · simpa [cacheReg, isPos] using isIn axis
    · rintro ⟨isIn, bounds⟩ axis
      by_cases isPos : axis = pos
      · subst isPos
        simp only [cacheReg, update_self]
        omega
      · simpa [cacheReg, isPos] using isIn axis
  simp only [Region.Copies, isInside, at_cacheReg, and_assoc]
  constructor
  · rintro ⟨index, holds⟩
    exact ⟨_, holds⟩
  · rintro ⟨index, holds⟩
    refine ⟨index - Pi.single pos sta, ?_⟩
    rw [sub_add_cancel]
    exact holds

theorem moves_divide (some : 0 < threadNumber) (move : Int × Int) :
    (∃ piece ∈ divide threadNumber region, move ∈ piece.moves) ↔ move ∈ region.moves := by
  unfold divide
  split
  · simp
  · next pos isPos =>
    have isLong : region.size pos > 1 := by simpa using find?_some isPos
    have someThreads : (0 : Int) < threadNumber := Int.natCast_pos.mpr some
    have positive : 0 < (region.size pos + threadNumber - 1) / threadNumber :=
      (Int.le_ediv_iff_mul_le someThreads).mpr (by omega)
    have covers := Int.lt_ediv_add_one_mul_self (region.size pos + threadNumber - 1) someThreads
    generalize (region.size pos + threadNumber - 1) / threadNumber = divSize at positive covers
    rcases move with ⟨first, second⟩
    simp only [Region.mem_moves]
    constructor
    · rintro ⟨piece, isPiece, copies⟩
      rcases mem_map.mp isPiece with ⟨part, isPart, rfl⟩
      rcases mem_map.mp ((takeWhile_sublist _).subset isPart) with ⟨i, -, rfl⟩
      rcases (copies_cacheReg (by positivity) (min_le_right _ _)).mp copies with
        ⟨index, isIn, -, isFirst, isSecond⟩
      exact ⟨index, isIn, isFirst, isSecond⟩
    · rintro ⟨index, isIn, isFirst, isSecond⟩
      rcases isIn pos with ⟨notNegative, isBounded⟩
      -- the part that the index falls into
      have below := Int.ediv_mul_le (index pos) positive.ne'
      have above := Int.lt_ediv_add_one_mul_self (index pos) positive
      obtain ⟨i, isPart⟩ := Int.eq_ofNat_of_zero_le (Int.ediv_nonneg notNegative positive.le)
      rw [isPart] at below above
      rw [add_one_mul] at above
      have isThread : i + 1 ≤ threadNumber := by
        have less : (i : Int) * divSize < threadNumber * divSize := by linarith
        exact_mod_cast lt_of_mul_lt_mul_right less positive.le
      obtain ⟨rest, rfl⟩ := Nat.exists_eq_add_of_le isThread
      refine ⟨_, mem_map_of_mem (a := (i * divSize, min (i * divSize + divSize) (region.size pos))) ?_,
        (copies_cacheReg (by positivity) (min_le_right _ _)).mpr
        ⟨index, isIn, ⟨below, lt_min above isBounded⟩, isFirst, isSecond⟩⟩
      rw [range_add, map_append, takeWhile_append_of_pos]
      · exact mem_append_left _ (mem_map_of_mem self_mem_range_succ)
      · rintro part isEarlier
        rcases mem_map.mp isEarlier with ⟨j, isBefore, rfl⟩
        have isLess : (j : Int) ≤ i := by exact_mod_cast Nat.lt_succ_iff.mp (mem_range.mp isBefore)
        have isStart := mul_le_mul_of_nonneg_right isLess positive.le
        exact decide_eq_true (lt_min (by linarith) (by linarith))

/-! ## Any order -/

variable {regions : List Region} {overlap : Bool}

/-- The threads share out the copies of the regions. -/
theorem moves_tasks (some : 0 < threadNumber) (move : Int × Int) :
    (∃ task ∈ tasks threadNumber overlap regions, ∃ slice ∈ task, move ∈ slice.moves) ↔
      ∃ slice ∈ regions, move ∈ slice.moves := by
  have dealt (copies : List Region) {threadNum : Nat} (some : 0 < threadNum) :
      (∃ task ∈ (List.range threadNum).map fun tId =>
          (copies.zipIdx.filter fun slice => slice.2 % threadNum = tId).map Prod.fst,
        ∃ slice ∈ task, move ∈ slice.moves) ↔ ∃ slice ∈ copies, move ∈ slice.moves := by
    simp only [mem_map, mem_range, mem_filter, decide_eq_true_eq, exists_exists_and_eq_and,
      Prod.exists, mem_zipIdx_iff_getElem?, exists_and_right, exists_eq_right]
    constructor
    · rintro ⟨tId, -, slice, ⟨u, isThere, -⟩, isMove⟩
      exact ⟨slice, mem_of_getElem? isThere, isMove⟩
    · rintro ⟨slice, isIn, isMove⟩
      rcases getElem?_of_mem isIn with ⟨u, isThere⟩
      exact ⟨u % threadNum, Nat.mod_lt _ some, slice, ⟨u, isThere, rfl⟩, isMove⟩
  unfold tasks
  refine (dealt _ (by split <;> omega)).trans ?_
  split
  · split
    · rw [moves_divide some]
      simp
    · rfl
  · rfl

/-- Every way to copy a region makes its moves. -/
theorem mem_blit (core : CoreFunctions) {bytes : Nat} (isWidth : bytes = 1 ∨ bytes = 2 ∨ bytes = 4)
    (sizes : ∀ axis, 0 ≤ slice.size axis) (plain : ¬IsBlock slice ∨ IsPlain slice)
    (move : Int × Int) :
    move ∈ _blit core slice bytes slice.src.offset slice.dst.offset ↔ move ∈ slice.moves := by
  by_cases isBlock : IsBlock slice
  · rw [_blit, if_pos isBlock, block_moves isBlock sizes,
      withoutGaps_moves (plain.resolve_left (not_not.mpr isBlock))]
  · exact (blit_perm core isWidth isBlock).mem_iff

end Mnn.Cpu.CPURaster
