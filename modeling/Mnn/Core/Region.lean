import Mnn.Foundation.StridedLoops

/-!
# Regions

A region copies a three-dimensional box of cells from one tensor to another.
Offsets, strides and sizes are integers: `int32_t` overflow is not modelled.
-/

namespace Mnn.Core.Raster

open Mnn.Foundation.StridedLoops
open List

/-- The tensor behind `Tensor*`. -/
abbrev TensorPtr := Nat

/-- There are three axes; the proof has a name, so that it is one for all modules. -/
scoped instance axes_neZero : NeZero 3 := ⟨Nat.succ_ne_zero 2⟩

structure View where
  offset : Int := 0
  stride : Fin 3 → Int := fun _ => 1

structure Region where
  src : View := {}
  dst : View := {}
  size : Fin 3 → Int := fun _ => 1
  origin : Option TensorPtr := none

/-- The cell at an index. -/
def View.at (view : View) (index : Fin 3 → Int) : Int := view.offset + dot view.stride index

variable {reg : Region}

variable {first second : Int}

namespace Region

/-- The indices of the loops over `z`, `y` and `x`, in their order. -/
def indices (size : Fin 3 → Int) : List (Fin 3 → Int) :=
  (List.range (size 0).toNat).flatMap fun (z : Nat) =>
    (List.range (size 1).toNat).flatMap fun (y : Nat) =>
      (List.range (size 2).toNat).map fun (x : Nat) => ![(z : Int), y, x]

/-- The cells between which the loops copy. -/
def moves (reg : Region) : List (Int × Int) :=
  (indices reg.size).map fun index => (reg.src.at index, reg.dst.at index)

/-- The loops of `_computeRaw`, over a target which may hold something. -/
def blit {Value : Type*} (reg : Region) (source target : Int → Value) : Int → Value :=
  copyAll reg.moves source target

/-- The region copies from the first cell to the second one. -/
def Copies (reg : Region) (first second : Int) : Prop :=
  ∃ index, InBox reg.size index ∧
    first = reg.src.at index ∧ second = reg.dst.at index

def Reads (reg : Region) (cell : Int) : Prop := ∃ target, reg.Copies cell target

def Writes (reg : Region) (cell : Int) : Prop := ∃ source, reg.Copies source cell

/-- No cell is written twice. -/
def Injective (reg : Region) : Prop :=
  ∀ first second, InBox reg.size first → InBox reg.size second →
    reg.dst.at first = reg.dst.at second → first = second

theorem Copies.positive (copies : reg.Copies first second) :
    ∀ axis, 0 < reg.size axis := by
  intro axis
  rcases copies with ⟨index, inside, -⟩
  have bounds := inside axis
  omega

theorem mem_indices {size index : Fin 3 → Int} : index ∈ indices size ↔ InBox size index := by
  simp only [indices, mem_flatMap, mem_map, mem_range]
  constructor
  · rintro ⟨z, zBound, y, yBound, x, xBound, rfl⟩ axis
    fin_cases axis
    · show 0 ≤ (z : Int) ∧ (z : Int) < size 0
      omega
    · show 0 ≤ (y : Int) ∧ (y : Int) < size 1
      omega
    · show 0 ≤ (x : Int) ∧ (x : Int) < size 2
      omega
  · intro inside
    have zBounds := inside 0
    have yBounds := inside 1
    have xBounds := inside 2
    refine ⟨(index 0).toNat, by omega, (index 1).toNat, by omega, (index 2).toNat, by omega, ?_⟩
    ext axis
    fin_cases axis
    · exact Int.toNat_of_nonneg zBounds.1
    · exact Int.toNat_of_nonneg yBounds.1
    · exact Int.toNat_of_nonneg xBounds.1

theorem mem_moves :
    (first, second) ∈ reg.moves ↔ reg.Copies first second := by
  simp only [moves, mem_map, mem_indices, Copies, Prod.mk.injEq]
  constructor
  · rintro ⟨index, inside, rfl, rfl⟩
    exact ⟨index, inside, rfl, rfl⟩
  · rintro ⟨index, inside, rfl, rfl⟩
    exact ⟨index, inside, rfl, rfl⟩

instance (reg : Region) (first second : Int) :
    Decidable (reg.Copies first second) :=
  decidable_of_iff _ mem_moves

theorem writes_iff {cell : Int} :
    cell ∈ reg.moves.map Prod.snd ↔ reg.Writes cell := by
  simp only [Writes, ← mem_moves, mem_map, Prod.exists]
  constructor
  · rintro ⟨first, second, member, rfl⟩
    exact ⟨first, member⟩
  · rintro ⟨first, member⟩
    exact ⟨first, cell, member, rfl⟩

instance (reg : Region) (cell : Int) : Decidable (reg.Writes cell) :=
  decidable_of_iff _ writes_iff

/-- Injectivity can be checked on the list of cells that are written. -/
theorem injective_of_nodup (distinct : ((indices reg.size).map reg.dst.at).Nodup) :
    reg.Injective := by
  intro first second firstInside secondInside same
  exact inj_on_of_nodup_map distinct (mem_indices.mpr firstInside)
      (mem_indices.mpr secondInside) same

/-- What is written to a cell comes from one cell. -/
def SingleSource (reg : Region) : Prop :=
  ∀ first other second, reg.Copies first second → reg.Copies other second → first = other

theorem Injective.singleSource (injective : reg.Injective) : reg.SingleSource := by
  rintro first other second ⟨index, inside, rfl, rfl⟩ ⟨index', inside', rfl, same⟩
  rw [injective index index' inside inside' same]

theorem blit_of_copies {Value : Type*} {reg : Region} (single : reg.SingleSource)
    (source target : Int → Value) {first second : Int} (copies : reg.Copies first second) :
    reg.blit source target second = source first := by
  refine copyAll_of_mem ?_ (mem_moves.mpr copies)
  intro other member
  rw [single _ _ _ (mem_moves.mp member) copies]

theorem blit_of_not_writes {Value : Type*} {reg : Region} (source target : Int → Value)
    {cell : Int} (untouched : ¬reg.Writes cell) :
    reg.blit source target cell = target cell := by
  apply copyAll_other
  intro first member
  exact untouched ⟨first, mem_moves.mp member⟩

/-- The three loops of a region. -/
def axes (reg : Region) : List Axis := List.ofFn fun axis =>
    { size := reg.size axis
      left := reg.src.stride axis
      right := reg.dst.stride axis }

theorem copies_iff_visits :
    reg.Copies first second ↔
      Visits reg.axes (first - reg.src.offset) (second - reg.dst.offset) := by
  rw [axes, visits_ofFn]
  simp only [Copies, View.at]
  constructor
  · rintro ⟨index, inside, rfl, rfl⟩
    exact ⟨index, inside, by rw [add_sub_cancel_left], by rw [add_sub_cancel_left]⟩
  · rintro ⟨index, inside, leftEq, rightEq⟩
    refine ⟨index, inside, ?_, ?_⟩
    · rw [← leftEq, add_sub_cancel]
    · rw [← rightEq, add_sub_cancel]

end Region

/-- The fused region does what the two regions do in turn. -/
def FusesExactly (fused srcReg dstReg : Region) : Prop :=
  ∀ first last, fused.Copies first last ↔
      ∃ middle, srcReg.Copies first middle ∧ dstReg.Copies middle last

/--
Every cell that `dstReg` writes gets the same origin element through the fused
region as through the middle tensor.  A cell holds the number of the origin
element it comes from; what was never written stands for zero.
-/
def SameOrigins (fused srcReg dstReg : Region) : Prop :=
  ∀ target, dstReg.Writes target → fused.blit some (fun _ => none) target =
      dstReg.blit (srcReg.blit some fun _ => none) (fun _ => none) target

end Mnn.Core.Raster
