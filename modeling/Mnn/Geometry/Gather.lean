import Mnn.Geometry.Regions
import Mnn.Core.Macro
import Mnn.Foundation.Segments

/-!
# Gather

`_computeGather` makes raster regions for a few constant indices, and a loop
command else.  The regions are chosen by the index, but the loop looks only
whether the place that the index leads to is inside of the whole input.  So an
index behind the axis is read from a later part of the input.
-/

namespace Mnn.Geometry.GeometryGather

open Mnn.Core
open Mnn.Core.Raster
open Mnn.Foundation.Segments
open List

/-- The shape of the params, an axis that it has, and what the indices hold. -/
structure Gather where
  shape : List Nat
  axis : Int
  indices : List Int
  isAxis : -shape.length ≤ axis ∧ axis < shape.length

namespace Gather

variable (g : Gather)

def position : Nat := (if g.axis < 0 then g.shape.length + g.axis else g.axis).toNat

def axisLen : Nat := g.shape.getD g.position 0

def outside : Nat := (g.shape.take g.position).prod

def inside : Nat := (g.shape.drop (g.position + 1)).prod

/-- `N` of `_computeGather`. -/
def count : Nat := g.indices.length

def inputSize : Nat := g.shape.prod

def outputSize : Nat := g.outside * g.count * g.inside

/-- The region of the index at a place, if it is on the axis. -/
def region (params : TensorPtr) (i : Nat) : Option Region :=
  let index := g.indices.getD i 0
  if index < 0 ∨ g.axisLen ≤ index then
    none
  else
    some
      { origin := some params
        size := ![1, g.outside, g.inside]
        src := { offset := index * g.inside, stride := ![0, g.inside * g.axisLen, 1] }
        dst := { offset := i * g.inside, stride := ![1, g.inside * g.count, 1] } }

def regions (params : TensorPtr) : List Region := (range g.count).filterMap (g.region params)

/-! ## The loop -/

end Gather

/-- `RegionCommand`, as far as a loop with one unary command reads it. -/
structure RegionCommand where
  size : Fin 3 → Int
  dstView : View
  srcView : View
  steps : Int × Int
  iterIndexes : Int × Int

/-- The command of the loop, which has `count` iterations. -/
def Gather.loopCommand (g : Gather) : RegionCommand where
  size := ![g.outside, 1, g.inside]
  dstView := { offset := 0, stride := ![g.inside * g.count, g.inside, 1] }
  srcView := { offset := 0, stride := ![g.inside * g.axisLen, g.inside, 1] }
  steps := (g.inside, g.inside)
  iterIndexes := (-1, 1)

variable {Value : Type}

/-- The rasters of a virtual tensor, whose cells are zero if nothing is written. -/
def raster [Zero Value] (regions : List Region) (input : Int → Value) : Int → Value :=
  regions.foldl (fun output reg => reg.blit input output) fun _ => 0

/-- `_zero`, whose rows have no gaps. -/
def zero [Zero Value] (reg : Region) (output : Int → Value) : Int → Value :=
  ({ reg with dst := { reg.dst with stride := ![reg.dst.stride 0, reg.dst.stride 1, 1] } } :
    Region).blit (fun _ => 0) output

/-- One iteration of `CPULoop::onExecute` for a unary command without parameters. -/
def iterate [Zero Value] (originInputs : Nat → Nat → Int) (cmd : RegionCommand) (inputSize outputSize : Nat)
    (input output : Int → Value) (iter : Nat) : Int → Value :=
  let iterOf (index : Int) : Int := if 0 ≤ index then originInputs index.toNat iter else iter
  let srcOffset := iterOf cmd.iterIndexes.2 * cmd.steps.2 + cmd.srcView.offset
  let dstOffset := iterOf cmd.iterIndexes.1 * cmd.steps.1 + cmd.dstView.offset
  let reg : Region :=
    { src := { cmd.srcView with offset := srcOffset }
      dst := { cmd.dstView with offset := dstOffset }
      size := cmd.size }
  if 0 ≤ dstOffset ∧ dstOffset < outputSize then
    if 0 ≤ srcOffset ∧ srcOffset < inputSize then
      reg.blit input output
    else
      zero reg output
  else
    output

namespace Gather

variable (g : Gather)

/-- The loop over an output that holds something. -/
def loop [Zero Value] (input output : Int → Value) : Int → Value :=
  (range g.count).foldl
    (iterate (fun _ iter => g.indices.getD iter 0) g.loopCommand g.inputSize g.outputSize input)
    output

/-! ## What is gathered -/

/-- The cell of the output at an outer index, the place of an index and an inner index. -/
def cell (o n i : Nat) : Int := ((o * g.count + n) * g.inside + i : Nat)

/-- The output holds what the indices choose, and zero where they choose nothing. -/
def Gathers [Zero Value] (input output : Int → Value) : Prop :=
  ∀ o < g.outside, ∀ n < g.count, ∀ i < g.inside,
    output (g.cell o n i) =
      let index := g.indices.getD n 0
      if 0 ≤ index ∧ index < g.axisLen then
        input ((o * g.axisLen + index) * g.inside + i)
      else
        0

theorem position_lt : g.position < g.shape.length := by
  have isAxis := g.isAxis
  rw [position]
  split_ifs <;> omega

theorem inputSize_eq : g.inputSize = g.outside * g.axisLen * g.inside := by
  have isThere := g.position_lt
  rw [inputSize, axisLen, outside, inside, getD_eq_getElem?_getD,
    List.getElem?_eq_getElem isThere, Option.getD_some, mul_assoc, ← prod_cons,
    ← drop_eq_getElem_cons isThere, prod_take_mul_prod_drop]

variable {g} {o n i n' : Nat}

theorem cell_inj {o' i' : Nat} (isPlace : n < g.count) (isPlace' : n' < g.count)
    (isInner : i < g.inside) (isInner' : i' < g.inside) (same : g.cell o n i = g.cell o' n' i') :
    o = o' ∧ n = n' ∧ i = i' := by
  obtain ⟨high, isInner⟩ := digits_inj isInner isInner' (Int.ofNat.inj same)
  obtain ⟨isOuter, isPlace⟩ := digits_inj isPlace isPlace' high
  exact ⟨isOuter, isPlace, isInner⟩

/-- The region copies to the cells of a place, from where `source` says. -/
def Fills (g : Gather) (n : Nat) (reg : Region) (source : Nat → Nat → Int) : Prop :=
  ∀ first second, reg.Copies first second ↔
    ∃ o < g.outside, ∃ i < g.inside, first = source o i ∧ second = g.cell o n i

section Fills

variable {n : Nat} {reg : Region} {source : Nat → Nat → Int} (isPlace : n < g.count)
  (fills : g.Fills n reg source) (input output : Int → Value)

include isPlace fills

theorem Fills.blit_at (isOuter : o < g.outside) (isInner : i < g.inside) :
    reg.blit input output (g.cell o n i) = input (source o i) := by
  refine Region.blit_of_copies ?_ input output ((fills _ _).mpr ⟨o, isOuter, i, isInner, rfl, rfl⟩)
  intro first other second copies copies'
  obtain ⟨o, -, i, isInner, rfl, rfl⟩ := (fills _ _).mp copies
  obtain ⟨o', -, i', isInner', rfl, same⟩ := (fills _ _).mp copies'
  obtain ⟨rfl, -, rfl⟩ := cell_inj isPlace isPlace isInner isInner' same
  rfl

theorem Fills.blit_other (isPlace' : n' < g.count) (isInner : i < g.inside)
    (other : n' ≠ n) : reg.blit input output (g.cell o n' i) = output (g.cell o n' i) := by
  refine Region.blit_of_not_writes input output ?_
  rintro ⟨first, copies⟩
  obtain ⟨o', -, i', isInner', -, same⟩ := (fills _ _).mp copies
  exact other (cell_inj isPlace' isPlace isInner isInner' same).2.1

end Fills

theorem copies_iff {reg : Region} {first second : Int} :
    reg.Copies first second ↔ ∃ z y x : Nat,
      (z : Int) < reg.size 0 ∧ (y : Int) < reg.size 1 ∧ (x : Int) < reg.size 2 ∧
        first = reg.src.offset +
          (z * reg.src.stride 0 + (y * reg.src.stride 1 + x * reg.src.stride 2)) ∧
        second = reg.dst.offset +
          (z * reg.dst.stride 0 + (y * reg.dst.stride 1 + x * reg.dst.stride 2)) := by
  rw [← Region.mem_moves, moves_eq_flatMap]
  simp only [mem_flatMap, List.mem_map, List.mem_range, Prod.mk.injEq, Int.lt_toNat]
  constructor
  · rintro ⟨z, isZ, y, isY, x, isX, isFirst, isSecond⟩
    exact ⟨z, y, x, isZ, isY, isX, isFirst.symm, isSecond.symm⟩
  · rintro ⟨z, y, x, isZ, isY, isX, isFirst, isSecond⟩
    exact ⟨z, isZ, y, isY, x, isX, isFirst.symm, isSecond.symm⟩

theorem fills_region {params : TensorPtr} {reg : Region} (isRegion : g.region params n = some reg) :
    g.Fills n reg fun o i => (o * g.axisLen + g.indices.getD n 0) * g.inside + i := by
  rw [region] at isRegion
  split_ifs at isRegion
  obtain rfl := Option.some.inj isRegion
  intro first second
  simp only [copies_iff, cell]
  constructor
  · rintro ⟨z, y, x, isZ, isOuter, isInner, rfl, rfl⟩
    obtain rfl : z = 0 := Nat.lt_one_iff.mp (Int.ofNat_lt.mp isZ)
    refine ⟨y, Int.ofNat_lt.mp isOuter, x, Int.ofNat_lt.mp isInner, ?_, ?_⟩ <;>
    · push_cast
      simp
      ring
  · rintro ⟨o, isOuter, i, isInner, rfl, rfl⟩
    refine ⟨0, o, i, Int.zero_lt_one, Int.ofNat_lt.mpr isOuter, Int.ofNat_lt.mpr isInner, ?_, ?_⟩ <;>
    · push_cast
      simp
      ring

/-- What an iteration copies if the place is inside of the input. -/
def iterated (g : Gather) (n : Nat) : Region where
  src := { g.loopCommand.srcView with offset := g.indices.getD n 0 * g.inside + 0 }
  dst := { g.loopCommand.dstView with offset := n * g.inside + 0 }
  size := g.loopCommand.size

theorem fills_iterated (n : Nat) :
    g.Fills n (g.iterated n) fun o i => (o * g.axisLen + g.indices.getD n 0) * g.inside + i := by
  intro first second
  simp only [copies_iff, cell, iterated, loopCommand]
  constructor
  · rintro ⟨z, y, x, isOuter, isY, isInner, rfl, rfl⟩
    obtain rfl : y = 0 := Nat.lt_one_iff.mp (Int.ofNat_lt.mp isY)
    refine ⟨z, Int.ofNat_lt.mp isOuter, x, Int.ofNat_lt.mp isInner, ?_, ?_⟩ <;>
    · push_cast
      simp
      ring
  · rintro ⟨o, isOuter, i, isInner, rfl, rfl⟩
    refine ⟨o, 0, i, Int.ofNat_lt.mpr isOuter, Int.zero_lt_one, Int.ofNat_lt.mpr isInner, ?_, ?_⟩ <;>
    · push_cast
      simp
      ring

variable [Zero Value]

theorem zero_eq (reg : Region) (isUnit : reg.dst.stride 2 = 1) (output : Int → Value) :
    zero reg output = reg.blit (fun _ => 0) output := by
  have same : ![reg.dst.stride 0, reg.dst.stride 1, 1] = reg.dst.stride := by
    funext axis
    fin_cases axis
    · rfl
    · rfl
    · exact isUnit.symm
  rw [zero, same]

/-! ## The two lowerings -/

section Lowerings

variable {o n i : Nat} (isOuter : o < g.outside) (isPlace : n < g.count) (isInner : i < g.inside)
  (input output : Int → Value)

include isOuter isPlace isInner

theorem raster_regions_apply (params : TensorPtr) :
    raster (g.regions params) input (g.cell o n i) =
      if 0 ≤ g.indices.getD n 0 ∧ g.indices.getD n 0 < g.axisLen then
        input ((o * g.axisLen + g.indices.getD n 0) * g.inside + i)
      else
        0 := by
  have untouched {j : Nat} (isPlace' : j < g.count) (other : n ≠ j) {reg : Region}
      (isRegion : g.region params j = some reg) (memory : Int → Value) :
      reg.blit input memory (g.cell o n i) = memory (g.cell o n i) :=
    (fills_region isRegion).blit_other isPlace' input memory isPlace isInner other
  rw [raster, regions, foldl_filterMap, foldl_range_last isPlace fun j after less memory => ?_]
  · cases isRegion : g.region params n with
    | some reg =>
      rw [if_pos]
      · exact (fills_region isRegion).blit_at isPlace input _ isOuter isInner
      · rw [region] at isRegion
        split_ifs at isRegion
        omega
    | none =>
      rw [if_neg]
      · refine foldl_untouched (range n) (fun j isEarlier memory => ?_) _
        have less := List.mem_range.mp isEarlier
        cases isRegion : g.region params j with
        | none => rfl
        | some reg => exact untouched (lt_trans less isPlace) (ne_of_gt less) isRegion memory
      · rw [region] at isRegion
        split_ifs at isRegion
        omega
  · cases isRegion : g.region params j with
    | none => rfl
    | some reg => exact untouched less (ne_of_lt after) isRegion memory

theorem loop_apply :
    g.loop input output (g.cell o n i) =
      if 0 ≤ g.indices.getD n 0 ∧ g.indices.getD n 0 < (g.outside * g.axisLen : Nat) then
        input ((o * g.axisLen + g.indices.getD n 0) * g.inside + i)
      else
        0 := by
  have positive : (0 : Int) < g.inside := Int.ofNat_lt.mpr (Nat.zero_lt_of_lt isInner)
  have isIterate (j : Nat) (memory : Int → Value) :
      iterate (fun _ iter => g.indices.getD iter 0) g.loopCommand g.inputSize g.outputSize input
          memory j =
        if 0 ≤ (j : Int) * g.inside + 0 ∧ (j : Int) * g.inside + 0 < g.outputSize then
          if 0 ≤ g.indices.getD j 0 * g.inside + 0 ∧
              g.indices.getD j 0 * g.inside + 0 < g.inputSize then
            (g.iterated j).blit input memory
          else
            (g.iterated j).blit (fun _ => 0) memory
        else
          memory := by
    rw [← zero_eq (g.iterated j) rfl]
    rfl
  rw [loop, foldl_range_last isPlace fun j after less memory => ?_]
  · have isThere : 0 ≤ (n : Int) * g.inside + 0 ∧ (n : Int) * g.inside + 0 < g.outputSize := by
      have bound := digits_lt (digits_lt isOuter isPlace) isInner
      have le := Nat.mul_le_mul_right g.inside (Nat.le_add_left n (o * g.count))
      have less : n * g.inside < g.outputSize := Nat.lt_of_le_of_lt (Nat.le_add_right_of_le le) bound
      rw [add_zero]
      exact ⟨by positivity, by exact_mod_cast less⟩
    have isInput : (0 ≤ g.indices.getD n 0 * g.inside + 0 ∧
        g.indices.getD n 0 * g.inside + 0 < g.inputSize) ↔
        0 ≤ g.indices.getD n 0 ∧ g.indices.getD n 0 < (g.outside * g.axisLen : Nat) := by
      rw [add_zero, inputSize_eq, mul_nonneg_iff_of_pos_right positive, Nat.cast_mul,
        mul_lt_mul_iff_left₀ positive]
    rw [isIterate, if_pos isThere]
    simp only [isInput]
    split
    · exact (fills_iterated n).blit_at isPlace input _ isOuter isInner
    · exact (fills_iterated n).blit_at isPlace _ _ isOuter isInner
  · rw [isIterate]
    split_ifs
    · exact (fills_iterated j).blit_other less _ memory isPlace isInner (ne_of_lt after)
    · exact (fills_iterated j).blit_other less _ memory isPlace isInner (ne_of_lt after)
    · rfl

end Lowerings

end Gather

/-- The second row starts behind the axis of the first one. -/
def twoRows : Gather := ⟨[2, 1], 1, [1], by decide⟩

end Mnn.Geometry.GeometryGather
