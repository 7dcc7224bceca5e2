import Mathlib

/-!
# Nests of loops

Each loop moves two addresses by two strides of its own.  A nest is the list of the
moves that its loops make, one for each turn of the innermost loop: so it says how often
each address is visited, and in which order.

Loops may be split and joined without a change, and what is listed over all indices of a
box is what a nest lists over it.
-/

variable {first second : List Loop}

namespace Mnn.Foundation.LoopNests

open List
open Function
open Nat

/-- How often a loop runs, and how far it moves both addresses. -/
structure Loop where
  size : Nat
  left : Int
  right : Int
  deriving DecidableEq

/-- Moves that start elsewhere. -/
def shifted (left right : Int) (moves : List (Int × Int)) : List (Int × Int) :=
  moves.map fun move => (left + move.1, right + move.2)

/-- The moves of a nest, the first loop outside. -/
def nest : List Loop → List (Int × Int)
  | [] => [(0, 0)]
  | loop :: rest =>
    (List.range loop.size).flatMap fun (i : Nat) =>
      shifted (i * loop.left) (i * loop.right) (nest rest)

theorem shifted_zero (moves : List (Int × Int)) : shifted 0 0 moves = moves := by
  simp [shifted]

theorem shifted_shifted (left right left' right' : Int) (moves : List (Int × Int)) :
    shifted left right (shifted left' right' moves) =
      shifted (left + left') (right + right') moves := by
  simp [shifted, add_assoc]

theorem shifted_flatMap {Item : Type} (left right : Int) (items : List Item)
    (moves : Item → List (Int × Int)) :
    shifted left right (items.flatMap moves) =
      items.flatMap fun item => shifted left right (moves item) :=
  map_flatMap ..

/-! ## Loops are joined and split -/

theorem nest_unit {loop : Loop} (once : loop.size = 1) (rest : List Loop) :
    nest (loop :: rest) = nest rest := by
  simp [nest, once, shifted]

theorem nest_empty {loops : List Loop} (never : ∃ loop ∈ loops, loop.size = 0) :
    nest loops = [] := by
  induction loops with
  | nil => simp at never
  | cons loop rest ih =>
    rw [exists_mem_cons_iff] at never
    rcases never with isZero | isLater
    · simp [nest, isZero]
    · simp [nest, ih isLater, shifted]

theorem range_mul (outer inner : Nat) :
    List.range (outer * inner) = (List.range outer).flatMap fun i =>
        (List.range inner).map fun j => i * inner + j := by
  induction outer with
  | zero => simp
  | succ outer ih =>
    rw [succ_mul, range_add, ih, range_succ]
    simp

theorem nest_split (outer inner : Nat) (left right : Int) (rest : List Loop) :
    nest (⟨outer * inner, left, right⟩ :: rest) =
      nest (⟨outer, inner * left, inner * right⟩ :: ⟨inner, left, right⟩ :: rest) := by
  rw [nest, nest, range_mul, flatMap_assoc]
  congr 1
  funext i
  rw [nest, shifted_flatMap, flatMap_map]
  congr 1
  funext j
  rw [shifted_shifted]
  congr 1
  · push_cast
    ring
  · push_cast
    ring

theorem nest_append (outer inner : List Loop) :
    nest (outer ++ inner) =
      (nest outer).flatMap fun move => shifted move.1 move.2 (nest inner) := by
  induction outer with
  | nil => simp [nest, shifted_zero]
  | cons loop outer ih =>
    rw [cons_append, nest, nest, flatMap_assoc]
    congr 1
    funext i
    rw [ih, shifted_flatMap]
    simp only [shifted_shifted]
    rw [shifted, flatMap_map]

theorem nest_cons_congr (loop : Loop) (same : nest first = nest second) :
    nest (loop :: first) = nest (loop :: second) := by
  rw [nest, nest, same]

theorem nest_append_congr (outer : List Loop) (same : nest first = nest second) :
    nest (outer ++ first) = nest (outer ++ second) := by
  rw [nest_append, nest_append, same]

theorem nest_stride {size : Nat} (once : size ≤ 1) (left right left' right' : Int)
    (rest : List Loop) :
    nest (⟨size, left, right⟩ :: rest) = nest (⟨size, left', right'⟩ :: rest) := by
  rcases le_one_iff_eq_zero_or_eq_one.mp once with rfl | rfl
  · rfl
  · rw [nest_unit rfl, nest_unit rfl]

theorem flatMap_swap {First Second Result : Type} (first : List First)
    (second : List Second) (results : First → Second → List Result) :
    (first.flatMap fun i => second.flatMap fun j => results i j).Perm
      (second.flatMap fun j => first.flatMap fun i => results i j) := by
  induction first with
  | nil => simp
  | cons i first ih =>
    simp only [flatMap_cons]
    exact (ih.append_left _).trans (flatMap_append_perm _ _ _)

theorem shifted_perm {first second : List (Int × Int)} (same : first.Perm second)
    (left right : Int) : (shifted left right first).Perm (shifted left right second) :=
  same.map _

/-- Loops may be swapped, which changes the order of the moves only. -/
theorem nest_perm (same : first.Perm second) :
    (nest first).Perm (nest second) := by
  induction same with
  | nil => exact .refl _
  | cons loop _ ih =>
    exact List.Perm.flatMap_left _ fun i _ => shifted_perm ih _ _
  | swap first second rest =>
    have both (outer inner : Loop) :
        nest (outer :: inner :: rest) = (List.range outer.size).flatMap fun (i : Nat) =>
            (List.range inner.size).flatMap fun (j : Nat) =>
              shifted (i * outer.left + j * inner.left)
                (i * outer.right + j * inner.right) (nest rest) := by
      simp only [nest, shifted_flatMap, shifted_shifted]
    rw [both, both]
    refine (flatMap_swap _ _ _).trans ?_
    simp only [add_comm]
    exact .refl _
  | trans _ _ first second => exact first.trans second

theorem range_blocks (size block : Nat) :
    List.range size = List.range (size / block * block) ++
        List.range' (size / block * block) (size - size / block * block) := by
  have whole := @List.range'_append_1 0 (size / block * block) (size - size / block * block)
  rw [zero_add, Nat.add_sub_cancel' (Nat.div_mul_le_self size block)] at whole
  rw [range_eq_range', range_eq_range', whole]

/--
A plane is covered by its whole tiles, the rows below them and what is right of
them.
-/
theorem tiles_perm {Result : Type} (tile height width : Nat) (cell : Nat → Nat → Result) :
    (((List.range (height / tile)).flatMap fun y =>
        (List.range (width / tile)).flatMap fun x =>
          (List.range tile).flatMap fun a =>
            (List.range tile).map fun b => cell (y * tile + a) (x * tile + b)) ++
      ((List.range' (height / tile * tile) (height - height / tile * tile)).flatMap fun i =>
        (List.range width).map fun j => cell i j) ++
      ((List.range (height / tile * tile)).flatMap fun i =>
        (List.range' (width / tile * tile) (width - width / tile * tile)).map fun j =>
          cell i j)).Perm
      ((List.range height).flatMap fun i => (List.range width).map fun j => cell i j) := by
  have isTiles : ((List.range (height / tile)).flatMap fun y =>
        (List.range (width / tile)).flatMap fun x =>
          (List.range tile).flatMap fun a =>
            (List.range tile).map fun b => cell (y * tile + a) (x * tile + b)).Perm
      ((List.range (height / tile * tile)).flatMap fun i =>
        (List.range (width / tile * tile)).map fun j => cell i j) := by
    rw [range_mul (height / tile), flatMap_assoc]
    refine List.Perm.flatMap_left _ fun y _ => ?_
    rw [flatMap_map]
    refine (flatMap_swap _ _ _).trans ?_
    refine List.Perm.flatMap_left _ fun a _ => ?_
    rw [range_mul (width / tile), map_flatMap]
    simp only [map_map]
    exact .refl _
  have isRows : ((List.range (height / tile * tile)).flatMap fun i =>
        (List.range width).map fun j => cell i j).Perm
      (((List.range (height / tile * tile)).flatMap fun i =>
          (List.range (width / tile * tile)).map fun j => cell i j) ++
        ((List.range (height / tile * tile)).flatMap fun i =>
          (List.range' (width / tile * tile) (width - width / tile * tile)).map fun j =>
            cell i j)) := by
    refine List.Perm.trans (List.Perm.flatMap_left _ fun i _ => ?_) (flatMap_append_perm _ _ _).symm
    rw [range_blocks width tile, map_append]
  rw [range_blocks height tile, flatMap_append]
  refine List.Perm.trans ?_ (isRows.symm.append_right _)
  rw [append_assoc, append_assoc]
  exact isTiles.append perm_append_comm

/-! ## Boxes -/

/-- The indices of a box, the last axis running fastest. -/
def boxIndices : List Nat → List (List Nat)
  | [] => [[]]
  | size :: sizes =>
    (List.range size).flatMap fun i => (boxIndices sizes).map fun index => i :: index

/-- Indices, weighed with strides. -/
def weigh : List Nat → List Int → Int
  | i :: index, stride :: strides => i * stride + weigh index strides
  | _, _ => 0

theorem nest_eq_map (loops : List Loop) :
    nest loops = (boxIndices (loops.map Loop.size)).map fun index =>
        (weigh index (loops.map Loop.left), weigh index (loops.map Loop.right)) := by
  induction loops with
  | nil => rfl
  | cons loop rest ih =>
    rw [nest, ih]
    show _ = List.map _ (List.flatMap _ _)
    rw [map_flatMap]
    congr 1
    funext i
    rw [shifted, map_map, map_map]
    rfl

theorem length_of_mem_boxIndices {sizes index : List Nat}
    (isIn : index ∈ boxIndices sizes) : index.length = sizes.length := by
  induction sizes generalizing index with
  | nil => simp [boxIndices] at isIn; simp [isIn]
  | cons size sizes ih =>
    rcases mem_flatMap.mp isIn with ⟨i, -, isIn⟩
    rcases mem_map.mp isIn with ⟨rest, isRest, rfl⟩
    simp [ih isRest]

/-! ## Numbers of indices -/

/-- The strides of a box that is stored row by row. -/
def strides : List Nat → List Nat
  | [] => []
  | _ :: sizes => sizes.prod :: strides sizes

/-- The place of an index in a box that is stored row by row. -/
def address (sizes : List Nat) (index : List Nat) : Int :=
  weigh index ((strides sizes).map fun (stride : Nat) => (stride : Int))

/-- The index with a given number. -/
def unravel : List Nat → Nat → List Nat
  | [], _ => []
  | _ :: sizes, number =>
    number / sizes.prod :: unravel sizes (number % sizes.prod)

theorem map_unravel (sizes : List Nat) :
    (List.range sizes.prod).map (unravel sizes) = boxIndices sizes := by
  induction sizes with
  | nil => rfl
  | cons size sizes ih =>
    rw [prod_cons, range_mul, map_flatMap, boxIndices, ← ih]
    congr 1
    funext i
    rw [map_map, map_map]
    refine map_congr_left fun j isIn => ?_
    have less : j < sizes.prod := mem_range.mp isIn
    have positive : 0 < sizes.prod := zero_lt_of_lt less
    rw [comp_apply, unravel, comp_apply, mul_comm,
      mul_add_div positive, div_eq_of_lt less, mul_add_mod,
      mod_eq_of_lt less, add_zero]

theorem map_address (sizes : List Nat) :
    (boxIndices sizes).map (address sizes) =
      (List.range sizes.prod).map fun (place : Nat) => (place : Int) := by
  induction sizes with
  | nil => rfl
  | cons size sizes ih =>
    rw [boxIndices, map_flatMap, prod_cons, range_mul, map_flatMap]
    congr 1
    funext i
    have isPlace :
        address (size :: sizes) ∘ (fun index => i :: index) =
          (fun place : Int => (i * sizes.prod : Nat) + place) ∘ address sizes := by
      funext index
      show (i : Int) * (sizes.prod : Nat) + _ = _
      rw [comp_apply, cast_mul]
      rfl
    rw [map_map, isPlace, ← map_map, ih, map_map, map_map]
    refine map_congr_left fun j _ => ?_
    simp

end Mnn.Foundation.LoopNests
