import Mnn.Foundation.LoopNests

/-!
# Marked moves

The moves of several axes are crossed: their addresses are added, and what is crossed is
marked if all moves are.  So the moves of a box may be told by whether they stay inside of
another one, and each axis may list its moves by alternatives.
-/

namespace Mnn.Foundation.MarkedMoves

open Mnn.Foundation.LoopNests
open List
open Function

/-- Two addresses, and a mark. -/
structure Move where
  left : Int
  right : Int
  marked : Bool
  deriving DecidableEq

def Move.join (outer inner : Move) : Move :=
  ⟨outer.left + inner.left, outer.right + inner.right, outer.marked && inner.marked⟩

/-- The move that does nothing. -/
def neutral : Move := ⟨0, 0, true⟩

@[simp]
theorem join_neutral (move : Move) : move.join neutral = move := by
  simp [Move.join, neutral]

@[simp]
theorem neutral_join (move : Move) : neutral.join move = move := by
  simp [Move.join, neutral]

theorem join_assoc (first second third : Move) :
    (first.join second).join third = first.join (second.join third) := by
  simp [Move.join, add_assoc, Bool.and_assoc]

/-- One move of each axis, the first axis outside. -/
def cross : List (List Move) → List Move
  | [] => [neutral]
  | moves :: rest => moves.flatMap fun move => (cross rest).map move.join

theorem cross_append (outer inner : List (List Move)) :
    cross (outer ++ inner) = (cross outer).flatMap fun move => (cross inner).map move.join := by
  induction outer with
  | nil =>
    have isSame : neutral.join = id := funext neutral_join
    simp [cross, isSame]
  | cons moves outer ih =>
    rw [cons_append, cross, cross, ih, flatMap_assoc]
    congr 1
    funext move
    rw [map_flatMap, flatMap_map]
    congr 1
    funext move'
    rw [map_map]
    congr 1
    funext move''
    exact (join_assoc move move' move'').symm

/-- The order of the moves of an axis changes the order of what is crossed only. -/
theorem cross_perm {first second : List (List Move)}
    (same : List.Forall₂ List.Perm first second) : (cross first).Perm (cross second) := by
  induction same with
  | nil => exact .refl _
  | cons isPerm _ ih =>
    refine (isPerm.flatMap_right _).trans ?_
    exact List.Perm.flatMap_left _ fun move _ => ih.map _

theorem length_cross (axes : List (List Move)) :
    (cross axes).length = (axes.map List.length).prod := by
  induction axes with
  | nil => rfl
  | cons moves rest ih =>
    rw [cross, length_flatMap, map_cons, prod_cons, ← ih]
    simp

theorem filter_cross (axes : List (List Move)) :
    (cross axes).filter Move.marked = cross (axes.map fun moves => moves.filter Move.marked) := by
  induction axes with
  | nil => rfl
  | cons moves rest ih =>
    rw [cross, map_cons, cross, ← ih, filter_flatMap]
    induction moves with
    | nil => rfl
    | cons move moves inner =>
      have isJoined :
          ((cross rest).map move.join).filter Move.marked =
            if move.marked then ((cross rest).filter Move.marked).map move.join
            else [] := by
        rw [filter_map]
        cases isMarked : move.marked with
        | true => simp [comp_def, Move.join, isMarked]
        | false => simp [comp_def, Move.join, isMarked]
      rw [flatMap_cons, inner, isJoined, filter_cons]
      cases move.marked with
      | true => rfl
      | false => rfl

variable {axes : List (List Move)}

theorem marked_of_mem_cross {move : Move}
    (allMarked : ∀ moves ∈ axes, ∀ move ∈ moves, move.marked = true)
    (isIn : move ∈ cross axes) : move.marked = true := by
  induction axes generalizing move with
  | nil =>
    obtain rfl := mem_singleton.mp isIn
    rfl
  | cons moves rest ih =>
    rw [forall_mem_cons] at allMarked
    rcases mem_flatMap.mp isIn with ⟨first, isFirst, isIn⟩
    rcases mem_map.mp isIn with ⟨second, isSecond, rfl⟩
    rw [Move.join, allMarked.1 first isFirst, ih allMarked.2 isSecond]
    rfl

theorem not_marked_of_mem_cross {move : Move}
    (someNot : ∃ moves ∈ axes, ∀ move ∈ moves, move.marked = false)
    (isIn : move ∈ cross axes) : move.marked = false := by
  induction axes generalizing move with
  | nil => simp at someNot
  | cons moves rest ih =>
    rw [exists_mem_cons_iff] at someNot
    rcases mem_flatMap.mp isIn with ⟨first, isFirst, isIn⟩
    rcases mem_map.mp isIn with ⟨second, isSecond, rfl⟩
    rcases someNot with notFirst | notLater
    · rw [Move.join, notFirst first isFirst]
      rfl
    · rw [Move.join, ih notLater isSecond, Bool.and_false]

/-- Where an axis has a move without a mark, and no axis is empty. -/
theorem exists_unmarked (noneEmpty : ∀ moves ∈ axes, moves ≠ [])
    (someNot : ∃ moves ∈ axes, ∃ move ∈ moves, move.marked = false) :
    ∃ move ∈ cross axes, move.marked = false := by
  have hasMove {axes : List (List Move)} (noneEmpty : ∀ moves ∈ axes, moves ≠ []) :
      ∃ move, move ∈ cross axes := by
    refine exists_mem_of_length_pos ?_
    rw [length_cross]
    refine Nat.pos_of_ne_zero fun isZero => ?_
    rcases mem_map.mp (prod_eq_zero_iff.mp isZero) with ⟨moves, isIn, isEmpty⟩
    exact noneEmpty moves isIn (eq_nil_of_length_eq_zero isEmpty)
  induction axes with
  | nil => simp at someNot
  | cons moves rest ih =>
    rw [forall_mem_cons] at noneEmpty
    rw [exists_mem_cons_iff] at someNot
    rcases someNot with ⟨first, isFirst, notMarked⟩ | isLater
    · rcases hasMove noneEmpty.2 with ⟨later, isLater⟩
      refine ⟨first.join later, mem_flatMap.mpr ⟨first, isFirst, mem_map_of_mem isLater⟩, ?_⟩
      rw [Move.join, notMarked]
      rfl
    · rcases ih noneEmpty.2 isLater with ⟨later, isLater, notMarked⟩
      rcases exists_mem_of_ne_nil _ noneEmpty.1 with ⟨first, isFirst⟩
      refine ⟨first.join later, mem_flatMap.mpr ⟨first, isFirst, mem_map_of_mem isLater⟩, ?_⟩
      rw [Move.join, notMarked, Bool.and_false]

/-- What is crossed without a mark: each outer move with what is not marked inside, and
each outer move without a mark with what is. -/
theorem length_unmarked (outer inner : List Move) :
    ((outer.flatMap fun move => inner.map move.join).filter fun move => !move.marked).length =
      outer.length * (inner.filter fun move => !move.marked).length +
        (outer.filter fun move => !move.marked).length * (inner.filter Move.marked).length := by
  induction outer with
  | nil => simp
  | cons move outer ih =>
    have isWhole :
        (inner.filter Move.marked).length + (inner.filter fun move => !move.marked).length =
          inner.length := by
      rw [← length_append]
      exact (filter_append_perm Move.marked inner).length_eq
    have isJoined :
        ((inner.map move.join).filter fun move => !move.marked).length =
          (inner.filter fun move => !move.marked).length +
            if move.marked then 0 else (inner.filter Move.marked).length := by
      rw [filter_map, length_map]
      cases isMarked : move.marked with
      | true => simp [comp_def, Move.join, isMarked]
      | false =>
        simp only [comp_def, Move.join, isMarked, Bool.false_and, Bool.not_false,
          filter_true]
        rw [if_neg Bool.false_ne_true, ← isWhole, Nat.add_comm]
    rw [flatMap_cons, filter_append, length_append, ih, isJoined, length_cons, filter_cons]
    cases move.marked with
    | true =>
      simp only [Bool.not_true, if_true, Bool.false_eq_true, if_false]
      ring
    | false =>
      simp only [Bool.not_false, if_true, Bool.false_eq_true, if_false, length_cons]
      ring

/-! ## Alternatives -/

/-- The moves of an axis, listed by alternatives. -/
structure Alternatives where
  count : Nat
  moves : Nat → List Move

def Alternatives.all (axis : Alternatives) : List Move := (List.range axis.count).flatMap axis.moves

/-- What is crossed for a choice on each axis. -/
def choose (axes : List Alternatives) (choice : List Nat) : List Move :=
  cross (List.zipWith (fun i axis => axis.moves i) choice axes)

theorem flatMap_choose (axes : List Alternatives) :
    ((boxIndices (axes.map Alternatives.count)).flatMap (choose axes)).Perm
      (cross (axes.map Alternatives.all)) := by
  induction axes with
  | nil => exact .refl _
  | cons axis axes ih =>
    rw [map_cons, map_cons, boxIndices, cross, Alternatives.all, flatMap_assoc, flatMap_assoc]
    refine List.Perm.flatMap_left _ fun i _ => ?_
    rw [flatMap_map]
    show (List.flatMap (fun index => List.flatMap _ (axis.moves i)) _).Perm _
    refine (flatMap_swap _ _ _).trans ?_
    refine List.Perm.flatMap_left _ fun move _ => ?_
    refine List.Perm.trans ?_ (ih.map _)
    rw [map_flatMap]
    exact .refl _

/-! ## Runs -/

/-- A loop that starts at two addresses, with a mark for its moves. -/
structure Run where
  loop : Loop
  left : Int
  right : Int
  marked : Bool

def Run.moves (run : Run) : List Move := (List.range run.loop.size).map fun (i : Nat) =>
    ⟨run.left + i * run.loop.left, run.right + i * run.loop.right, run.marked⟩

theorem cross_runs (runs : List Run) :
    (cross (runs.map Run.moves)).map (fun move => (move.left, move.right)) =
      shifted (runs.map Run.left).sum (runs.map Run.right).sum (nest (runs.map Run.loop)) := by
  induction runs with
  | nil => rfl
  | cons run runs ih =>
    simp only [map_cons, sum_cons]
    rw [cross, nest, shifted_flatMap, map_flatMap, Run.moves, flatMap_map]
    congr 1
    funext i
    rw [shifted_shifted, map_map]
    have isJoined (move : Int × Int) :
        (run.left + (runs.map Run.left).sum + i * run.loop.left + move.1,
            run.right + (runs.map Run.right).sum + i * run.loop.right + move.2) =
          (run.left + i * run.loop.left + ((runs.map Run.left).sum + move.1),
            run.right + i * run.loop.right + ((runs.map Run.right).sum + move.2)) := by
      rw [Prod.mk.injEq]
      constructor
      · ring
      · ring
    calc
      _ = ((cross (runs.map Run.moves)).map fun move => (move.left, move.right)).map fun move =>
              (run.left + i * run.loop.left + move.1, run.right + i * run.loop.right + move.2) := by
        rw [map_map]
        rfl
      _ = _ := by
        rw [ih, shifted, map_map, shifted]
        refine map_congr_left fun move _ => ?_
        exact (isJoined move).symm

/-- Loops that stay at one address do not change the other one. -/
theorem nest_still (loops : List Loop) :
    nest (loops.map fun loop => ⟨loop.size, 0, loop.right⟩) =
      (nest loops).map fun move => (0, move.2) := by
  induction loops with
  | nil => rfl
  | cons loop loops ih =>
    rw [map_cons, nest, nest, map_flatMap, ih]
    congr 1
    funext i
    simp [shifted, comp_def]

/-- The moves at an index are joined. -/
def joined {Axis : Type*} (move : Axis → Nat → Move) : List Axis → List Nat → Move
  | axis :: axes, i :: index => (move axis i).join (joined move axes index)
  | _, _ => neutral

theorem cross_box {Axis : Type*} (size : Axis → Nat) (move : Axis → Nat → Move) (axes : List Axis) :
    cross (axes.map fun axis => (List.range (size axis)).map (move axis)) =
      (boxIndices (axes.map size)).map (joined move axes) := by
  induction axes with
  | nil => rfl
  | cons axis axes ih =>
    rw [map_cons, cross, ih, map_cons, boxIndices, map_flatMap, flatMap_map]
    congr 1
    funext i
    rw [map_map, map_map]
    rfl

end Mnn.Foundation.MarkedMoves
