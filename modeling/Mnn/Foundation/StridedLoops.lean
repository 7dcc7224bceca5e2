import Mathlib

/-!
# Loops with strides

Nested loops move two addresses at once, each loop by two strides of its own.
What such loops do is the set of pairs of addresses they visit.  Loops may be
swapped, a loop that runs once may be dropped, and a loop may be split in two
when its length is a product; none of this changes the pairs that are visited.

A loop nest which copies writes one cell for each pair.
-/

variable {axes rest finer coarser : List Axis} {left right : Int}

namespace Mnn.Foundation.StridedLoops

open List
open Function

/-! ## Boxes of indices -/

section Boxes

variable {ι : Type*}

/-- Every index runs from zero below its size. -/
def InBox (size index : ι → Int) : Prop := ∀ axis, 0 ≤ index axis ∧ index axis < size axis

/-- Where two boxes overlap which are shifted against each other. -/
theorem inBox_overlap {left right shift index : ι → Int} :
    InBox right index ∧ InBox left (index + shift) ↔ ∀ axis, max 0 (-shift axis) ≤ index axis ∧
          index axis < min (left axis - shift axis) (right axis) := by
  constructor
  · rintro ⟨inRight, inLeft⟩ axis
    have rightBounds := inRight axis
    have leftBounds := inLeft axis
    rw [Pi.add_apply] at leftBounds
    omega
  · intro overlap
    constructor
    · intro axis
      have bounds := overlap axis
      omega
    · intro axis
      have bounds := overlap axis
      rw [Pi.add_apply]
      omega

theorem exists_inBox_sub {first last : ι → Int} {property : (ι → Int) → Prop} :
    (∃ index, (∀ axis, first axis ≤ index axis ∧ index axis < last axis) ∧ property index) ↔
      ∃ index, InBox (last - first) index ∧ property (index + first) := by
  constructor
  · rintro ⟨index, bounds, holds⟩
    refine ⟨index - first, ?_, by rwa [sub_add_cancel]⟩
    intro axis
    have here := bounds axis
    rw [Pi.sub_apply, Pi.sub_apply]
    omega
  · rintro ⟨index, bounds, holds⟩
    refine ⟨index + first, ?_, holds⟩
    intro axis
    have here := bounds axis
    rw [Pi.sub_apply] at here
    rw [Pi.add_apply]
    omega

variable [Fintype ι]

instance (size index : ι → Int) : Decidable (InBox size index) :=
  inferInstanceAs (Decidable (∀ _, _))

/-- The address of an index, relative to the first address. -/
def dot (stride index : ι → Int) : Int := ∑ axis, index axis * stride axis

theorem dot_add (stride first second : ι → Int) :
    dot stride (first + second) = dot stride first + dot stride second := by
  simp only [dot, Pi.add_apply, add_mul, Finset.sum_add_distrib]

end Boxes

/-! ## Loops -/

/-- A loop: how often it runs, and how far it moves the two addresses. -/
structure Axis where
  size : Int
  left : Int
  right : Int
  deriving DecidableEq, Repr

/-- The pairs of addresses which the loops visit, relative to the first. -/
def Visits : List Axis → Int → Int → Prop
  | [], left, right => left = 0 ∧ right = 0
  | axis :: rest, left, right =>
    ∃ index, (0 ≤ index ∧ index < axis.size) ∧
      Visits rest (left - index * axis.left) (right - index * axis.right)

variable {count : Nat}

theorem visits_ofFn (axis : Fin count → Axis) :
    Visits (List.ofFn axis) left right ↔ ∃ index, InBox (fun k => (axis k).size) index ∧
        left = dot (fun k => (axis k).left) index ∧
          right = dot (fun k => (axis k).right) index := by
  induction count generalizing left right with
  | zero => simp [Visits, InBox, dot]
  | succ count ih =>
    rw [ofFn_succ, Visits]
    constructor
    · rintro ⟨first, bounds, visited⟩
      rcases (ih _).mp visited with
        ⟨index, inside, leftEq, rightEq⟩
      refine ⟨Fin.cons first index, ?_, ?_, ?_⟩
      · intro k
        refine Fin.cases ?_ (fun k => ?_) k
        · exact bounds
        · exact inside k
      · simp only [dot, Fin.sum_univ_succ, Fin.cons_zero, Fin.cons_succ] at leftEq ⊢
        omega
      · simp only [dot, Fin.sum_univ_succ, Fin.cons_zero, Fin.cons_succ] at rightEq ⊢
        omega
    · rintro ⟨index, inside, leftEq, rightEq⟩
      refine ⟨index 0, inside 0, (ih _).mpr ⟨Fin.tail index, ?_, ?_, ?_⟩⟩
      · intro k
        exact inside k.succ
      · simp only [dot, Fin.sum_univ_succ, Fin.tail] at leftEq ⊢
        omega
      · simp only [dot, Fin.sum_univ_succ, Fin.tail] at rightEq ⊢
        omega

theorem visits_perm {axes' : List Axis} (perm : axes.Perm axes') :
    ∀ {left right : Int}, Visits axes left right ↔ Visits axes' left right := by
  induction perm with
  | nil => exact Iff.rfl
  | cons axis _ ih =>
    intro left right
    simp only [Visits, ih]
  | swap first second rest =>
    intro left right
    simp only [Visits]
    constructor
    · rintro ⟨outer, outerBounds, inner, innerBounds, visited⟩
      refine ⟨inner, innerBounds, outer, outerBounds, ?_⟩
      rwa [sub_right_comm left, sub_right_comm right]
    · rintro ⟨outer, outerBounds, inner, innerBounds, visited⟩
      refine ⟨inner, innerBounds, outer, outerBounds, ?_⟩
      rwa [sub_right_comm left, sub_right_comm right]
  | trans _ _ firstIH secondIH =>
    intro left right
    exact firstIH.trans secondIH

theorem visits_unit {axis : Axis} (once : axis.size = 1) :
    Visits (axis :: rest) left right ↔ Visits rest left right := by
  rw [Visits]
  constructor
  · rintro ⟨index, bounds, visited⟩
    have isZero : index = 0 := by omega
    rwa [isZero, zero_mul, zero_mul, sub_zero, sub_zero] at visited
  · intro visited
    refine ⟨0, ⟨Int.le_refl 0, by omega⟩, ?_⟩
    rwa [zero_mul, zero_mul, sub_zero, sub_zero]

variable {outer inner leftStride rightStride : Int}

theorem visits_split (positive : 0 < inner) :
    Visits (⟨outer * inner, leftStride, rightStride⟩ :: rest) left right ↔ Visits
        (⟨outer, inner * leftStride, inner * rightStride⟩ ::
          ⟨inner, leftStride, rightStride⟩ :: rest) left right := by
  simp only [Visits]
  constructor
  · rintro ⟨index, ⟨nonneg, bound⟩, visited⟩
    have quotient : index / inner < outer := Int.ediv_lt_of_lt_mul positive bound
    refine ⟨index / inner, ⟨Int.ediv_nonneg nonneg positive.le, quotient⟩, index % inner,
        ⟨Int.emod_nonneg _ positive.ne', Int.emod_lt_of_pos _ positive⟩, ?_⟩
    have whole : index / inner * inner + index % inner = index := Int.ediv_mul_add_emod index inner
    have leftEq :
        left - index / inner * (inner * leftStride) - index % inner * leftStride =
          left - index * leftStride := by
      rw [← mul_assoc, sub_sub, ← add_mul, whole]
    have rightEq :
        right - index / inner * (inner * rightStride) - index % inner * rightStride =
          right - index * rightStride := by
      rw [← mul_assoc, sub_sub, ← add_mul, whole]
    rwa [leftEq, rightEq]
  · rintro ⟨first, ⟨firstNonneg, firstBound⟩, second, ⟨secondNonneg, secondBound⟩, visited⟩
    refine ⟨first * inner + second, ⟨?_, ?_⟩, ?_⟩
    · positivity
    · have room : (first + 1) * inner ≤ outer * inner :=
        Int.mul_le_mul_of_nonneg_right (by omega) positive.le
      rw [add_mul, one_mul] at room
      omega
    · rwa [add_mul, add_mul, mul_assoc, mul_assoc, ← sub_sub, ← sub_sub]

theorem visits_filter (positive : ∀ axis ∈ axes, 0 < axis.size) :
    ∀ {left right : Int}, Visits (axes.filter fun axis => 1 < axis.size) left right ↔
        Visits axes left right := by
  induction axes with
  | nil => exact Iff.rfl
  | cons axis rest ih =>
    have restPositive : ∀ axis ∈ rest, 0 < axis.size :=
      fun other member => positive other (mem_cons_of_mem _ member)
    intro left right
    rw [filter_cons]
    by_cases long : 1 < axis.size
    · rw [if_pos (decide_eq_true long)]
      simp only [Visits, ih restPositive]
    · have once : axis.size = 1 := by
        have here := positive axis mem_cons_self
        omega
      rw [if_neg (by simpa using long), visits_unit once]
      exact ih restPositive

/-! ## Loops that visit no second address twice -/

/-- One index for each loop. -/
def Indexes : List Axis → List Int → Prop
  | [], [] => True
  | axis :: rest, index :: indices =>
    (0 ≤ index ∧ index < axis.size) ∧ Indexes rest indices
  | _, _ => False

/-- The second address at the given indices. -/
def rightOf : List Axis → List Int → Int
  | axis :: rest, index :: indices =>
    index * axis.right + rightOf rest indices
  | _, _ => 0

def RightInjective (axes : List Axis) : Prop :=
  ∀ first second, Indexes axes first → Indexes axes second →
    rightOf axes first = rightOf axes second → first = second

/-- Indices of the finer loops are those of the coarser ones, written anew. -/
def Refines (finer coarser : List Axis) : Prop :=
  ∃ rewrite : List Int → List Int, (∀ indices, Indexes finer indices →
      Indexes coarser (rewrite indices) ∧
        rightOf coarser (rewrite indices) = rightOf finer indices) ∧
      ∀ first second, Indexes finer first → Indexes finer second →
        rewrite first = rewrite second → first = second

theorem Refines.refl (axes : List Axis) : Refines axes axes :=
  ⟨id, fun _ inside => ⟨inside, rfl⟩, fun _ _ _ _ same => same⟩

theorem Refines.rightInjective (refines : Refines finer coarser)
    (injective : RightInjective coarser) : RightInjective finer := by
  rcases refines with ⟨rewrite, keeps, distinct⟩
  intro first second firstInside secondInside same
  rcases keeps first firstInside with ⟨firstCoarse, firstSame⟩
  rcases keeps second secondInside with ⟨secondCoarse, secondSame⟩
  apply distinct first second firstInside secondInside
  apply injective _ _ firstCoarse secondCoarse
  rw [firstSame, secondSame, same]

theorem Refines.cons (axis : Axis) (refines : Refines finer coarser) :
    Refines (axis :: finer) (axis :: coarser) := by
  rcases refines with ⟨rewrite, keeps, distinct⟩
  refine ⟨fun indices => indices.headI :: rewrite indices.tail, ?_, ?_⟩
  · rintro (_ | ⟨index, indices⟩) inside
    · cases inside
    · rcases keeps indices inside.2 with ⟨coarse, same⟩
      refine ⟨⟨inside.1, coarse⟩, ?_⟩
      simp only [rightOf, tail_cons, headI_cons, same]
  · rintro (_ | ⟨index, indices⟩) (_ | ⟨index', indices'⟩) inside inside' same
    · rfl
    · cases inside
    · cases inside'
    · rcases List.cons.inj same with ⟨headSame, tailSame⟩
      rw [show index = index' from headSame, distinct indices indices' inside.2 inside'.2 tailSame]

theorem Refines.unit {axis : Axis} (once : axis.size = 1) (refines : Refines finer coarser) :
    Refines finer (axis :: coarser) := by
  rcases refines with ⟨rewrite, keeps, distinct⟩
  refine ⟨fun indices => 0 :: rewrite indices, ?_, ?_⟩
  · intro indices inside
    rcases keeps indices inside with ⟨coarse, same⟩
    refine ⟨⟨⟨Int.le_refl 0, by omega⟩, coarse⟩, ?_⟩
    rw [rightOf, zero_mul, zero_add, same]
  · intro first second inside inside' same
    exact distinct first second inside inside' (List.cons.inj same).2

theorem Refines.filter (positive : ∀ axis ∈ axes, 0 < axis.size) :
    Refines (axes.filter fun axis => 1 < axis.size) axes := by
  induction axes with
  | nil => exact Refines.refl []
  | cons axis rest ih =>
    have refines := ih fun other member =>
        positive other (mem_cons_of_mem _ member)
    rw [filter_cons]
    by_cases long : 1 < axis.size
    · rw [if_pos (decide_eq_true long)]
      exact refines.cons axis
    · have once : axis.size = 1 := by
        have here := positive axis mem_cons_self
        omega
      rw [if_neg (by simpa using long)]
      exact refines.unit once

theorem Refines.split (rest : List Axis) : Refines
      (⟨outer, inner * leftStride, inner * rightStride⟩ :: ⟨inner, leftStride, rightStride⟩ :: rest)
      (⟨outer * inner, leftStride, rightStride⟩ :: rest) := by
  refine ⟨fun indices =>
      (indices.headI * inner + indices.tail.headI) :: indices.tail.tail,
      ?_, ?_⟩
  · rintro (_ | ⟨first, _ | ⟨second, indices⟩⟩) inside
    · cases inside
    · cases inside.2
    · rcases inside with ⟨⟨firstNonneg, firstBound⟩, ⟨secondNonneg, secondBound⟩, later⟩
      simp only at firstBound secondBound
      have positive : 0 < inner := by omega
      have room : (first + 1) * inner ≤ outer * inner :=
        Int.mul_le_mul_of_nonneg_right (by omega) positive.le
      rw [add_mul, one_mul] at room
      refine ⟨⟨⟨?_, ?_⟩, later⟩, ?_⟩
      · show 0 ≤ first * inner + second
        positivity
      · show first * inner + second < outer * inner
        omega
      · simp only [rightOf, tail_cons, headI_cons]
        ring
  · rintro (_ | ⟨first, _ | ⟨second, indices⟩⟩)
      (_ | ⟨first', _ | ⟨second', indices'⟩⟩) inside inside' same
    all_goals
      first
        | cases inside
          done
        | cases inside'
          done
        | cases inside.2
          done
        | cases inside'.2
          done
        | skip
    rcases List.cons.inj same with ⟨wholeSame, laterSame⟩
    have wholeEq : first * inner + second = first' * inner + second' := wholeSame
    have bounds : 0 ≤ second ∧ second < inner := inside.2.1
    have bounds' : 0 ≤ second' ∧ second' < inner := inside'.2.1
    have firstEq : first = first' := by
      have quotient : (first * inner + second) / inner = (first' * inner + second') / inner := by
        rw [wholeEq]
      rwa [add_comm, Int.add_mul_ediv_right _ _ (by omega),
        Int.ediv_eq_zero_of_lt bounds.1 bounds.2, zero_add,
        add_comm, Int.add_mul_ediv_right _ _ (by omega),
        Int.ediv_eq_zero_of_lt bounds'.1 bounds'.2, zero_add] at quotient
    subst firstEq
    have secondEq : second = second' := by omega
    rw [secondEq, show indices = indices' from laterSame]

theorem indexes_ofFn {axis : Fin count → Axis} {index : Fin count → Int} :
    Indexes (List.ofFn axis) (List.ofFn index) ↔ InBox (fun k => (axis k).size) index := by
  induction count with
  | zero => simp [Indexes, InBox]
  | succ count ih =>
    rw [ofFn_succ, ofFn_succ, Indexes, ih]
    constructor
    · rintro ⟨bounds, inside⟩ k
      refine Fin.cases ?_ (fun k => ?_) k
      · exact bounds
      · exact inside k
    · intro inside
      exact ⟨inside 0, fun k => inside k.succ⟩

theorem rightOf_ofFn (axis : Fin count → Axis) (index : Fin count → Int) :
    rightOf (List.ofFn axis) (List.ofFn index) = dot (fun k => (axis k).right) index := by
  induction count with
  | zero => simp [rightOf, dot]
  | succ count ih =>
    rw [ofFn_succ, ofFn_succ, rightOf, ih]
    simp only [dot, Fin.sum_univ_succ]

theorem exists_ofFn {indices : List Int} {count : Nat} (length : indices.length = count) :
    ∃ index : Fin count → Int, indices = List.ofFn index := by
  subst length
  exact ⟨indices.get, (ofFn_get indices).symm⟩

theorem rightInjective_ofFn {axis : Fin count → Axis} :
    RightInjective (List.ofFn axis) ↔ ∀ first second : Fin count → Int,
        InBox (fun k => (axis k).size) first → InBox (fun k => (axis k).size) second →
            dot (fun k => (axis k).right) first =
              dot (fun k => (axis k).right) second → first = second := by
  have listed :
      ∀ (axes : List Axis) (indices : List Int),
        Indexes axes indices → indices.length = axes.length := by
    intro axes
    induction axes with
    | nil =>
      rintro (_ | ⟨index, indices⟩) inside
      · rfl
      · cases inside
    | cons axis rest ih =>
      rintro (_ | ⟨index, indices⟩) inside
      · cases inside
      · rw [length_cons, length_cons, ih _ inside.2]
  constructor
  · intro injective first second firstInside secondInside same
    apply ofFn_injective
    apply injective
    · exact indexes_ofFn.mpr firstInside
    · exact indexes_ofFn.mpr secondInside
    · rw [rightOf_ofFn, rightOf_ofFn, same]
  · intro injective first second firstInside secondInside same
    have firstLength := listed _ _ firstInside
    have secondLength := listed _ _ secondInside
    rw [length_ofFn] at firstLength secondLength
    rcases exists_ofFn firstLength with ⟨index, rfl⟩
    rcases exists_ofFn secondLength with ⟨other, rfl⟩
    rw [indexes_ofFn] at firstInside secondInside
    rw [rightOf_ofFn, rightOf_ofFn] at same
    rw [injective _ _ firstInside secondInside same]

/-! ## Copying -/

section Copying

variable {Cell Value : Type*} [DecidableEq Cell]

/-- Copy from cell to cell, one pair after the other. -/
def copyAll (moves : List (Cell × Cell)) (source target : Cell → Value) : Cell → Value :=
  moves.foldl (fun target move => update target move.2 (source move.1)) target

@[simp]
theorem copyAll_cons (move : Cell × Cell) (moves : List (Cell × Cell))
    (source target : Cell → Value) :
    copyAll (move :: moves) source target = copyAll moves source
        (update target move.2 (source move.1)) :=
  rfl

section

variable {moves : List (Cell × Cell)} {source target : Cell → Value} {cell : Cell}

theorem copyAll_other (other : ∀ first, (first, cell) ∉ moves) :
    copyAll moves source target cell = target cell := by
  induction moves generalizing target with
  | nil => rfl
  | cons move rest ih =>
    have notHere : cell ≠ move.2 := by
      rintro rfl
      exact other move.1 mem_cons_self
    have notLater : ∀ first, (first, cell) ∉ rest :=
      fun first member => other first (mem_cons_of_mem _ member)
    rw [copyAll_cons, ih notLater, update_of_ne notHere]

theorem copyAll_of_mem {value : Value}
    (agree : ∀ first, (first, cell) ∈ moves → source first = value)
    {first : Cell} (member : (first, cell) ∈ moves) :
    copyAll moves source target cell = value := by
  induction moves generalizing target first with
  | nil => cases member
  | cons move rest ih =>
    have agreeLater : ∀ first, (first, cell) ∈ rest → source first = value :=
      fun first later => agree first (mem_cons_of_mem _ later)
    rw [copyAll_cons]
    by_cases again : ∃ first, (first, cell) ∈ rest
    · rcases again with ⟨later, laterMember⟩
      exact ih agreeLater laterMember
    · have notLater : ∀ first, (first, cell) ∉ rest := fun first later => again ⟨first, later⟩
      rw [copyAll_other notLater]
      rcases mem_cons.mp member with rfl | later
      · rw [update_self]
        exact agree first mem_cons_self
      · exact absurd later (notLater first)

end

variable {first second moves : List (Cell × Cell)}

/-- The order of the copies does not matter if no cell gets different values. -/
theorem copyAll_perm (isPerm : first.Perm second) (single :
      ∀ left left' cell, (left, cell) ∈ second → (left', cell) ∈ second → left = left')
    (source target : Cell → Value) :
    copyAll first source target = copyAll second source target := by
  funext cell
  by_cases isWritten : ∃ left, (left, cell) ∈ second
  · rcases isWritten with ⟨left, isMove⟩
    have agree : ∀ left', (left', cell) ∈ second → source left' = source left :=
      fun left' isMove' => congrArg source (single _ _ _ isMove' isMove)
    rw [copyAll_of_mem (fun left' isIn => agree left' (isPerm.mem_iff.mp isIn))
        (isPerm.mem_iff.mpr isMove),
      copyAll_of_mem agree isMove]
  · have never : ∀ left, (left, cell) ∉ second := fun left isMove => isWritten ⟨left, isMove⟩
    rw [copyAll_other fun left isIn => never left (isPerm.mem_iff.mp isIn), copyAll_other never]

theorem mem_targets_of_copyAll (same :
      copyAll first some (fun _ => (none : Option Cell)) = copyAll second some fun _ => none)
    {cell : Cell} (isWritten : cell ∈ first.map Prod.snd) : cell ∈ second.map Prod.snd := by
  by_contra notWritten
  have never : ∀ left, (left, cell) ∉ second := fun left isIn =>
    notWritten (mem_map.mpr ⟨_, isIn, rfl⟩)
  have isNone := congrFun same cell
  rw [copyAll_other never] at isNone
  -- the last copy to the cell leaves the name of where it comes from
  have isSome : ∀ (moves : List (Cell × Cell)) (target : Cell → Option Cell),
      (cell ∈ moves.map Prod.snd ∨ target cell ≠ none) → copyAll moves some target cell ≠ none := by
    intro moves
    induction moves with
    | nil =>
      intro target written
      rcases written with isIn | isSome
      · exact absurd isIn not_mem_nil
      · exact isSome
    | cons move rest ih =>
      intro target written
      rw [copyAll_cons]
      refine ih _ ?_
      by_cases here : cell = move.2
      · right
        rw [here, update_self]
        exact Option.some_ne_none _
      · rw [update_of_ne here]
        rcases written with isIn | isSome
        · exact Or.inl ((mem_cons.mp isIn).resolve_left here)
        · exact Or.inr isSome
  exact isSome first _ (Or.inl isWritten) isNone

/-- What is copied to cells of its own comes back if it is copied back. -/
theorem copyAll_back {source target target' : Cell → Value} {first second : Cell}
    (single : ∀ other cell, (first, cell) ∈ moves → (other, cell) ∈ moves → other = first)
    (member : (first, second) ∈ moves) :
    copyAll (moves.map Prod.swap) (copyAll moves source target) target' first = source first := by
  have isBack : (second, first) ∈ moves.map Prod.swap := mem_map.mpr ⟨_, member, rfl⟩
  refine copyAll_of_mem (fun cell isMove => ?_) isBack
  rcases mem_map.mp isMove with ⟨⟨_, _⟩, isThere, same⟩
  obtain ⟨rfl, rfl⟩ := Prod.mk.inj same
  refine copyAll_of_mem (fun other isOther => ?_) isThere
  rw [single other _ isThere isOther]

/-- Copying the cells' names tells where every value comes from. -/
theorem copyAll_eq_elim {source target : Cell → Value}
    {start : Cell → Option Cell} {cell : Cell} {value : Value}
    (same : target cell = (start cell).elim value source) :
    copyAll moves source target cell = (copyAll moves some start cell).elim value source := by
  induction moves generalizing target start with
  | nil => exact same
  | cons move rest ih =>
    rw [copyAll_cons, copyAll_cons]
    apply ih
    by_cases here : cell = move.2
    · rw [here, update_self, update_self]
      rfl
    · rw [update_of_ne here, update_of_ne here]
      exact same

end Copying

end Mnn.Foundation.StridedLoops
