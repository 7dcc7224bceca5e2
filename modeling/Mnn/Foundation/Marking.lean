import Mathlib

/-!
# Marking with a stack

Edges are taken from a stack.  A node that an edge leads to is marked, and the
edges from it are put on the stack, unless it has been marked before.
-/

namespace Mnn.Foundation.Marking

open List
open Option

variable {Node Edge : Type*} (target : Edge → Option Node) (edges : Node → List Edge)

/-- The nodes that some edges lead to. -/
inductive Reached (roots : List Edge) : Node → Prop
  | root {edge node} : edge ∈ roots → target edge = some node → Reached roots node
  | next {node edge other} : Reached roots node → edge ∈ edges node →
      target edge = some other → Reached roots other

variable {target edges}

/-! ## What is marked -/

/-- The edges of marked nodes are followed, or they are on the stack. -/
structure Partial (target : Edge → Option Node) (edges : Node → List Edge) (roots stack : List Edge)
    (marked : List Node) : Prop where
  reached : ∀ node ∈ marked, Reached target edges roots node
  pending : ∀ edge ∈ stack, ∀ node, target edge = some node → Reached target edges roots node
  start : ∀ edge ∈ roots, ∀ node, target edge = some node → node ∈ marked ∨ edge ∈ stack
  closed : ∀ node ∈ marked, ∀ edge ∈ edges node, ∀ other, target edge = some other →
    other ∈ marked ∨ edge ∈ stack

section Marked

variable {roots stack : List Edge} {marked : List Node} {edge : Edge}

theorem Partial.skip (isPartial : Partial target edges roots (edge :: stack) marked)
    (known : ∀ node, target edge = some node → node ∈ marked) :
    Partial target edges roots stack marked where
  reached := isPartial.reached
  pending other isMem := isPartial.pending other (mem_cons_of_mem _ isMem)
  start other isRoot node leads := by
    rcases isPartial.start other isRoot node leads with isMarked | isMem
    · exact Or.inl isMarked
    · rcases List.mem_cons.mp isMem with rfl | isMem
      · exact Or.inl (known node leads)
      · exact Or.inr isMem
  closed first isMarked other isEdge node leads := by
    rcases isPartial.closed first isMarked other isEdge node leads with isMarked | isMem
    · exact Or.inl isMarked
    · rcases List.mem_cons.mp isMem with rfl | isMem
      · exact Or.inl (known node leads)
      · exact Or.inr isMem

theorem Partial.visit {node : Node}
    (isPartial : Partial target edges roots (edge :: stack) marked) (leads : target edge = some node) :
    Partial target edges roots ((edges node).reverse ++ stack) (node :: marked) := by
  have isReached := isPartial.pending edge mem_cons_self node leads
  have later {other : Edge} {next : Node} (leads' : target other = some next)
      (known : next ∈ marked ∨ other ∈ edge :: stack) :
      next ∈ node :: marked ∨ other ∈ (edges node).reverse ++ stack := by
    rcases known with isMarked | isMem
    · exact Or.inl (mem_cons_of_mem _ isMarked)
    · rcases List.mem_cons.mp isMem with rfl | isMem
      · rw [leads, some_inj] at leads'
        exact Or.inl (leads' ▸ mem_cons_self)
      · exact Or.inr (mem_append_right _ isMem)
  refine ⟨?_, ?_, fun other isRoot next leads' => later leads' (isPartial.start other isRoot next leads'),
    ?_⟩
  · intro other isMem
    rcases List.mem_cons.mp isMem with rfl | isMem
    · exact isReached
    · exact isPartial.reached other isMem
  · intro other isMem next leads'
    rcases List.mem_append.mp isMem with isEdge | isMem
    · exact .next isReached (mem_reverse.mp isEdge) leads'
    · exact isPartial.pending other (mem_cons_of_mem _ isMem) next leads'
  · intro first isMem other isEdge next leads'
    rcases List.mem_cons.mp isMem with rfl | isMem
    · exact Or.inr (mem_append_left _ (mem_reverse.mpr isEdge))
    · exact later leads' (isPartial.closed first isMem other isEdge next leads')

theorem Partial.mem_iff (isPartial : Partial target edges roots [] marked) (node : Node) :
    node ∈ marked ↔ Reached target edges roots node := by
  constructor
  · exact isPartial.reached node
  · intro isReached
    induction isReached with
    | root isRoot leads => exact (isPartial.start _ isRoot _ leads).resolve_right not_mem_nil
    | next _ isEdge leads ih => exact (isPartial.closed _ ih _ isEdge _ leads).resolve_right not_mem_nil

end Marked

variable [DecidableEq Node]

variable (target edges) in
/-- The marked nodes when the stack is empty; its top is the first edge. -/
def mark : Nat → List Edge → List Node → Option (List Node)
  | _, [], marked => some marked
  | 0, _ :: _, _ => none
  | fuel + 1, edge :: stack, marked =>
    match target edge with
    | none => mark fuel stack marked
    | some node =>
      if node ∈ marked then
        mark fuel stack marked
      else
        mark fuel ((edges node).reverse ++ stack) (node :: marked)

section Mark

variable {roots stack : List Edge} {marked : List Node} {fuel : Nat}

theorem Partial.mem_mark (isPartial : Partial target edges roots stack marked)
    {result : List Node} (isResult : mark target edges fuel stack marked = some result)
    (node : Node) : node ∈ result ↔ Reached target edges roots node := by
  induction fuel generalizing stack marked with
  | zero =>
    cases stack with
    | nil =>
      obtain rfl := some.inj isResult
      exact isPartial.mem_iff node
    | cons edge stack => nomatch isResult
  | succ fuel ih =>
    cases stack with
    | nil =>
      obtain rfl := some.inj isResult
      exact isPartial.mem_iff node
    | cons edge stack =>
      rw [mark] at isResult
      split at isResult
      · rename_i leads
        exact ih (isPartial.skip fun _ leads' => nomatch leads.symm.trans leads') isResult
      · rename_i other leads
        split_ifs at isResult with isMarked
        · refine ih (isPartial.skip fun next leads' => ?_) isResult
          rwa [← some.inj (leads.symm.trans leads')]
        · exact ih (isPartial.visit leads) isResult

theorem mem_mark {result : List Node}
    (isResult : mark target edges fuel roots [] = some result) (node : Node) :
    node ∈ result ↔ Reached target edges roots node :=
  Partial.mem_mark
    ⟨fun _ isMem => absurd isMem not_mem_nil, fun _ isRoot _ leads => .root isRoot leads,
      fun _ isRoot _ _ => Or.inr isRoot, fun _ isMem => absurd isMem not_mem_nil⟩ isResult node

/-- The number of edges which can still be put on the stack. -/
def edgesLeft (edges : Node → List Edge) (nodes : Finset Node) (marked : List Node) : Nat :=
  ∑ node ∈ nodes with node ∉ marked, (edges node).length

theorem edgesLeft_visit {nodes : Finset Node} {node : Node} (isNode : node ∈ nodes)
    (isNew : node ∉ marked) :
    edgesLeft edges nodes (node :: marked) + (edges node).length = edgesLeft edges nodes marked := by
  have isRest : (nodes.filter fun other => other ∉ node :: marked) =
      (nodes.filter fun other => other ∉ marked).erase node := by
    ext other
    simp only [Finset.mem_filter, List.mem_cons, not_or, Finset.mem_erase]
    tauto
  rw [edgesLeft, isRest]
  exact Finset.sum_erase_add _ _ (Finset.mem_filter.mpr ⟨isNode, isNew⟩)

theorem exists_mark (nodes : Finset Node) (areNodes : ∀ edge node, target edge = some node → node ∈ nodes)
    (enough : stack.length + edgesLeft edges nodes marked ≤ fuel) :
    ∃ result, mark target edges fuel stack marked = some result := by
  induction fuel generalizing stack marked with
  | zero =>
    cases stack with
    | nil => exact ⟨marked, rfl⟩
    | cons edge stack => exact absurd enough (by rw [length_cons]; omega)
  | succ fuel ih =>
    cases stack with
    | nil => exact ⟨marked, rfl⟩
    | cons edge stack =>
      rw [length_cons] at enough
      rw [mark]
      split
      · exact ih (by omega)
      · rename_i node leads
        split_ifs with isMarked
        · exact ih (by omega)
        · have fewer := @edgesLeft_visit _ _ edges _ marked nodes node (areNodes edge node leads) isMarked
          exact ih (by rw [length_append, length_reverse]; omega)

end Mark

end Mnn.Foundation.Marking
