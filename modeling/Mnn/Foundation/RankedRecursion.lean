import Mathlib

/-!
# Recursion over a ranked graph

A node depends on nodes of smaller rank.  A quantity that every node computes
from those of the nodes it depends on is found by unfolding the computation as
often as the rank says, and then solves its own equation.
-/

namespace Mnn.Foundation.RankedRecursion

universe u v

variable {Node : Type u} {Result : Type v}

/-- Unfold the computation of a node a number of times. -/
def unfold (step : Node → (Node → Result) → Result) (start : Node → Result) : Nat → Node → Result
  | 0, node => start node
  | count + 1, node => step node (unfold step start count)

/-- A node looks only at nodes of smaller rank. -/
def LooksBelow (step : Node → (Node → Result) → Result) (rank : Node → Nat) : Prop :=
  ∀ node results results', (∀ other, rank other < rank node → results other = results' other) →
      step node results = step node results'

/-- What every node computes. -/
def solve (step : Node → (Node → Result) → Result) (start : Node → Result)
    (rank : Node → Nat) (node : Node) : Result :=
  unfold step start (rank node + 1) node

variable {step : Node → (Node → Result) → Result} {start : Node → Result} {rank : Node → Nat}

theorem unfold_eq (below : LooksBelow step rank) {count count' : Nat} {node : Node}
    (enough : rank node < count) (enough' : rank node < count') :
    unfold step start count node = unfold step start count' node := by
  induction count generalizing count' node with
  | zero => cases enough
  | succ count ih =>
    cases count' with
    | zero => cases enough'
    | succ count' =>
      apply below
      intro other smaller
      apply ih
      · exact Nat.lt_of_lt_of_le smaller (Nat.le_of_lt_succ enough)
      · exact Nat.lt_of_lt_of_le smaller (Nat.le_of_lt_succ enough')

theorem solve_eq (below : LooksBelow step rank) (node : Node) :
    solve step start rank node = step node (solve step start rank) := by
  apply below
  intro other smaller
  exact unfold_eq below smaller (Nat.lt_succ_self _)

end Mnn.Foundation.RankedRecursion
