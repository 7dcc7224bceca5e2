import Mathlib

/-!
# What results need

Nodes read and write places.  A place is needed if it is asked for, or if a node that
writes a needed place reads it, unless the place is cut off.
-/

namespace Mnn.Foundation.BackwardNeeds

variable {Place Node : Type}
variable (reads writes : Node → List Place) (cut asked : Place → Prop)

inductive Needed : Place → Prop
  | asked {place : Place} : asked place → ¬ cut place → Needed place
  | read {node : Node} {result place : Place} :
      result ∈ writes node → Needed result → place ∈ reads node → ¬ cut place → Needed place

/-- A node that writes what is needed. -/
def Reaches (node : Node) : Prop := ∃ result ∈ writes node, Needed reads writes cut asked result

variable {reads writes cut asked}

/-- What a node that reaches a result reads is cut off or needed. -/
theorem Reaches.cut_or_needed {node : Node}
    (reaches : Reaches reads writes cut asked node) {place : Place} (isRead : place ∈ reads node) :
    cut place ∨ Needed reads writes cut asked place := by
  rcases reaches with ⟨result, isWritten, needed⟩
  by_cases isCut : cut place
  · exact Or.inl isCut
  · exact Or.inr (Needed.read isWritten needed isRead isCut)

/-- A needed place is in every set that what is needed cannot leave. -/
theorem Needed.mem_of_closed {marked : Set Place}
    (starts : ∀ place, asked place → ¬ cut place → place ∈ marked)
    (closed :
      ∀ node, ∀ result ∈ writes node, result ∈ marked →
        ∀ place ∈ reads node, ¬ cut place → place ∈ marked)
    {place : Place} (needed : Needed reads writes cut asked place) :
    place ∈ marked := by
  induction needed with
  | asked isAsked notCut => exact starts _ isAsked notCut
  | read isWritten _ isRead notCut ih =>
    exact closed _ _ isWritten ih _ isRead notCut

end Mnn.Foundation.BackwardNeeds
