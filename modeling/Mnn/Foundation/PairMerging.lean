import Mathlib

/-!
# Merging adjacent pieces

A text is cut in pieces, and some strings have a score.  The two adjacent
pieces whose concatenation has the best score are merged, and among those with
the same score the leftmost, again and again until no concatenation has a
score.

A queue that hands out a greatest element is what such a merge is computed
with.
-/

namespace Mnn.Foundation.PairMerging

open List

variable {α Score : Type*} [LinearOrder Score]

/-! ## Merging -/

variable {pieces result : List (List α)}

section Merging

variable (score : List α → Option Score)

/-- No other pair has a better score, and none with the same is further left. -/
structure IsBest
    (before : List (List α)) (left right : List α) (after : List (List α))
    (best : Score) : Prop where
  isScore : score (left ++ right) = some best
  greatest :
    ∀ before' left' right' after' other,
      before ++ left :: right :: after = before' ++ left' :: right' :: after' →
        score (left' ++ right') = some other →
          other < best ∨ other = best ∧ before.length ≤ before'.length

/-- The pieces that are left after all merges. -/
inductive Merges : List (List α) → List (List α) → Prop
  | done {pieces : List (List α)} (noPair :
        ∀ before left right after, pieces = before ++ left :: right :: after →
            score (left ++ right) = none) :
      Merges pieces pieces
  | merge {before after result : List (List α)} {left right : List α}
      {best : Score} (isBest : IsBest score before left right after best)
      (later : Merges (before ++ (left ++ right) :: after) result) :
      Merges (before ++ left :: right :: after) result

variable {score}

theorem IsBest.unique {before before' after after' : List (List α)}
    {left left' right right' : List α} {best best' : Score}
    (isBest : IsBest score before left right after best)
    (isBest' : IsBest score before' left' right' after' best')
    (same : before ++ left :: right :: after = before' ++ left' :: right' :: after') :
    before = before' ∧ left = left' ∧ right = right' ∧ after = after' := by
  have there := isBest.greatest _ _ _ _ _ same isBest'.isScore
  have here := isBest'.greatest _ _ _ _ _ same.symm isBest.isScore
  have sameLength : before.length = before'.length := by
    rcases there with worse | ⟨rfl, first⟩
    · rcases here with worse' | ⟨rfl, -⟩
      · exact absurd worse (lt_asymm worse')
      · exact absurd worse (lt_irrefl _)
    · rcases here with worse' | ⟨-, first'⟩
      · exact absurd worse' (lt_irrefl _)
      · exact Nat.le_antisymm first first'
  rcases append_inj same sameLength with ⟨sameBefore, fromLeft⟩
  rcases List.cons.inj fromLeft with ⟨sameLeft, fromRight⟩
  rcases List.cons.inj fromRight with ⟨sameRight, sameAfter⟩
  exact ⟨sameBefore, sameLeft, sameRight, sameAfter⟩

theorem Merges.unique {result' : List (List α)} (merges : Merges score pieces result)
    (merges' : Merges score pieces result') : result = result' := by
  induction merges with
  | done noPair =>
    cases merges' with
    | done _ => rfl
    | merge isBest later =>
      have none := noPair _ _ _ _ rfl
      rw [isBest.isScore] at none
      nomatch none
  | @merge before after result left right best isBest later ih =>
    generalize isPieces : before ++ left :: right :: after = pieces at merges'
    cases merges' with
    | done noPair =>
      have none := noPair _ _ _ _ isPieces.symm
      rw [isBest.isScore] at none
      nomatch none
    | merge isBest' later' =>
      rcases isBest.unique isBest' isPieces with ⟨rfl, rfl, rfl, rfl⟩
      exact ih later'

theorem Merges.flatten (merges : Merges score pieces result) :
    result.flatten = pieces.flatten := by
  induction merges with
  | done _ => rfl
  | merge isBest later ih =>
    rw [ih]
    simp only [flatten_append, flatten_cons, append_assoc]

/-- What holds of both parts of a merge holds of all pieces that are left. -/
theorem Merges.forall {P : List α → Prop} (append : ∀ a b, P a → P b → P (a ++ b))
    (merges : Merges score pieces result)
    (all : ∀ piece ∈ pieces, P piece) : ∀ piece ∈ result, P piece := by
  induction merges with
  | done _ => exact all
  | merge isBest later ih =>
    refine ih fun piece isMem => ?_
    rcases mem_append.mp isMem with isBefore | isMem
    · exact all piece (mem_append_left _ isBefore)
    · rcases mem_cons.mp isMem with rfl | isAfter
      · exact append _ _ (all _ (by simp)) (all _ (by simp))
      · exact all piece (by simp [isAfter])

end Merging

/-- A queue whose elements are taken out in the order of a comparison. -/
structure PriorityQueue (α : Type*) (less : α → α → Prop) where
  pop : List α → Option (α × List α)
  pop_none : ∀ elements, pop elements = none → elements = []
  pop_perm : ∀ elements top rest, pop elements = some (top, rest) → elements.Perm (top :: rest)
  pop_greatest :
    ∀ elements top rest, pop elements = some (top, rest) → ∀ other ∈ rest, ¬less top other

/-- A list, of which the greatest element is looked for. -/
def PriorityQueue.ofKey {Key : Type*} [DecidableEq α] [LinearOrder Key] (key : α → Key) :
    PriorityQueue α fun first second => key first < key second where
  pop elements :=
    match elements.argmax key with
    | none => none
    | some top => some (top, elements.erase top)
  pop_none elements isNone := by
    cases isMax : elements.argmax key with
    | none => exact argmax_eq_none.mp isMax
    | some top => rw [isMax] at isNone; nomatch isNone
  pop_perm elements top rest isTop := by
    cases isMax : elements.argmax key with
    | none => rw [isMax] at isTop; nomatch isTop
    | some first =>
      rw [isMax] at isTop
      rcases Prod.mk.inj (Option.some.inj isTop) with ⟨rfl, rfl⟩
      exact perm_cons_erase (argmax_mem isMax)
  pop_greatest elements top rest isTop other member := by
    cases isMax : elements.argmax key with
    | none => rw [isMax] at isTop; nomatch isTop
    | some first =>
      rw [isMax] at isTop
      rcases Prod.mk.inj (Option.some.inj isTop) with ⟨rfl, rfl⟩
      exact not_lt_of_ge (le_of_mem_argmax (mem_of_mem_erase member) isMax)

end Mnn.Foundation.PairMerging
