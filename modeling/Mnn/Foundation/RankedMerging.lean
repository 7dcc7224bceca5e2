import Mathlib

/-!
# Merging adjacent symbols by the ranks of pairs

Some pairs of symbols have a rank.  The two adjacent symbols of the lowest rank
are merged, and the leftmost of those with the same rank, until no two adjacent
symbols have one.  The pairs of neighbours of a list overlap: a merge drops one of
them and changes those on both sides.
-/

namespace Mnn.Foundation.RankedMerging

open List

variable {α β Rank : Type*} [LinearOrder Rank]

/-! ## Merging -/

section Merging

variable (rank : List α → List α → Option Rank)

/-- No other pair has a lower rank, and none with the same is further left. -/
structure IsLowest (before : List (List α)) (left right : List α)
    (after : List (List α)) (lowest : Rank) : Prop where
  isRank : rank left right = some lowest
  least : ∀ before' left' right' after' other,
    before ++ left :: right :: after = before' ++ left' :: right' :: after' →
      rank left' right' = some other →
        lowest < other ∨ lowest = other ∧ before.length ≤ before'.length

/-- The symbols that are left after all merges. -/
inductive MergesTo : List (List α) → List (List α) → Prop
  | done {symbols : List (List α)} (noRank : ∀ before left right after,
        symbols = before ++ left :: right :: after → rank left right = none) :
      MergesTo symbols symbols
  | merge {before after result : List (List α)} {left right : List α} {lowest : Rank}
      (isLowest : IsLowest rank before left right after lowest)
      (later : MergesTo (before ++ (left ++ right) :: after) result) :
      MergesTo (before ++ left :: right :: after) result

variable {rank}

theorem IsLowest.unique {before before' after after' : List (List α)}
    {left left' right right' : List α} {lowest lowest' : Rank}
    (isLowest : IsLowest rank before left right after lowest)
    (isLowest' : IsLowest rank before' left' right' after' lowest')
    (same : before ++ left :: right :: after = before' ++ left' :: right' :: after') :
    before = before' ∧ left = left' ∧ right = right' ∧ after = after' := by
  have there := isLowest.least _ _ _ _ _ same isLowest'.isRank
  have here := isLowest'.least _ _ _ _ _ same.symm isLowest.isRank
  have sameLength : before.length = before'.length := by
    rcases there with less | ⟨rfl, first⟩
    · rcases here with less' | ⟨rfl, -⟩
      · exact absurd less (lt_asymm less')
      · exact absurd less (lt_irrefl _)
    · rcases here with less' | ⟨-, first'⟩
      · exact absurd less' (lt_irrefl _)
      · exact Nat.le_antisymm first first'
  obtain ⟨sameBefore, fromLeft⟩ := append_inj same sameLength
  obtain ⟨sameLeft, fromRight⟩ := List.cons.inj fromLeft
  obtain ⟨sameRight, sameAfter⟩ := List.cons.inj fromRight
  exact ⟨sameBefore, sameLeft, sameRight, sameAfter⟩

theorem MergesTo.unique {symbols result result' : List (List α)}
    (merges : MergesTo rank symbols result) (merges' : MergesTo rank symbols result') :
    result = result' := by
  induction merges with
  | done noRank =>
    cases merges' with
    | done _ => rfl
    | merge isLowest later =>
      have none := noRank _ _ _ _ rfl
      rw [isLowest.isRank] at none
      cases none
  | @merge before after result left right lowest isLowest later ih =>
    generalize isSymbols : before ++ left :: right :: after = symbols at merges'
    cases merges' with
    | done noRank =>
      have none := noRank _ _ _ _ isSymbols.symm
      rw [isLowest.isRank] at none
      cases none
    | merge isLowest' later' =>
      obtain ⟨rfl, rfl, rfl, rfl⟩ := isLowest.unique isLowest' isSymbols
      exact ih later'

end Merging

/-! ## Neighbours -/

/-- The pairs of adjacent elements. -/
def neighbours : List β → List (β × β)
  | a :: b :: rest => (a, b) :: neighbours (b :: rest)
  | _ => []

@[simp]
theorem length_neighbours : ∀ symbols : List β, (neighbours symbols).length = symbols.length - 1
  | [] => rfl
  | [_] => rfl
  | a :: b :: rest => by
      rw [neighbours, length_cons, length_neighbours]
      simp

theorem neighbours_append (before after : List β) (x : β) :
    neighbours (before ++ x :: after) = neighbours (before ++ [x]) ++ neighbours (x :: after) := by
  induction before with
  | nil => rfl
  | cons a before ih =>
    cases before with
    | nil => rfl
    | cons b before =>
      simp only [cons_append, neighbours] at ih ⊢
      rw [ih]

theorem split_of_neighbours {symbols : List β} {front back : List (β × β)} {pair : β × β}
    (split : neighbours symbols = front ++ pair :: back) :
    ∃ before after, symbols = before ++ pair.1 :: pair.2 :: after ∧
      front = neighbours (before ++ [pair.1]) ∧ back = neighbours (pair.2 :: after) := by
  induction front generalizing symbols with
  | nil =>
    match symbols, split with
    | a :: b :: rest, split =>
      obtain ⟨rfl, rfl⟩ := List.cons.inj split
      exact ⟨[], rest, rfl, rfl, rfl⟩
  | cons first front ih =>
    match symbols, split with
    | a :: b :: rest, split =>
      obtain ⟨rfl, later⟩ := List.cons.inj split
      obtain ⟨before, after, isSymbols, rfl, rfl⟩ := ih later
      refine ⟨a :: before, after, by rw [isSymbols]; rfl, ?_, rfl⟩
      cases before with
      | nil =>
        obtain ⟨rfl, -⟩ := List.cons.inj isSymbols
        rfl
      | cons c before =>
        obtain ⟨rfl, -⟩ := List.cons.inj isSymbols
        rfl

/-- A pair is found at the place where its first element stands. -/
theorem neighbours_split (before after : List β) (x y : β) :
    neighbours (before ++ x :: y :: after) =
      neighbours (before ++ [x]) ++ (x, y) :: neighbours (y :: after) :=
  neighbours_append before (y :: after) x

theorem map_snd_neighbours (x : β) (symbols : List β) :
    (neighbours (x :: symbols)).map Prod.snd = symbols := by
  induction symbols generalizing x with
  | nil => rfl
  | cons y symbols ih => rw [neighbours, map_cons, ih]

section Lowest

variable {ι : Type*} (score : ι → Rank)

/-- `if (score(i) < min) { min = score(i); to = i; }` -/
def lowerOf (acc : Rank × Option ι) (i : ι) : Rank × Option ι :=
  if score i < acc.1 then (score i, some i) else acc

theorem foldl_lowerOf (acc : Rank × Option ι) (l : List ι) :
    l.foldl (lowerOf score) acc = acc ∧ (∀ i ∈ l, acc.1 ≤ score i) ∨
      ∃ before lowest after, l = before ++ lowest :: after ∧
        l.foldl (lowerOf score) acc = (score lowest, some lowest) ∧
        score lowest < acc.1 ∧ (∀ i ∈ before, score lowest < score i) ∧
        ∀ i ∈ after, score lowest ≤ score i := by
  induction l generalizing acc with
  | nil => exact .inl ⟨rfl, fun _ isMem => absurd isMem not_mem_nil⟩
  | cons first l ih =>
    rw [foldl_cons]
    by_cases lower : score first < acc.1
    · rw [lowerOf, if_pos lower]
      right
      rcases ih (score first, some first) with ⟨same, least⟩ |
        ⟨before, lowest, after, rfl, isLowest, less, front, back⟩
      · exact ⟨[], first, l, rfl, same, lower, fun _ isMem => absurd isMem not_mem_nil, least⟩
      · exact ⟨first :: before, lowest, after, rfl, isLowest, less.trans lower,
          forall_mem_cons.mpr ⟨less, front⟩, back⟩
    · rw [lowerOf, if_neg lower]
      rcases ih acc with ⟨same, least⟩ | ⟨before, lowest, after, rfl, isLowest, less, front, back⟩
      · exact .inl ⟨same, forall_mem_cons.mpr ⟨not_lt.mp lower, least⟩⟩
      · exact .inr ⟨first :: before, lowest, after, rfl, isLowest, less,
          forall_mem_cons.mpr ⟨less.trans_le (not_lt.mp lower), front⟩, back⟩

end Lowest

end Mnn.Foundation.RankedMerging
